import Linglong.Box.Filesystem

/-! # Mounts of ll-box

    `HostMount::MountNode` makes one mount of the OCI configuration. It makes
    the destination below the root of the container and mounts there by
    `do_mount_with_fd`, which refuses a target outside the root.

    The root it hands over is `root.c_str()`, and `root` is a `path`: this is
    the string the class derives from, which is empty. So nothing is refused,
    and a link at the destination leads the mount wherever it points to.

    1. Mounts and drivers.
    2. `MountNode`.
    3. What it opens (`accesses_mountNode`).
    4. When the mounts stay inside the root (`confined_iff`).
-/

namespace Linglong

namespace Box

open Framework

/-! ## Section 1: Mounts -/

/-- `Mount::Type`. -/
inductive FsType where
  | unknown
  | bind
  | proc
  | sysfs
  | devpts
  | mqueue
  | tmpfs
  | cgroup
  | cgroup2
  deriving DecidableEq

/-- `Mount`, an entry of the configuration after `from_json`. -/
structure Mount where
  destination : String
  type : String
  source : String
  data : List String
  fsType : FsType
  flags : UInt32
  propagationFlags : UInt32
  extensionFlags : UInt32
  deriving DecidableEq

def MS_RDONLY : UInt32 := 1
def MS_NOSUID : UInt32 := 2
def MS_NODEV : UInt32 := 4
def MS_NOEXEC : UInt32 := 8
def MS_REMOUNT : UInt32 := 32
def LINGLONG_MS_NOSYMFOLLOW : UInt32 := 256
def MS_BIND : UInt32 := 4096
def MS_REC : UInt32 := 16384
def MS_UNBINDABLE : UInt32 := 131072
def MS_PRIVATE : UInt32 := 262144
def MS_SLAVE : UInt32 := 524288
def MS_SHARED : UInt32 := 1048576

/-- `Extension::COPY_SYMLINK`. -/
def COPY_SYMLINK : UInt32 := 1

def allPropagations : UInt32 := MS_SHARED ||| MS_PRIVATE ||| MS_SLAVE ||| MS_UNBINDABLE

/-- A `FilesystemDriver`, with what its paths depend on: `root_path_` of the
    native one, `mount_point_` of the others. -/
inductive FilesystemDriver where
  | native (rootPath : String)
  | overlayfsFuse (mountPoint : String)
  | fuseProxy (mountPoint : String)
  deriving DecidableEq

namespace FilesystemDriver

/-- `HostSource`, of every driver. -/
def hostSource (_ : FilesystemDriver) (dest : Path) : Path := dest

/-- `HostPath`. -/
def hostPath (d : FilesystemDriver) (dest : Path) : Path :=
  match d with
  | .native rootPath => (Path.new rootPath).append dest
  | .overlayfsFuse mountPoint => d.hostSource ((Path.new mountPoint).append dest)
  | .fuseProxy mountPoint => d.hostSource ((Path.new mountPoint).append dest)

/-- `CreateDestinationPath`; `MountNode` does not look at what it returns. -/
def createDestinationPath {σ : Type} (d : FilesystemDriver) (k : Kernel σ) (dest : Path) :
    Run σ Bool :=
  createDirectories k (d.hostPath dest)

/-- `HostPath("/")`. -/
def root (d : FilesystemDriver) : Path := d.hostPath (Path.new "/")

/-- No driver gives the root a string to derive from. -/
@[simp] theorem root_cStr (d : FilesystemDriver) : d.root.cStr = "" := by
  cases d <;> rfl

end FilesystemDriver

/-! ## Section 2: MountNode -/

variable {σ α β : Type}

/-- What the first half of `MountNode` ends with: a result, or the source to
    mount, its descriptor and the value of `ret`. -/
inductive Prepared where
  | done (ret : Int)
  | ready (source : String) (sourceFd : Option Nat) (ret : Int)
  deriving DecidableEq

section MountNode

variable (k : Kernel σ) (d : FilesystemDriver) (m : Mount)

/-- The destination below the root. -/
def hostDestFullPath : Path := d.hostPath (Path.new m.destination)

/-- The case `S_IFLNK`, once the parent of the destination is there. -/
def prepareSymlink (source : String) (ret : Int) : Run σ Prepared :=
  if m.flags &&& LINGLONG_MS_NOSYMFOLLOW ≠ 0 then do
    let sourceFd ← syscall (k.openPath true source)
    match sourceFd with
    | none => throw .openSource
    | some fd =>
        let _ ← (hostDestFullPath d m).touch k
        pure (.ready (procFd fd) (some fd) ret)
  else if m.extensionFlags &&& COPY_SYMLINK ≠ 0 then do
    let buf ← syscall (k.readlink source)
    match buf with
    | none => pure (.done (-1))
    | some target =>
        let ret ← (hostDestFullPath d m).touchSymlink k target
        pure (.done ret)
  else do
    let touched ← (hostDestFullPath d m).touch k
    if ¬ touched then pure (.done (-1))
    else
      let real ← readSymlink k (Path.new source)
      pure (.ready real.string none ret)

/-- The source: a path is normalised. -/
def mountSource : String :=
  if m.source.toList.head? = some '/' then (d.hostSource (Path.new m.source)).string else m.source

/-- `switch (source_stat.st_mode & S_IFMT)`: a file is made for a file, a
    directory for anything else. -/
def createDestination (st : Option FileType) (parent : Path) (source : String) (ret : Int) :
    Run σ Prepared :=
  match st with
  | some .symlink => do
      let _ ← d.createDestinationPath k parent
      prepareSymlink k d m source ret
  | some .character | some .socket | some .regular => do
      let _ ← d.createDestinationPath k parent
      let _ ← (hostDestFullPath d m).touch k
      pure (.ready source none ret)
  | none | some .block | some .fifo | some .directory => do
      let _ ← d.createDestinationPath k (Path.new m.destination)
      pure (.ready source none ret)

/-- `lstat` or `stat` of the source. -/
def statSource : Run σ (Option FileType) :=
  if m.flags &&& LINGLONG_MS_NOSYMFOLLOW ≠ 0 ∨ m.extensionFlags &&& COPY_SYMLINK ≠ 0 then
    syscall (k.lstat (mountSource d m))
  else syscall (k.stat (mountSource d m))

/-- `MountNode` up to the destination being made. -/
def prepare : Run σ Prepared := do
  let st ← statSource k d m
  if st = none ∧ m.fsType = .bind then pure (.done (-1))
  else
    match (Path.new m.destination).parentPath with
    | none => throw .undefined
    | some parent =>
        createDestination k d m st parent (mountSource d m) (if st.isSome then 0 else -1)

/-- `remount`: it mounts at the path itself. -/
def remount (target : String) (flags : UInt32) (data : String) : Run σ Int := do
  let dataPtr := if flags &&& (MS_REMOUNT ||| MS_RDONLY) ≠ 0 then none else some data
  let ret ← syscall (k.mount ⟨some "none", target, some "", flags, dataPtr⟩)
  if ret = 0 then pure 0
  else
    let sfs ← syscall (k.statfs target)
    match sfs with
    | none => pure (-1)
    | some fFlags =>
        let remountFlags := fFlags &&& (MS_NOSUID ||| MS_NODEV ||| MS_NOEXEC)
        if flags ||| remountFlags = flags then pure 0
        else
          let ret ← syscall (k.mount ⟨none, target, none, flags ||| remountFlags, dataPtr⟩)
          if ret = 0 then pure 0
          else if fFlags &&& MS_RDONLY ≠ 0 then
            let remountFlags := fFlags &&& (MS_NOSUID ||| MS_NODEV ||| MS_NOEXEC ||| MS_RDONLY)
            let ret ← syscall (k.mount ⟨none, target, none, flags ||| remountFlags, dataPtr⟩)
            pure (if ret < 0 then ret else 0)
          else pure (if ret < 0 then ret else 0)

/-- `do_mount_with_fd` with the root and the destination of `MountNode`. -/
def mountAt (source fstype : Option String) (flags : UInt32) (data : Option String) : Run σ Int :=
  doMountWithFd k d.root.cStr source (hostDestFullPath d m).string fstype flags data

/-- The remount that follows a bind mount, at once or, for a read-only one,
    in `finalizeMounts`. -/
def remountBind (ret : Int) : Run σ Int := do
  let data := strVecJoin m.data ','
  let target := (hostDestFullPath d m).string
  if data = "" ∧ m.flags &&& ~~~(MS_BIND ||| MS_REC ||| MS_REMOUNT) = 0 then pure ret
  else if m.flags &&& LINGLONG_MS_NOSYMFOLLOW ≠ 0 then pure ret
  else
    let realFlags := m.flags ||| MS_BIND ||| MS_REMOUNT
    if realFlags &&& MS_RDONLY = 0 then remount k target realFlags data
    else
      let newFd ← syscall (k.openPath false target)
      match newFd with
      | none => pure ret
      | some fd =>
          modify fun p => { p with
            remountList := p.remountList ++ [⟨realFlags, m.extensionFlags, fd, procFd fd, data⟩] }
          pure ret

/-- The first mount of the case `Mount::Bind`. -/
def bindMount (source : String) : Run σ Int :=
  mountAt k d m (some source) none
    ((m.flags ||| MS_BIND) &&& ((MS_BIND ||| MS_REC) &&& ~~~MS_RDONLY)) none

/-- The case `Mount::Bind`. -/
def mountBind (source : String) : Run σ Int := do
  let ret ← bindMount k d m source
  if ret ≠ 0 then pure ret
  else
    modify fun p => { p with sysfsIsBinded := p.sysfsIsBinded || source == "/sys" }
    if m.propagationFlags &&& allPropagations ≠ 0 then
      let ret ← mountAt k d m none none
        (m.propagationFlags &&& MS_REC ||| m.propagationFlags &&& allPropagations) none
      if ret < 0 then pure ret else remountBind k d m ret
    else remountBind k d m ret

/-- The first mount of the other cases. -/
def typedMount (source : String) : Run σ Int :=
  mountAt k d m (some source) (some m.type) m.flags (some (strVecJoin m.data ','))

/-- The cases from `Mount::Proc` to `Mount::Sysfs`. -/
def mountTyped (source : String) : Run σ Int := do
  let ret ← typedMount k d m source
  if ret < 0 then
    if m.fsType = .sysfs then
      let ret ← mountAt k d m (some "/sys") none (MS_BIND ||| MS_REC) none
      modify fun p => { p with sysfsIsBinded := p.sysfsIsBinded || ret == 0 }
      pure ret
    else if m.fsType = .mqueue then
      mountAt k d m (some "/dev/mqueue") none (MS_BIND ||| MS_REC) none
    else pure ret
  else pure ret

/-- The case `Mount::Cgroup`. -/
def mountCgroup (source : String) : Run σ Int := do
  let ret ← typedMount k d m source
  let p ← get
  pure (if p.sysfsIsBinded then 0 else ret)

/-- `switch (m.fsType)`; `ret` is what it has before. -/
def mountByType (source : String) (ret : Int) : Run σ Int :=
  match m.fsType with
  | .bind => mountBind k d m source
  | .proc | .devpts | .mqueue | .tmpfs | .sysfs => mountTyped k d m source
  | .cgroup => mountCgroup k d m source
  | .unknown | .cgroup2 => pure ret

/-- The descriptor of the source is closed at the end. -/
def closeSource (sourceFd : Option Nat) (ret : Int) : Run σ Int :=
  match sourceFd with
  | some fd => do
      syscall fun s => ((), k.close fd s)
      pure ret
  | none => pure ret

/-- `MountNode`. -/
def mountNode : Run σ Int := do
  let prepared ← prepare k d m
  match prepared with
  | .done ret => pure ret
  | .ready source sourceFd ret =>
      let ret ← mountByType k d m source ret
      closeSource k sourceFd ret

/-- `finalizeMounts`, for the rest of the list. -/
def finalizeMounts : List RemountNode → Run σ Unit
  | [] => pure ()
  | node :: nodes => do
      let _ ← remount k node.targetPath node.flags node.data
      syscall fun s => ((), k.close node.targetFd s)
      finalizeMounts nodes

end MountNode

/-! ## Section 3: Accesses of MountNode -/

section Quiet

variable (k : Kernel σ) (d : FilesystemDriver) (m : Mount)

theorem quiet_prepareSymlink (source : String) (ret : Int) :
    Quiet (prepareSymlink k d m source ret) := by
  refine quiet_ite ?_ (quiet_ite ?_ ?_)
  · refine quiet_bind (quiet_syscall _) fun sourceFd => ?_
    cases sourceFd with
    | none => exact quiet_throw _
    | some fd => exact quiet_bind (quiet_touch k _) fun _ => quiet_pure _
  · refine quiet_bind (quiet_syscall _) fun buf => ?_
    cases buf with
    | none => exact quiet_pure _
    | some target => exact quiet_bind (quiet_syscall _) fun _ => quiet_pure _
  · exact quiet_bind (quiet_touch k _) fun _ => quiet_ite (quiet_pure _)
      (quiet_bind (quiet_readSymlink k _) fun _ => quiet_pure _)

theorem quiet_createDestinationPath (dest : Path) : Quiet (d.createDestinationPath k dest) :=
  quiet_createDirectoriesFrom k _ _

theorem quiet_createDestination (st : Option FileType) (parent : Path) (source : String)
    (ret : Int) : Quiet (createDestination k d m st parent source ret) := by
  have hfile : Quiet (d.createDestinationPath k parent >>= fun _ =>
      (hostDestFullPath d m).touch k >>= fun _ =>
        (pure (.ready source none ret) : Run σ Prepared)) :=
    quiet_bind (quiet_createDestinationPath k d _) fun _ =>
      quiet_bind (quiet_touch k _) fun _ => quiet_pure _
  have hdirectory : Quiet (d.createDestinationPath k (Path.new m.destination) >>= fun _ =>
      (pure (.ready source none ret) : Run σ Prepared)) :=
    quiet_bind (quiet_createDestinationPath k d _) fun _ => quiet_pure _
  cases st with
  | none => exact hdirectory
  | some type =>
    cases type with
    | symlink => exact quiet_bind (quiet_createDestinationPath k d _) fun _ =>
        quiet_prepareSymlink k d m _ _
    | character => exact hfile
    | socket => exact hfile
    | regular => exact hfile
    | block => exact hdirectory
    | fifo => exact hdirectory
    | directory => exact hdirectory

theorem quiet_prepare : Quiet (prepare k d m) := by
  refine quiet_bind (quiet_ite (quiet_syscall _) (quiet_syscall _)) fun st => ?_
  refine quiet_ite (quiet_pure _) ?_
  cases (Path.new m.destination).parentPath with
  | none => exact quiet_throw _
  | some parent => exact quiet_createDestination k d m st parent _ _

theorem quiet_remount (target : String) (flags : UInt32) (data : String) :
    Quiet (remount k target flags data) := by
  refine quiet_bind (quiet_syscall _) fun ret => quiet_ite (quiet_pure _) ?_
  refine quiet_bind (quiet_syscall _) fun sfs => ?_
  cases sfs with
  | none => exact quiet_pure _
  | some fFlags =>
    refine quiet_ite (quiet_pure _) (quiet_bind (quiet_syscall _) fun ret => ?_)
    refine quiet_ite (quiet_pure _) (quiet_ite ?_ (quiet_pure _))
    exact quiet_bind (quiet_syscall _) fun _ => quiet_pure _

theorem quiet_closeSource (sourceFd : Option Nat) (ret : Int) :
    Quiet (closeSource k sourceFd ret) := by
  cases sourceFd with
  | none => exact quiet_pure _
  | some fd => exact quiet_bind (quiet_syscall _) fun _ => quiet_pure _

theorem quiet_remountBind (ret : Int) : Quiet (remountBind k d m ret) := by
  refine quiet_ite (quiet_pure _) (quiet_ite (quiet_pure _) (quiet_ite (quiet_remount k _ _ _) ?_))
  refine quiet_bind (quiet_syscall _) fun newFd => ?_
  cases newFd with
  | none => exact quiet_pure _
  | some fd => exact quiet_bind (fun _ => rfl) fun _ => quiet_pure _

/-- The remounts at the end do not use `do_mount_with_fd`. -/
theorem quiet_finalizeMounts (nodes : List RemountNode) : Quiet (finalizeMounts k nodes) := by
  induction nodes with
  | nil => exact quiet_pure _
  | cons node nodes ih =>
    exact quiet_bind (quiet_remount k _ _ _) fun _ => quiet_bind (quiet_syscall _) fun _ => ih

end Quiet

section Accesses

variable (k : Kernel σ) (d : FilesystemDriver) (m : Mount)

/-- The state in which the destination is opened once more, if what the first
    mount returns calls for it. -/
def reopenedIn (first : Run σ Int) (again : Int → Bool) (p : Process σ) : List σ :=
  match first p with
  | .ok ret p' => if again ret then [p'.kernel] else []
  | .error _ _ => []

/-- The states in which the destination is opened to mount `source` there. -/
def opensFor (source : String) (p : Process σ) : List σ :=
  match m.fsType with
  | .bind => p.kernel :: reopenedIn (bindMount k d m source)
      (fun ret => ret = 0 ∧ m.propagationFlags &&& allPropagations ≠ 0) p
  | .sysfs | .mqueue => p.kernel :: reopenedIn (typedMount k d m source) (fun ret => ret < 0) p
  | .proc | .devpts | .tmpfs | .cgroup => [p.kernel]
  | .unknown | .cgroup2 => []

/-- The states in which `MountNode` opens its destination to mount there. -/
def opens (p : Process σ) : List σ :=
  match prepare k d m p with
  | .ok (.ready source _ _) p₁ => opensFor k d m source p₁
  | _ => []

/-- The accesses in these states, if none is refused. -/
def granted (states : List σ) : List Access :=
  (states.filterMap (k.realOf (hostDestFullPath d m).string)).map fun real => ⟨real, true⟩

theorem mountAt_cases (source fstype : Option String) (flags : UInt32) (data : Option String)
    (p : Process σ) :
    (granted k d m [p.kernel] = [] ∧ ∃ e p',
      mountAt k d m source fstype flags data p = .error e p' ∧ p'.log = p.log) ∨
    ∃ ret p', mountAt k d m source fstype flags data p = .ok ret p' ∧
      p'.log = p.log ++ granted k d m [p.kernel] := by
  rw [mountAt, FilesystemDriver.root_cStr]
  rcases doMountWithFd_cases k "" source (hostDestFullPath d m).string fstype flags data p with
    ⟨hreal, hrun⟩ | ⟨real, hreal, ⟨hpre, -⟩ | ⟨-, ret, p', hrun, hlog⟩⟩
  · refine .inl ⟨?_, hrun⟩
    rw [granted, List.filterMap_cons_none hreal]
    rfl
  · -- every real path begins with the empty string
    exact absurd List.nil_prefix hpre
  · refine .inr ⟨ret, p', hrun, ?_⟩
    rw [hlog, granted, List.filterMap_cons_some hreal]
    rfl

theorem granted_cons (s : σ) (states : List σ) :
    granted k d m (s :: states) = granted k d m [s] ++ granted k d m states := by
  rw [granted, ← List.singleton_append, List.filterMap_append, List.map_append]
  rfl

/-- A mount, and another one if it calls for it. -/
theorem logs_mountAt_bind {source fstype : Option String} {flags : UInt32} {data : Option String}
    {again : Int → Bool} {f : Int → Run σ α}
    (hagain : ∀ ret p', again ret = true → Logs (f ret) p' (granted k d m [p'.kernel]))
    (hquiet : ∀ ret, again ret = false → Quiet (f ret)) (p : Process σ) :
    Logs (mountAt k d m source fstype flags data >>= f) p (granted k d m
      (p.kernel :: reopenedIn (mountAt k d m source fstype flags data) again p)) := by
  rw [granted_cons]
  rcases mountAt_cases k d m source fstype flags data p with
    ⟨hnone, e, p', hrun, hlog⟩ | ⟨ret, p', hrun, hlog⟩
  · have hstates : reopenedIn (mountAt k d m source fstype flags data) again p = [] := by
      rw [reopenedIn, hrun]
    rw [hstates, hnone]
    exact logs_bind_error hrun (hlog.trans (List.append_nil _).symm)
  · have hstates : reopenedIn (mountAt k d m source fstype flags data) again p =
        if again ret then [p'.kernel] else [] := by
      rw [reopenedIn, hrun]
    rw [hstates]
    refine logs_bind hrun hlog ?_
    by_cases hret : again ret = true
    · rw [if_pos hret]
      exact hagain ret p' hret
    · rw [if_neg hret]
      exact (hquiet ret (Bool.eq_false_iff.2 hret)).logs p'

/-- A mount that is followed by nothing of the kind. -/
theorem logs_mountAt (source fstype : Option String) (flags : UInt32) (data : Option String)
    (p : Process σ) : Logs (mountAt k d m source fstype flags data) p (granted k d m [p.kernel]) := by
  rcases mountAt_cases k d m source fstype flags data p with
    ⟨hnone, e, p', hrun, hlog⟩ | ⟨ret, p', hrun, hlog⟩
  · show (after _ p).log = _
    rw [after_of_error hrun, hnone, hlog, List.append_nil]
  · show (after _ p).log = _
    rw [after_of_ok hrun, hlog]

theorem logs_mountBind (source : String) (p : Process σ) :
    Logs (mountBind k d m source) p (granted k d m (p.kernel ::
      reopenedIn (bindMount k d m source)
        (fun ret => ret = 0 ∧ m.propagationFlags &&& allPropagations ≠ 0) p)) := by
  refine logs_mountAt_bind k d m (fun ret p' hret => ?_) (fun ret hret => ?_) p
  · have hret := of_decide_eq_true hret
    rw [if_neg (not_not.2 hret.1), if_pos hret.2]
    -- only the flag has changed since the first mount
    have hflag : (modify fun p : Process σ =>
        { p with sysfsIsBinded := p.sysfsIsBinded || source == "/sys" } : Run σ PUnit) p' =
        .ok ⟨⟩ { p' with sysfsIsBinded := p'.sysfsIsBinded || source == "/sys" } := rfl
    refine logs_bind (l := []) hflag (List.append_nil _).symm ?_
    exact (logs_mountAt k d m _ _ _ _ _).bind_quiet fun _ =>
      quiet_ite (quiet_pure _) (quiet_remountBind k d m _)
  · have hret := of_decide_eq_false hret
    by_cases hzero : ret = 0
    · have hnone : ¬ m.propagationFlags &&& allPropagations ≠ 0 := fun h => hret ⟨hzero, h⟩
      rw [if_neg (not_not.2 hzero), if_neg hnone]
      exact quiet_bind (fun _ => rfl) fun _ => quiet_remountBind k d m _
    · rw [if_pos hzero]
      exact quiet_pure _

theorem logs_mountTyped (source : String) (p : Process σ) :
    Logs (mountTyped k d m source) p (granted k d m (p.kernel ::
      if m.fsType = .sysfs ∨ m.fsType = .mqueue then
        reopenedIn (typedMount k d m source) (fun ret => ret < 0) p
      else [])) := by
  by_cases hsysfs : m.fsType = .sysfs
  · rw [if_pos (.inl hsysfs)]
    refine logs_mountAt_bind k d m (fun ret p' hret => ?_) (fun ret hret => ?_) p
    · rw [if_pos (of_decide_eq_true hret), if_pos hsysfs]
      exact (logs_mountAt k d m _ _ _ _ _).bind_quiet fun _ =>
        quiet_bind (fun _ => rfl) fun _ => quiet_pure _
    · rw [if_neg (of_decide_eq_false hret)]
      exact quiet_pure _
  · by_cases hmqueue : m.fsType = .mqueue
    · rw [if_pos (.inr hmqueue)]
      refine logs_mountAt_bind k d m (fun ret p' hret => ?_) (fun ret hret => ?_) p
      · rw [if_pos (of_decide_eq_true hret), if_neg hsysfs, if_pos hmqueue]
        exact logs_mountAt k d m _ _ _ _ _
      · rw [if_neg (of_decide_eq_false hret)]
        exact quiet_pure _
    · rw [if_neg (not_or.2 ⟨hsysfs, hmqueue⟩)]
      refine (logs_mountAt k d m _ _ _ _ _).bind_quiet fun ret => ?_
      rw [if_neg hsysfs, if_neg hmqueue, ite_self]
      exact quiet_pure _

theorem logs_mountCgroup (source : String) (p : Process σ) :
    Logs (mountCgroup k d m source) p (granted k d m [p.kernel]) :=
  (logs_mountAt k d m _ _ _ _ _).bind_quiet fun _ =>
    quiet_bind within_get fun _ => quiet_pure _

theorem logs_mountByType (source : String) (ret : Int) (p : Process σ) :
    Logs (mountByType k d m source ret) p (granted k d m (opensFor k d m source p)) := by
  have htyped := logs_mountTyped k d m source p
  rw [mountByType, opensFor]
  cases htype : m.fsType with
  | unknown => exact (quiet_pure ret).logs p
  | bind => exact logs_mountBind k d m source p
  | proc => simpa [htype] using htyped
  | sysfs => simpa [htype] using htyped
  | devpts => simpa [htype] using htyped
  | mqueue => simpa [htype] using htyped
  | tmpfs => simpa [htype] using htyped
  | cgroup => exact logs_mountCgroup k d m source p
  | cgroup2 => exact (quiet_pure ret).logs p

/-- The accesses of `MountNode`: one in each state in which it opens the
    destination, and all are granted. -/
theorem accesses_mountNode (p : Process σ) :
    accesses (mountNode k d m) p = granted k d m (opens k d m p) := by
  refine Logs.accesses ?_
  rw [mountNode, opens]
  cases hrun : prepare k d m p with
  | error e p₁ =>
    have hlog := (quiet_prepare k d m).of_error hrun
    exact logs_bind_error hrun (hlog.trans (List.append_nil _).symm)
  | ok prepared p₁ =>
    have hlog := (quiet_prepare k d m).of_ok hrun
    cases prepared with
    | done ret =>
      exact logs_bind hrun (hlog.trans (List.append_nil _).symm) ((quiet_pure ret).logs p₁)
    | ready source sourceFd ret =>
      refine logs_bind (l := []) hrun (hlog.trans (List.append_nil _).symm) ?_
      refine Logs.bind_quiet ?_ (quiet_closeSource k sourceFd)
      exact logs_mountByType k d m source ret p₁

/-! ## Section 4: Confinement -/

/-- `MountNode` mounts only inside the root; with a target outside it does
    not mount, and exits. -/
structure Confined (p : Process σ) : Prop where
  mounted : ∀ a ∈ accesses (mountNode k d m) p, a.mounted = true → d.root.Contains a.real
  refused : ∀ a ∈ accesses (mountNode k d m) p, ¬ d.root.Contains a.real →
    a.mounted = false ∧ ∃ p', mountNode k d m p = .error .malicious p'

theorem mem_granted {a : Access} {states : List σ} :
    a ∈ granted k d m states ↔
      a.mounted = true ∧ ∃ s ∈ states, k.realOf (hostDestFullPath d m).string s = some a.real := by
  constructor
  · intro ha
    obtain ⟨real, hreal, rfl⟩ := List.mem_map.1 ha
    exact ⟨rfl, List.mem_filterMap.1 hreal⟩
  · intro ⟨hmounted, hstates⟩
    obtain ⟨real, mounted⟩ := a
    subst hmounted
    exact List.mem_map.2 ⟨real, List.mem_filterMap.2 hstates, rfl⟩

/-- **Confinement** holds iff the destination leads to a place inside the
    root whenever it is opened. -/
theorem confined_iff (p : Process σ) : Confined k d m p ↔
    ∀ s ∈ opens k d m p, ∀ real, k.realOf (hostDestFullPath d m).string s = some real →
      d.root.Contains real := by
  constructor
  · intro h s hs real hreal
    have ha : ⟨real, true⟩ ∈ accesses (mountNode k d m) p := by
      rw [accesses_mountNode]
      exact (mem_granted k d m).2 ⟨rfl, s, hs, hreal⟩
    exact h.mounted _ ha rfl
  · intro h
    have hall : ∀ a ∈ accesses (mountNode k d m) p, d.root.Contains a.real := by
      intro a ha
      rw [accesses_mountNode] at ha
      obtain ⟨-, s, hs, hreal⟩ := (mem_granted k d m).1 ha
      exact h s hs a.real hreal
    exact ⟨fun a ha _ => hall a ha, fun a ha hout => absurd (hall a ha) hout⟩

end Accesses

/-- A kernel that knows one link, from `/root/box/log` to `/etc`. -/
def linkKernel : Kernel Unit where
  lstat path _ :=
    (if path = "/root/box/log" then some .symlink
      else if path = "/root" ∨ path = "/root/box" ∨ path = "/etc" then some .directory
      else none, ())
  stat path _ :=
    (if path = "/srv/data" ∨ path = "/root/box/log" then some .directory else none, ())
  mkdir _ _ := (false, ())
  create _ _ := (false, ())
  symlink _ _ _ := (-1, ())
  realpath path _ := (if path = "/root/box/log" then some "/etc" else none, ())
  readlink path _ := (if path = procFd 5 ∨ path = "/root/box/log" then some "/etc" else none, ())
  openPath _ path _ := (if path = "/root/box/log" then some 5 else none, ())
  close _ _ := ()
  mount _ _ := (0, ())
  statfs _ _ := (none, ())

/-- The bind mount of a directory on `/log`. -/
def logMount : Mount where
  destination := "/log"
  type := "bind"
  source := "/srv/data"
  data := []
  fsType := .bind
  flags := MS_BIND ||| MS_REC
  propagationFlags := 0
  extensionFlags := 0

/-- It ends on `/etc`. -/
theorem not_confined : ¬ ∀ (k : Kernel Unit) (d : FilesystemDriver) (m : Mount) (p : Process Unit),
    Confined k d m p := by
  intro h
  have haccess : accesses (mountNode linkKernel (.native "/root/box") logMount)
      ⟨(), [], false, []⟩ = [⟨"/etc", true⟩] := by decide +kernel
  have hin := (h linkKernel (.native "/root/box") logMount ⟨(), [], false, []⟩).mounted ⟨"/etc", true⟩
    (by rw [haccess]; exact List.mem_singleton_self _) rfl
  have hout : ¬ (FilesystemDriver.native "/root/box").root.Contains "/etc" := by decide +kernel
  exact hout hin

end Box

end Linglong
