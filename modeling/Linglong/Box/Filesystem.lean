import Linglong.Framework.Effect

/-! # The File Functions of ll-box

    `util::fs` of ll-box: its own `path` class and the functions that ask the
    kernel. `do_mount_with_fd` opens the target of a mount and compares the
    real path of what it has opened with the root of the container, before it
    mounts there.

    The kernel is a parameter. Every call may change its state, so another
    process may do something between two calls. A process that logs a fatal
    message exits.

    1. Paths.
    2. The kernel and a process.
    3. The functions of `util::fs`.
    4. What `do_mount_with_fd` does (`doMountWithFd_cases`).
-/

namespace Linglong

namespace Box

open Framework

/-! ## Section 1: Paths -/

/-- `util::str_spilt`, for a separator of one character. -/
def strSpilt (s : String) (sep : Char) : List String :=
  ((s.toList.splitOn sep).filter fun t => t ≠ []).map String.ofList

/-- `util::str_vec_join`. -/
def strVecJoin (vec : List String) (sep : Char) : String :=
  (String.singleton sep).intercalate vec

/-- `util::fs::path`. The class derives from `std::basic_string<char>`
    (`base`), but keeps its components in `p`. -/
structure Path where
  base : String
  p : List String
  deriving DecidableEq

namespace Path

/-- The constructor: the string it derives from is left empty. -/
def new (s : String) : Path := ⟨"", strSpilt s '/'⟩

/-- `operator/`: it copies the first path and appends the components of the
    second one. -/
def append (a b : Path) : Path := { a with p := a.p ++ b.p }

/-- `parent_path`. `pop_back` on no components is undefined. -/
def parentPath (a : Path) : Option Path :=
  if a.p = [] then none else some { a with p := a.p.dropLast }

/-- `string()`. -/
def string (a : Path) : String := "/" ++ strVecJoin a.p '/'

/-- `c_str()`, as inherited. -/
def cStr (a : Path) : String := a.base

@[simp] theorem new_base (s : String) : (new s).base = "" := rfl

@[simp] theorem append_base (a b : Path) : (a.append b).base = a.base := rfl

/-- The real path is that of the directory itself or of something below it. -/
def Contains (root : Path) (real : String) : Prop :=
  real.toList.head? = some '/' ∧ root.p <+: strSpilt real '/'

instance (root : Path) (real : String) : Decidable (root.Contains real) :=
  inferInstanceAs (Decidable (_ ∧ _))

/-- Not every path whose string begins with that of the root is below it. -/
example : "/root".toList <+: "/root-evil".toList ∧ ¬ (new "/root").Contains "/root-evil" := by
  decide +kernel

end Path

/-! ## Section 2: The kernel and a process -/

/-- `st_mode & S_IFMT`. -/
inductive FileType where
  | character
  | block
  | socket
  | fifo
  | symlink
  | regular
  | directory
  deriving DecidableEq

/-- The arguments of `mount(2)`. -/
structure MountArgs where
  source : Option String
  target : String
  fstype : Option String
  flags : UInt32
  data : Option String
  deriving DecidableEq

/-- The calls to the kernel, on a state of it. -/
structure Kernel (σ : Type) where
  lstat : String → σ → Option FileType × σ
  stat : String → σ → Option FileType × σ
  mkdir : String → σ → Bool × σ
  /-- `std::ofstream(path)`, and whether it is open. -/
  create : String → σ → Bool × σ
  /-- `symlink(target, path)`. -/
  symlink : String → String → σ → Int × σ
  realpath : String → σ → Option String × σ
  readlink : String → σ → Option String × σ
  /-- `open(path, O_PATH | O_CLOEXEC)`, with `O_NOFOLLOW` for `true`. -/
  openPath : Bool → String → σ → Option Nat × σ
  close : Nat → σ → σ
  mount : MountArgs → σ → Int × σ
  /-- `f_flags` of `statfs`. -/
  statfs : String → σ → Option UInt32 × σ

/-- The link in `/proc` to what a descriptor has opened. -/
def procFd (fd : Nat) : String := "/proc/self/fd/" ++ toString fd

/-- The real path of what opening `path` opens. -/
def Kernel.realOf {σ : Type} (k : Kernel σ) (path : String) (s : σ) : Option String :=
  match k.openPath false path s with
  | (none, _) => none
  | (some fd, s') => (k.readlink (procFd fd) s').1

/-- A target that `do_mount_with_fd` has opened, and whether it went on to
    `mount(2)`. -/
structure Access where
  real : String
  mounted : Bool
  deriving DecidableEq

/-- `remountNode`. -/
structure RemountNode where
  flags : UInt32
  extensionFlags : UInt32
  targetFd : Nat
  targetPath : String
  data : String
  deriving DecidableEq

/-- A process of ll-box; `log` is not in the source and collects the
    accesses of `do_mount_with_fd`. -/
structure Process (σ : Type) where
  kernel : σ
  remountList : List RemountNode
  sysfsIsBinded : Bool
  log : List Access

/-- Why a process ends. -/
inductive Exit where
  /-- "fail to open target" -/
  | openTarget
  /-- "fail to readlink from proc fd" -/
  | readlink
  /-- "possibly malicious path detected -- refusing to operate" -/
  | malicious
  /-- "fail to open source" -/
  | openSource
  /-- undefined behaviour -/
  | undefined
  deriving DecidableEq

variable {σ α β : Type}

/-- What a function of ll-box does. -/
abbrev Run (σ α : Type) := EStateM Exit (Process σ) α

/-- A call to the kernel. -/
def syscall (f : σ → α × σ) : Run σ α := fun p =>
  .ok (f p.kernel).1 { p with kernel := (f p.kernel).2 }

/-! ## Section 3: util::fs -/

section Functions

variable (k : Kernel σ)

/-- `is_dir`: a link to a directory is none. -/
def isDir (s : String) : Run σ Bool := do
  let st ← syscall (k.lstat s)
  pure (st = some .directory)

/-- `exists`. -/
def pathExists (s : String) : Run σ Bool := do
  let st ← syscall (k.lstat s)
  pure st.isSome

/-- The loop of `create_directories`, from `fullPath` on. -/
def createDirectoriesFrom (fullPath : String) : List String → Run σ Bool
  | [] => pure true
  | e :: es => do
      let fullPath := fullPath ++ ("/" ++ e)
      let dir ← isDir k fullPath
      if dir then createDirectoriesFrom fullPath es
      else
        let made ← syscall (k.mkdir fullPath)
        if made then createDirectoriesFrom fullPath es else pure false

/-- `create_directories`; every caller has the mode 0755. -/
def createDirectories (p : Path) : Run σ Bool := createDirectoriesFrom k "" p.p

/-- `path::touch`. -/
def Path.touch (p : Path) : Run σ Bool := do
  let there ← pathExists k p.string
  if there then pure true else syscall (k.create p.string)

/-- `path::touch_symlink`. -/
def Path.touchSymlink (p : Path) (target : String) : Run σ Int :=
  syscall (k.symlink target p.string)

/-- `read_symlink`. -/
def readSymlink (p : Path) : Run σ Path := do
  let buf ← syscall (k.realpath p.string)
  match buf with
  | some real => pure (Path.new real)
  | none => pure p

/-- `do_mount_with_fd`. -/
def doMountWithFd (root : String) (specialFile : Option String) (dir : String)
    (fstype : Option String) (rwflag : UInt32) (data : Option String) : Run σ Int := do
  let opened ← syscall (k.openPath false dir)
  match opened with
  | none => throw .openTarget
  | some fd =>
      let target := procFd fd
      let link ← syscall (k.readlink target)
      match link with
      | none => throw .readlink
      | some realpath =>
          -- `realpath.rfind(root, 0) != 0`
          if ¬ root.toList <+: realpath.toList then
            modify fun p => { p with log := p.log ++ [⟨realpath, false⟩] }
            throw .malicious
          else
            modify fun p => { p with log := p.log ++ [⟨realpath, true⟩] }
            let ret ← syscall (k.mount ⟨specialFile, target, fstype, rwflag, data⟩)
            syscall fun s => ((), k.close fd s)
            pure ret

end Functions

/-! ## Section 4: Accesses -/

/-- The accesses of a run. -/
def accesses (c : Run σ α) (p : Process σ) : List Access := (after c p).log.drop p.log.length

/-- A run that adds these accesses to the log. -/
def Logs (c : Run σ α) (p : Process σ) (l : List Access) : Prop := (after c p).log = p.log ++ l

theorem Logs.accesses {c : Run σ α} {p : Process σ} {l : List Access} (h : Logs c p l) :
    accesses c p = l := by
  rw [Box.accesses, h, List.drop_left]

theorem logs_bind {c : Run σ α} {f : α → Run σ β} {p p' : Process σ} {a : α} {l l' : List Access}
    (hrun : c p = .ok a p') (hc : p'.log = p.log ++ l) (hf : Logs (f a) p' l') :
    Logs (c >>= f) p (l ++ l') := by
  show (after (c >>= f) p).log = _
  rw [after_bind_of_ok hrun, hf, hc, List.append_assoc]

theorem logs_bind_error {c : Run σ α} {f : α → Run σ β} {p p' : Process σ} {e : Exit}
    {l : List Access} (hrun : c p = .error e p') (hc : p'.log = p.log ++ l) :
    Logs (c >>= f) p l := by
  show (after (c >>= f) p).log = _
  rw [after_of_error (bind_of_error hrun), hc]

/-- Nothing is opened by `do_mount_with_fd`. -/
def Quiet (c : Run σ α) : Prop := Within (fun p p' : Process σ => p'.log = p.log) c

section Quiet

instance : Std.Refl fun p p' : Process σ => p'.log = p.log := ⟨fun _ => rfl⟩

instance : IsTrans (Process σ) fun p p' => p'.log = p.log :=
  ⟨fun _ _ _ h₁ h₂ => h₂.trans h₁⟩

theorem quiet_pure (a : α) : Quiet (pure a : Run σ α) := within_pure a

theorem quiet_throw (e : Exit) : Quiet (throw e : Run σ α) := fun _ => rfl

theorem quiet_syscall (f : σ → α × σ) : Quiet (syscall f) := fun _ => rfl

theorem quiet_bind {c : Run σ α} {f : α → Run σ β} (hc : Quiet c) (hf : ∀ a, Quiet (f a)) :
    Quiet (c >>= f) := within_bind hc hf

theorem quiet_ite {q : Prop} [Decidable q] {c c' : Run σ α} (hc : Quiet c) (hc' : Quiet c') :
    Quiet (if q then c else c') := within_ite (fun _ => hc) fun _ => hc'

theorem Quiet.logs {c : Run σ α} (h : Quiet c) (p : Process σ) : Logs c p [] := by
  show (after c p).log = _
  rw [List.append_nil]
  exact h p

/-- What is done after the accesses does not count. -/
theorem Logs.bind_quiet {c : Run σ α} {f : α → Run σ β} {p : Process σ} {l : List Access}
    (hc : Logs c p l) (hf : ∀ a, Quiet (f a)) : Logs (c >>= f) p l := by
  cases hrun : c p with
  | error e p' =>
    have hlog : p'.log = p.log ++ l := by
      rw [← after_of_error hrun]
      exact hc
    exact logs_bind_error hrun hlog
  | ok a p' =>
    have hlog : p'.log = p.log ++ l := by
      rw [← after_of_ok hrun]
      exact hc
    have hboth := logs_bind hrun hlog ((hf a).logs p')
    rwa [List.append_nil] at hboth

variable (k : Kernel σ)

theorem quiet_isDir (s : String) : Quiet (isDir k s) :=
  quiet_bind (quiet_syscall _) fun _ => quiet_pure _

theorem quiet_createDirectoriesFrom (fullPath : String) (es : List String) :
    Quiet (createDirectoriesFrom k fullPath es) := by
  induction es generalizing fullPath with
  | nil => exact quiet_pure _
  | cons e es ih =>
    exact quiet_bind (quiet_isDir k _) fun _ => quiet_ite (ih _)
      (quiet_bind (quiet_syscall _) fun _ => quiet_ite (ih _) (quiet_pure _))

theorem quiet_touch (a : Path) : Quiet (a.touch k) :=
  quiet_bind (quiet_bind (quiet_syscall _) fun _ => quiet_pure _) fun _ =>
    quiet_ite (quiet_pure _) (quiet_syscall _)

theorem quiet_readSymlink (a : Path) : Quiet (readSymlink k a) := by
  refine quiet_bind (quiet_syscall _) fun buf => ?_
  cases buf with
  | none => exact quiet_pure _
  | some real => exact quiet_pure _

end Quiet

/-- What `do_mount_with_fd` does, by the real path of its target. -/
theorem doMountWithFd_cases (k : Kernel σ) (root : String) (specialFile : Option String)
    (dir : String) (fstype : Option String) (rwflag : UInt32) (data : Option String)
    (p : Process σ) :
    (k.realOf dir p.kernel = none ∧ ∃ e p',
      doMountWithFd k root specialFile dir fstype rwflag data p = .error e p' ∧ p'.log = p.log) ∨
    ∃ real, k.realOf dir p.kernel = some real ∧
      ((¬ root.toList <+: real.toList ∧ ∃ p',
        doMountWithFd k root specialFile dir fstype rwflag data p = .error .malicious p' ∧
        p'.log = p.log ++ [⟨real, false⟩]) ∨
      (root.toList <+: real.toList ∧ ∃ ret p',
        doMountWithFd k root specialFile dir fstype rwflag data p = .ok ret p' ∧
        p'.log = p.log ++ [⟨real, true⟩])) := by
  cases hopen : k.openPath false dir p.kernel with
  | mk opened s =>
    -- the first call opens the target
    have hfirst : syscall (k.openPath false dir) p = .ok opened { p with kernel := s } := by
      show EStateM.Result.ok _ _ = _
      rw [hopen]
    rw [doMountWithFd, bind_of_ok hfirst]
    cases opened with
    | none =>
      have hreal : k.realOf dir p.kernel = none := by rw [Kernel.realOf, hopen]
      exact .inl ⟨hreal, _, _, rfl, rfl⟩
    | some fd =>
      have hreal : k.realOf dir p.kernel = (k.readlink (procFd fd) s).1 := by
        rw [Kernel.realOf, hopen]
      rw [hreal]
      cases hlink : k.readlink (procFd fd) s with
      | mk link s' =>
        -- the second one reads where it really is
        have hsecond : syscall (k.readlink (procFd fd)) { p with kernel := s } =
            .ok link { p with kernel := s' } := by
          show EStateM.Result.ok _ _ = _
          rw [hlink]
        dsimp only
        rw [bind_of_ok hsecond]
        cases link with
        | none => exact .inl ⟨rfl, _, _, rfl, rfl⟩
        | some real =>
          refine .inr ⟨real, rfl, ?_⟩
          dsimp only
          -- both branches of the test log the access
          by_cases hpre : root.toList <+: real.toList
          · rw [if_neg (not_not.2 hpre)]
            exact .inr ⟨hpre, _, _, rfl, rfl⟩
          · rw [if_pos hpre]
            exact .inl ⟨hpre, _, rfl, rfl⟩

end Box

end Linglong
