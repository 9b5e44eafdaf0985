import Mathlib.Data.List.Nodup
import Linglong.Framework.Machine
import Linglong.Package.Reference

/-! # Running and Removing

    `ll-cli run` and the package manager are different processes that share
    the repository, the lock file `/run/linglong/lock` and the directory of
    pid files.

    A run process tests the lock once (`lockCheck`, it never takes it), loads
    the layer cache, creates an empty pid file, resolves the app in the cache
    it loaded, writes the resolved ref into the pid file (`dumpContainerInfo`)
    and starts the container. It unlinks the pid file when it exits.

    The package manager takes the lock and reads the pid files of all live
    processes. An empty pid file cannot be parsed, so it makes the reader
    give up. There are two kinds of readers:

    * `isRefBusy` releases the lock and only returns an answer. `Uninstall`
      and `removeAfterInstall` remove the layers of a ref found free at some
      later time; `removeAfterInstall` marks the layers of a busy one.
    * `deferredUninstall` keeps the lock while it removes the layers marked
      deleted whose ref no pid file names.

    The events below are the steps of these processes, so that every
    interleaving is a run of the machine.
-/

namespace Linglong

open Framework

/-! ## Section 1: State and events -/

/-- One entry of the layer cache: its ref, its module and its mark. -/
structure LayerMark where
  ref : Reference
  module : String
  deleted : Bool
  deriving DecidableEq

/-- How far a run process has come, with what it has read so far. -/
inductive RunPhase where
  | lockChecked
  | loaded (cache : List LayerMark)
  | pidFileCreated (cache : List LayerMark)
  | resolved (app : Reference)
  | dumped (app : Reference)
  | started (app : Reference)
  deriving DecidableEq

/-- The ref a process has resolved and not yet let go. -/
def RunPhase.app : RunPhase → Option Reference
  | .resolved app | .dumped app | .started app => some app
  | _ => none

/-- The pid file exists. -/
def RunPhase.hasPidFile : RunPhase → Bool
  | .lockChecked | .loaded _ => false
  | _ => true

/-- What `LoadJSONFile` finds in the pid file; `none` if it is empty. -/
def RunPhase.content : RunPhase → Option Reference
  | .dumped app | .started app => some app
  | _ => none

/-- A live `ll-cli run` process. -/
structure RunProcess where
  pid : Nat
  phase : RunPhase
  deriving DecidableEq

/-- The callers of `isRefBusy`. -/
inductive BusyCaller where
  | uninstall | removeAfterInstall
  deriving DecidableEq

/-- What the package manager does while it holds the lock. `todo` are the
    pid files that `getAllRunningContainers` has still to read. -/
inductive LockHolder where
  /-- `isRefBusy`, before the directory is opened. -/
  | checking (caller : BusyCaller) (ref : Reference)
  | scanning (caller : BusyCaller) (ref : Reference) (todo : List Nat) (busy : Bool)
  /-- `deferredUninstall`, before the directory is opened. -/
  | deferring
  | sweepScanning (uninstalled : List LayerMark) (todo : List Nat)
  /-- `deferredUninstall` removing the layers of what is not running. -/
  | sweeping (uninstalled : List LayerMark)
  deriving DecidableEq

/-- The refs a lock holder watches: those it may go on to remove, with the
    pid files still to be read. A check that has already found the ref busy
    removes nothing. -/
def LockHolder.watched : LockHolder → List (Reference × List Nat)
  | .scanning _ ref todo false => [(ref, todo)]
  | .sweepScanning uninstalled todo => uninstalled.map fun l => (l.ref, todo)
  | .sweeping uninstalled => uninstalled.map fun l => (l.ref, [])
  | _ => []

/-- The shared state. `removing` are the refs that `isRefBusy` found free and
    whose removal has not ended, `marking` those it found busy. -/
structure RunRemove where
  layers : List LayerMark
  processes : List RunProcess
  lockHolder : Option LockHolder
  removing : List Reference
  marking : List Reference
  deriving DecidableEq

/-- The steps of all processes. -/
inductive RunRemoveEvent where
  /-- A new process finds the lock free. -/
  | lockCheck (pid : Nat)
  | loadCache (pid : Nat)
  | createPidFile (pid : Nat)
  | resolve (pid : Nat) (app : Reference)
  | dumpContainerInfo (pid : Nat)
  | startContainer (pid : Nat)
  /-- The process ends, at whatever point. -/
  | exit (pid : Nat)
  | isRefBusy (caller : BusyCaller) (ref : Reference)
  | deferredUninstall
  | openDirectory
  /-- The iterator also sees a file created after the directory was opened. -/
  | noticeFile (pid : Nat)
  | readFile
  | endScan
  /-- A file system error ends the scan. -/
  | abortScan
  | removeLayer (ref : Reference) (module : String)
  | endRemoval (ref : Reference)
  | endSweep
  | markDeleted (ref : Reference) (module : String) (deleted : Bool)
  | endMarking (ref : Reference)
  /-- An installation adds a layer. -/
  | addLayer (ref : Reference) (module : String)
  deriving DecidableEq

namespace RunRemove

/-- A repository with some layers and nobody working on it. -/
def init (layers : List LayerMark) : RunRemove where
  layers := layers
  processes := []
  lockHolder := none
  removing := []
  marking := []

/-- The process with the given pid. -/
def process? (s : RunRemove) (pid : Nat) : Option RunProcess :=
  s.processes.find? fun p => p.pid == pid

/-- Move a process to its next phase. -/
def setPhase (s : RunRemove) (pid : Nat) (phase : RunPhase) : RunRemove :=
  { s with processes := s.processes.map fun p => if p.pid = pid then ⟨pid, phase⟩ else p }

/-- The pids of the files in the directory. -/
def pidFiles (s : RunRemove) : List Nat :=
  (s.processes.filter fun p => p.phase.hasPidFile).map RunProcess.pid

/-- Some remover is at the point where it takes this layer away. -/
def mayRemove (s : RunRemove) (ref : Reference) (module : String) : Bool :=
  s.removing.contains ref ||
    match s.lockHolder with
    | some (.sweeping uninstalled) => uninstalled.any fun l => l.ref = ref ∧ l.module = module
    | _ => false

/-! ## Section 2: The machine -/

/-- One pid file is read. A process that is gone is skipped, an empty file
    makes the whole scan fail, and refs are compared by their text. -/
def readFile (s : RunRemove) : Option RunRemove :=
  match s.lockHolder with
  | some (.scanning caller ref (pid :: todo) busy) =>
      match s.process? pid with
      | none => some { s with lockHolder := some (.scanning caller ref todo busy) }
      | some p =>
          match p.phase.content with
          -- the file is still empty: `getAllRunningContainers` fails
          | none => some { s with lockHolder := none }
          | some app =>
              some { s with
                lockHolder := some (.scanning caller ref todo
                  (busy || app.toString == ref.toString)) }
  | some (.sweepScanning uninstalled (pid :: todo)) =>
      match s.process? pid with
      | none => some { s with lockHolder := some (.sweepScanning uninstalled todo) }
      | some p =>
          match p.phase.content with
          | none => some { s with lockHolder := none }
          | some app =>
              some { s with
                lockHolder := some (.sweepScanning
                  (uninstalled.filter fun l => l.ref.toString ≠ app.toString) todo) }
  | _ => none

/-- All files are read. `isRefBusy` releases the lock and answers; the
    sweep goes on with the lock held. -/
def endScan (s : RunRemove) : Option RunRemove :=
  match s.lockHolder with
  -- not busy: the lock is released before anything is removed
  | some (.scanning _ ref [] false) =>
      some { s with lockHolder := none, removing := ref :: s.removing }
  | some (.scanning .uninstall _ [] true) => some { s with lockHolder := none }
  | some (.scanning .removeAfterInstall ref [] true) =>
      some { s with lockHolder := none, marking := ref :: s.marking }
  | some (.sweepScanning uninstalled []) =>
      some { s with lockHolder := some (.sweeping uninstalled) }
  | _ => none

/-- One step. -/
def next (s : RunRemove) : RunRemoveEvent → Option RunRemove
  | .lockCheck pid =>
      if s.lockHolder = none ∧ s.process? pid = none then
        some { s with processes := ⟨pid, .lockChecked⟩ :: s.processes }
      else none
  | .loadCache pid =>
      match s.process? pid with
      | some ⟨_, .lockChecked⟩ => some (s.setPhase pid (.loaded s.layers))
      | _ => none
  | .createPidFile pid =>
      match s.process? pid with
      | some ⟨_, .loaded cache⟩ => some (s.setPhase pid (.pidFileCreated cache))
      | _ => none
  | .resolve pid app =>
      match s.process? pid with
      | some ⟨_, .pidFileCreated cache⟩ =>
          -- the cache was loaded before: it may be out of date by now
          if cache.any fun l => l.ref = app ∧ l.deleted = false then
            some (s.setPhase pid (.resolved app))
          else none
      | _ => none
  | .dumpContainerInfo pid =>
      match s.process? pid with
      | some ⟨_, .resolved app⟩ => some (s.setPhase pid (.dumped app))
      | _ => none
  | .startContainer pid =>
      match s.process? pid with
      | some ⟨_, .dumped app⟩ => some (s.setPhase pid (.started app))
      | _ => none
  | .exit pid => some { s with processes := s.processes.filter fun p => p.pid ≠ pid }
  | .isRefBusy caller ref =>
      if s.lockHolder = none then some { s with lockHolder := some (.checking caller ref) }
      else none
  | .deferredUninstall =>
      if s.lockHolder = none then some { s with lockHolder := some .deferring } else none
  | .openDirectory =>
      match s.lockHolder with
      | some (.checking caller ref) =>
          some { s with lockHolder := some (.scanning caller ref s.pidFiles false) }
      | some .deferring =>
          some { s with
              lockHolder := some (.sweepScanning (s.layers.filter LayerMark.deleted) s.pidFiles) }
      | _ => none
  | .noticeFile pid =>
      match s.lockHolder with
      | some (.scanning caller ref todo busy) =>
          if pid ∈ s.pidFiles then
            some { s with lockHolder := some (.scanning caller ref (pid :: todo) busy) }
          else none
      | some (.sweepScanning uninstalled todo) =>
          if pid ∈ s.pidFiles then
            some { s with lockHolder := some (.sweepScanning uninstalled (pid :: todo)) }
          else none
      | _ => none
  | .readFile => s.readFile
  | .endScan => s.endScan
  | .abortScan =>
      match s.lockHolder with
      -- the sweep has read all files
      | some (.sweeping _) | none => none
      | some _ => some { s with lockHolder := none }
  | .removeLayer ref module =>
      if s.mayRemove ref module then
        some { s with
          layers := s.layers.filter fun l => ¬ (l.ref = ref ∧ l.module = module) }
      else none
  | .endRemoval ref => some { s with removing := s.removing.erase ref }
  | .endSweep =>
      match s.lockHolder with
      | some (.sweeping _) => some { s with lockHolder := none }
      | _ => none
  | .markDeleted ref module deleted =>
      if ref ∈ s.marking then
        some { s with
          layers := s.layers.map fun l =>
            if l.ref = ref ∧ l.module = module then { l with deleted := deleted } else l }
      else none
  | .endMarking ref => some { s with marking := s.marking.erase ref }
  | .addLayer ref module => some { s with layers := s.layers ++ [⟨ref, module, false⟩] }

/-- Run processes and removers as a machine. -/
def machine : Machine RunRemove RunRemoveEvent where
  next := next

/-! ## Section 3: Refs under removal

    A ref is watched from the moment a remover opens the directory of pid
    files for it until the removal ends or is given up. With it goes the
    list of pid files still to be read. -/

/-- All watched refs, with the pid files still to be read for each. -/
def watched (s : RunRemove) : List (Reference × List Nat) :=
  s.removing.map (fun ref => (ref, [])) ++ (s.lockHolder.map LockHolder.watched).getD []

/-- The condition on a step: no process resolves a watched ref. -/
def resolvesUnwatched (s : RunRemove) : RunRemoveEvent → Prop
  | .resolve _ app => ∀ w ∈ s.watched, w.1 ≠ app
  | _ => True

instance (s : RunRemove) (e : RunRemoveEvent) : Decidable (s.resolvesUnwatched e) := by
  cases e <;> unfold resolvesUnwatched <;> infer_instance

/-- Some layer of `ref` is there before and not after. -/
def removesLayerOf (s s' : RunRemove) (ref : Reference) : Prop :=
  ∃ l ∈ s.layers, l.ref = ref ∧ ∀ l' ∈ s'.layers, ¬ (l'.ref = ref ∧ l'.module = l.module)

/-- The invariant: a process that has resolved a watched ref has a pid file
    that the remover has still to read. -/
structure Guarded (s : RunRemove) : Prop where
  pids_nodup : (s.processes.map RunProcess.pid).Nodup
  unread : ∀ ref todo, (ref, todo) ∈ s.watched →
    ∀ p ∈ s.processes, p.phase.app = some ref → p.pid ∈ todo

theorem guarded_init (layers : List LayerMark) : Guarded (init layers) where
  pids_nodup := List.nodup_nil
  unread := by
    intro ref todo h
    simp [init, watched] at h

/-- A process with a resolved ref has its pid file in the directory. -/
theorem mem_pidFiles {s : RunRemove} {p : RunProcess} {ref : Reference}
    (hp : p ∈ s.processes) (happ : p.phase.app = some ref) : p.pid ∈ s.pidFiles := by
  refine List.mem_map_of_mem (List.mem_filter.2 ⟨hp, ?_⟩)
  cases hphase : p.phase <;> simp_all [RunPhase.app, RunPhase.hasPidFile]

/-- Pids are unique, so the file that is read belongs to the process. -/
theorem Guarded.process?_eq {s : RunRemove} (h : Guarded s) {p : RunProcess}
    (hp : p ∈ s.processes) : s.process? p.pid = some p := by
  unfold process?
  cases hfind : s.processes.find? fun q => q.pid == p.pid with
  | none =>
    have := List.find?_eq_none.1 hfind p hp
    simp at this
  | some q =>
    have hq : q ∈ s.processes := List.mem_of_find?_eq_some hfind
    have hpid : q.pid = p.pid := by simpa using List.find?_some hfind
    rw [List.inj_on_of_nodup_map h.pids_nodup hq hp hpid]

theorem mem_of_process? {s : RunRemove} {pid : Nat} {p : RunProcess}
    (h : s.process? pid = some p) : p ∈ s.processes ∧ p.pid = pid :=
  ⟨List.mem_of_find?_eq_some h, by simpa using List.find?_some h⟩

/-! ### What one step preserves -/

/-- Steps that touch neither processes nor watched refs. -/
theorem Guarded.congr {s s' : RunRemove} (h : Guarded s) (hproc : s'.processes = s.processes)
    (hwatched : ∀ w ∈ s'.watched, w ∈ s.watched) : Guarded s' where
  pids_nodup := hproc ▸ h.pids_nodup
  unread := by
    intro ref todo hw p hp happ
    rw [hproc] at hp
    exact h.unread ref todo (hwatched _ hw) p hp happ

/-- A step of one run process: it may resolve a ref only if nobody watches
    it. -/
theorem Guarded.setPhase {s : RunRemove} (h : Guarded s) {p : RunProcess} {phase : RunPhase}
    (hp : s.process? p.pid = some p)
    (happ : ∀ ref, phase.app = some ref → p.phase.app = some ref ∨ ∀ w ∈ s.watched, w.1 ≠ ref) :
    Guarded (s.setPhase p.pid phase) where
  pids_nodup := by
    have hmap : (s.setPhase p.pid phase).processes.map RunProcess.pid =
        s.processes.map RunProcess.pid := by
      simp only [RunRemove.setPhase, List.map_map]
      refine List.map_congr_left fun q _ => ?_
      by_cases hq : q.pid = p.pid <;> simp [hq]
    rw [hmap]
    exact h.pids_nodup
  unread := by
    intro ref todo hw q hq hqapp
    have hw' : (ref, todo) ∈ s.watched := hw
    obtain ⟨q₀, hq₀, rfl⟩ := List.mem_map.1 hq
    -- the process that moved, or one of the others
    by_cases hpid : q₀.pid = p.pid
    · simp only [hpid, if_true] at hqapp ⊢
      rcases happ ref hqapp with hold | hfree
      · exact h.unread ref todo hw' p (mem_of_process? hp).1 hold
      · exact absurd rfl (hfree _ hw')
    · simp only [hpid, if_false] at hqapp ⊢
      exact h.unread ref todo hw' q₀ hq₀ hqapp

theorem guarded_lockCheck {s : RunRemove} (h : Guarded s) {pid : Nat}
    (hfresh : s.process? pid = none) :
    Guarded { s with processes := ⟨pid, .lockChecked⟩ :: s.processes } where
  pids_nodup := by
    refine List.nodup_cons.2 ⟨?_, h.pids_nodup⟩
    intro hmem
    obtain ⟨q, hq, hqpid⟩ := List.mem_map.1 hmem
    have := List.find?_eq_none.1 hfresh q hq
    simp [hqpid] at this
  unread := by
    intro ref todo hw p hp happ
    rcases List.mem_cons.1 hp with rfl | hp
    · simp [RunPhase.app] at happ
    · exact h.unread ref todo hw p hp happ

theorem guarded_exit {s : RunRemove} (h : Guarded s) (pid : Nat) :
    Guarded { s with processes := s.processes.filter fun p => p.pid ≠ pid } where
  pids_nodup := h.pids_nodup.sublist (List.filter_sublist.map _)
  unread := by
    intro ref todo hw p hp happ
    exact h.unread ref todo hw p (List.mem_of_mem_filter hp) happ

/-- The lock holder changes, nothing else: its new watched refs must be
    guarded by the files it has still to read. -/
theorem Guarded.setLockHolder {s : RunRemove} (h : Guarded s) (holder : Option LockHolder)
    (hunread : ∀ ref todo, (ref, todo) ∈ (holder.map LockHolder.watched).getD [] →
      ∀ p ∈ s.processes, p.phase.app = some ref → p.pid ∈ todo) :
    Guarded { s with lockHolder := holder } where
  pids_nodup := h.pids_nodup
  unread := by
    intro ref todo hw p hp happ
    rcases List.mem_append.1 hw with hrem | hlock
    · exact h.unread ref todo (List.mem_append_left _ hrem) p hp happ
    · exact hunread ref todo hlock p hp happ

theorem Guarded.unread_lockHolder {s : RunRemove} (h : Guarded s) {holder : LockHolder}
    (hholder : s.lockHolder = some holder) {ref : Reference} {todo : List Nat}
    (hw : (ref, todo) ∈ holder.watched) {p : RunProcess} (hp : p ∈ s.processes)
    (happ : p.phase.app = some ref) : p.pid ∈ todo := by
  refine h.unread ref todo (List.mem_append_right _ ?_) p hp happ
  simpa [hholder] using hw

/-- The file that was read belongs to a process that is gone. -/
theorem Guarded.mem_todo_of_gone {s : RunRemove} (h : Guarded s) {pid : Nat} {todo : List Nat}
    (hgone : s.process? pid = none) {p : RunProcess} (hp : p ∈ s.processes)
    (hold : p.pid ∈ pid :: todo) : p.pid ∈ todo := by
  rcases List.mem_cons.1 hold with rfl | hmem
  · rw [h.process?_eq hp] at hgone
    cases hgone
  · exact hmem

/-- The file that was read names another ref. -/
theorem Guarded.mem_todo_of_other {s : RunRemove} (h : Guarded s) {pid : Nat}
    {todo : List Nat} {q : RunProcess} {app ref : Reference} (hq : s.process? pid = some q)
    (hcontent : q.phase.content = some app) (hne : app.toString ≠ ref.toString)
    {p : RunProcess} (hp : p ∈ s.processes) (happ : p.phase.app = some ref)
    (hold : p.pid ∈ pid :: todo) : p.pid ∈ todo := by
  rcases List.mem_cons.1 hold with rfl | hmem
  · rw [h.process?_eq hp] at hq
    cases hq
    -- a dumped ref is the resolved one
    have : app = ref := by
      cases hphase : q.phase <;> simp_all [RunPhase.app, RunPhase.content]
    exact absurd (congrArg Reference.toString this) hne
  · exact hmem

theorem guarded_openDirectory {s s' : RunRemove} (h : Guarded s)
    (hnext : s.next .openDirectory = some s') : Guarded s' := by
  simp only [next] at hnext
  split at hnext
  · next caller ref _ =>
    cases hnext
    refine h.setLockHolder _ ?_
    intro ref' todo hw p hp happ
    obtain ⟨rfl, rfl⟩ : ref' = ref ∧ todo = s.pidFiles := by
      simpa [LockHolder.watched] using hw
    -- a process that has resolved something has created its file before
    exact mem_pidFiles hp happ
  · cases hnext
    refine h.setLockHolder _ ?_
    intro ref' todo hw p hp happ
    obtain ⟨l, -, heq⟩ := List.mem_map.1 hw
    have htodo : todo = s.pidFiles := (Prod.mk.inj heq).2.symm
    exact htodo ▸ mem_pidFiles hp happ
  · cases hnext

theorem guarded_noticeFile {s s' : RunRemove} (h : Guarded s) {pid : Nat}
    (hnext : s.next (.noticeFile pid) = some s') : Guarded s' := by
  simp only [next] at hnext
  split at hnext
  · next caller ref todo busy hholder =>
    split at hnext
    · cases hnext
      refine h.setLockHolder _ ?_
      intro ref' todo' hw p hp happ
      cases busy with
      | true =>
        -- what was found busy is not watched any more
        simp [LockHolder.watched] at hw
      | false =>
        obtain ⟨rfl, rfl⟩ : ref' = ref ∧ todo' = pid :: todo := by
          simpa [LockHolder.watched] using hw
        have hmem : (ref', todo) ∈ (LockHolder.scanning caller ref' todo false).watched := by
          simp [LockHolder.watched]
        exact List.mem_cons_of_mem _ (h.unread_lockHolder hholder hmem hp happ)
    · cases hnext
  · next uninstalled todo hholder =>
    split at hnext
    · cases hnext
      refine h.setLockHolder _ ?_
      intro ref' todo' hw p hp happ
      obtain ⟨l, hl, heq⟩ := List.mem_map.1 hw
      obtain ⟨rfl, rfl⟩ := Prod.mk.inj heq
      have hmem : (l.ref, todo) ∈ (LockHolder.sweepScanning uninstalled todo).watched :=
        List.mem_map_of_mem hl
      exact List.mem_cons_of_mem _ (h.unread_lockHolder hholder hmem hp happ)
    · cases hnext
  · cases hnext

/-- Reading a file: an empty one ends the scan, and a recorded ref is not
    watched any more. -/
theorem guarded_readFile {s s' : RunRemove} (h : Guarded s)
    (hnext : s.readFile = some s') : Guarded s' := by
  unfold readFile at hnext
  split at hnext
  · next caller ref pid todo busy hholder =>
    -- `isRefBusy`: only a check that has not found its ref watches it
    have hold : busy = false → ∀ p ∈ s.processes, p.phase.app = some ref →
        p.pid ∈ pid :: todo := by
      rintro rfl p hp happ
      exact h.unread_lockHolder hholder (by simp [LockHolder.watched]) hp happ
    split at hnext
    · next hgone =>
      cases hnext
      refine h.setLockHolder _ ?_
      intro ref' todo' hw p hp happ
      cases busy with
      | true => simp [LockHolder.watched] at hw
      | false =>
        obtain ⟨rfl, rfl⟩ : ref' = ref ∧ todo' = todo := by simpa [LockHolder.watched] using hw
        exact h.mem_todo_of_gone hgone hp (hold rfl p hp happ)
    · next q hq =>
      split at hnext
      · cases hnext
        exact h.setLockHolder none (by simp)
      · next app hcontent =>
        cases hnext
        refine h.setLockHolder _ ?_
        intro ref' todo' hw p hp happ
        cases hbusy : (busy || app.toString == ref.toString) with
        | true => simp [LockHolder.watched, hbusy] at hw
        | false =>
          obtain ⟨rfl, rfl⟩ : ref' = ref ∧ todo' = todo := by
            simpa [LockHolder.watched, hbusy] using hw
          obtain ⟨hb, hne⟩ := Bool.or_eq_false_iff.1 hbusy
          exact h.mem_todo_of_other hq hcontent (by simpa using hne) hp happ (hold hb p hp happ)
  · next uninstalled pid todo hholder =>
    -- `deferredUninstall`: what a file names leaves the list
    have hold : ∀ l ∈ uninstalled, ∀ p ∈ s.processes, p.phase.app = some l.ref →
        p.pid ∈ pid :: todo := by
      intro l hl p hp happ
      exact h.unread_lockHolder hholder (List.mem_map_of_mem hl) hp happ
    split at hnext
    · next hgone =>
      cases hnext
      refine h.setLockHolder _ ?_
      intro ref' todo' hw p hp happ
      obtain ⟨l, hl, heq⟩ := List.mem_map.1 hw
      obtain ⟨rfl, rfl⟩ := Prod.mk.inj heq
      exact h.mem_todo_of_gone hgone hp (hold l hl p hp happ)
    · next q hq =>
      split at hnext
      · cases hnext
        exact h.setLockHolder none (by simp)
      · next app hcontent =>
        cases hnext
        refine h.setLockHolder _ ?_
        intro ref' todo' hw p hp happ
        obtain ⟨l, hl, heq⟩ := List.mem_map.1 hw
        obtain ⟨rfl, rfl⟩ := Prod.mk.inj heq
        obtain ⟨hl, hne⟩ := List.mem_filter.1 hl
        have hne' : app.toString ≠ l.ref.toString := fun heq => by simp [heq] at hne
        exact h.mem_todo_of_other hq hcontent hne' hp happ (hold l hl p hp happ)
  · cases hnext

/-- All files are read: nothing unread is left to guard the ref, so no
    process has resolved it. -/
theorem guarded_endScan {s s' : RunRemove} (h : Guarded s)
    (hnext : s.endScan = some s') : Guarded s' := by
  unfold endScan at hnext
  split at hnext
  · next caller ref hholder =>
    cases hnext
    refine h.congr rfl ?_
    intro w hw
    simpa [watched, hholder, LockHolder.watched, or_comm] using hw
  · cases hnext
    exact h.setLockHolder none (by simp)
  · cases hnext
    exact (h.setLockHolder none (by simp)).congr rfl fun w hw => hw
  · next uninstalled hholder =>
    cases hnext
    refine h.congr rfl ?_
    intro w hw
    simpa [watched, hholder, LockHolder.watched] using hw
  · cases hnext

/-- **Step**: unless a process resolves a watched ref, every step keeps
    the invariant. -/
theorem guarded_step (s : RunRemove) (e : RunRemoveEvent) (s' : RunRemove) (h : Guarded s)
    (hok : s.resolvesUnwatched e) (hnext : machine.next s e = some s') : Guarded s' := by
  replace hnext : s.next e = some s' := hnext
  cases e with
  | lockCheck pid =>
    simp only [next] at hnext
    split at hnext
    · next hfree => cases hnext; exact guarded_lockCheck h hfree.2
    · cases hnext
  | loadCache pid =>
    simp only [next] at hnext
    split at hnext
    · next q hq =>
      cases hnext
      obtain ⟨-, rfl⟩ := mem_of_process? hq
      exact h.setPhase hq (by simp [RunPhase.app])
    · cases hnext
  | createPidFile pid =>
    simp only [next] at hnext
    split at hnext
    · next q cache hq =>
      cases hnext
      obtain ⟨-, rfl⟩ := mem_of_process? hq
      exact h.setPhase hq (by simp [RunPhase.app])
    · cases hnext
  | resolve pid app =>
    simp only [next] at hnext
    split at hnext
    · next q cache hq =>
      split at hnext
      · cases hnext
        obtain ⟨-, rfl⟩ := mem_of_process? hq
        refine h.setPhase hq ?_
        intro ref happ
        cases happ
        -- the only place where the condition on the run is needed
        exact .inr hok
      · cases hnext
    · cases hnext
  | dumpContainerInfo pid =>
    simp only [next] at hnext
    split at hnext
    · next q app hq =>
      cases hnext
      obtain ⟨-, rfl⟩ := mem_of_process? hq
      exact h.setPhase hq fun ref happ => .inl happ
    · cases hnext
  | startContainer pid =>
    simp only [next] at hnext
    split at hnext
    · next q app hq =>
      cases hnext
      obtain ⟨-, rfl⟩ := mem_of_process? hq
      exact h.setPhase hq fun ref happ => .inl happ
    · cases hnext
  | exit pid =>
    cases hnext
    exact guarded_exit h pid
  | isRefBusy caller ref =>
    simp only [next] at hnext
    split at hnext
    · cases hnext
      exact h.setLockHolder _ (by simp [LockHolder.watched])
    · cases hnext
  | deferredUninstall =>
    simp only [next] at hnext
    split at hnext
    · cases hnext
      exact h.setLockHolder _ (by simp [LockHolder.watched])
    · cases hnext
  | openDirectory => exact guarded_openDirectory h hnext
  | noticeFile pid => exact guarded_noticeFile h hnext
  | readFile => exact guarded_readFile h hnext
  | endScan => exact guarded_endScan h hnext
  | abortScan =>
    simp only [next] at hnext
    split at hnext
    · cases hnext
    · cases hnext
    · cases hnext
      exact h.setLockHolder none (by simp)
  | removeLayer ref module =>
    simp only [next] at hnext
    split at hnext
    · cases hnext
      exact h.congr rfl fun w hw => hw
    · cases hnext
  | endRemoval ref =>
    cases hnext
    -- fewer refs are watched
    refine h.congr rfl ?_
    intro w hw
    rcases List.mem_append.1 hw with hrem | hlock
    · exact List.mem_append_left _ (List.map_subset _ List.erase_subset hrem)
    · exact List.mem_append_right _ hlock
  | endSweep =>
    simp only [next] at hnext
    split at hnext
    · cases hnext
      exact h.setLockHolder none (by simp)
    · cases hnext
  | markDeleted ref module deleted =>
    simp only [next] at hnext
    split at hnext
    · cases hnext
      exact h.congr rfl fun w hw => hw
    · cases hnext
  | endMarking ref =>
    cases hnext
    exact h.congr rfl fun w hw => hw
  | addLayer ref module =>
    cases hnext
    exact h.congr rfl fun w hw => hw

/-- Reading pid files does not touch the layers. -/
theorem layers_readFile {s s' : RunRemove} (hnext : s.readFile = some s') :
    s'.layers = s.layers := by
  unfold readFile at hnext
  repeat' split at hnext
  all_goals cases hnext <;> rfl

theorem layers_endScan {s s' : RunRemove} (hnext : s.endScan = some s') :
    s'.layers = s.layers := by
  unfold endScan at hnext
  repeat' split at hnext
  all_goals cases hnext <;> rfl

/-- The only step after which a layer is missing is a remover's. -/
theorem mayRemove_of_removesLayerOf {s s' : RunRemove} {e : RunRemoveEvent} {ref : Reference}
    (hnext : machine.next s e = some s') (hrem : s.removesLayerOf s' ref) :
    ∃ module, s.mayRemove ref module = true := by
  obtain ⟨l, hl, hlref, hgone⟩ := hrem
  -- a step that keeps the layer's ref and module does not remove it
  have hkeep : (∃ l' ∈ s'.layers, l'.ref = l.ref ∧ l'.module = l.module) → False := by
    rintro ⟨l', hl', href, hmod⟩
    exact hgone l' hl' ⟨href.trans hlref, hmod⟩
  replace hnext : s.next e = some s' := hnext
  cases e with
  | removeLayer ref' module =>
    simp only [next] at hnext
    split at hnext
    · next hmay =>
      cases hnext
      by_cases hsame : l.ref = ref' ∧ l.module = module
      · exact ⟨module, by rw [← hlref, hsame.1]; exact hmay⟩
      · exact (hkeep ⟨l, List.mem_filter.2 ⟨hl, decide_eq_true hsame⟩, rfl, rfl⟩).elim
    · cases hnext
  | markDeleted ref' module deleted =>
    simp only [next] at hnext
    split at hnext
    · cases hnext
      refine (hkeep ⟨_, List.mem_map_of_mem hl, ?_⟩).elim
      split <;> exact ⟨rfl, rfl⟩
    · cases hnext
  | addLayer ref' module =>
    cases hnext
    exact (hkeep ⟨l, List.mem_append_left _ hl, rfl, rfl⟩).elim
  | readFile =>
    rw [layers_readFile hnext] at hkeep
    exact (hkeep ⟨l, hl, rfl, rfl⟩).elim
  | endScan =>
    rw [layers_endScan hnext] at hkeep
    exact (hkeep ⟨l, hl, rfl, rfl⟩).elim
  | _ =>
    -- all other steps leave the layers as they are
    simp only [next] at hnext
    repeat' split at hnext
    all_goals cases hnext
    all_goals exact (hkeep ⟨l, hl, rfl, rfl⟩).elim

/-- A remover at work removes a ref that is watched with nothing unread. -/
theorem mem_watched_of_mayRemove {s : RunRemove} {ref : Reference} {module : String}
    (h : s.mayRemove ref module = true) : (ref, []) ∈ s.watched := by
  rcases Bool.or_eq_true_iff.1 h with hrem | hlock
  · refine List.mem_append_left _ (List.mem_map.2 ⟨ref, ?_, rfl⟩)
    simpa using hrem
  · refine List.mem_append_right _ ?_
    split at hlock
    · next uninstalled hholder =>
      obtain ⟨l, hl, heq⟩ := List.any_eq_true.1 hlock
      have hlref : l.ref = ref := (of_decide_eq_true heq).1
      simp only [hholder, Option.map_some, Option.getD_some, LockHolder.watched]
      exact List.mem_map.2 ⟨l, hl, by rw [hlref]⟩
    · cases hlock

/-- **Run**: in every run in which no process resolves a watched ref, a layer
    of a ref is only removed while no live process has that ref resolved. -/
theorem not_resolved_of_removesLayerOf (layers : List LayerMark) (events : List RunRemoveEvent)
    (s : RunRemove) (hmeets : machine.Meets resolvesUnwatched (init layers) events)
    (hexec : machine.exec (init layers) events = some s) (e : RunRemoveEvent) (s' : RunRemove)
    (hnext : machine.next s e = some s') (ref : Reference) (hrem : s.removesLayerOf s' ref) :
    ∀ p ∈ s.processes, p.phase.app ≠ some ref := by
  have h : Guarded s := machine.invariant_of_meets guarded_step (guarded_init layers) hmeets hexec
  obtain ⟨module, hmay⟩ := mayRemove_of_removesLayerOf hnext hrem
  intro p hp happ
  have := h.unread ref [] (mem_watched_of_mayRemove hmay) p hp happ
  simp at this

/-- Two versions of an app. -/
def calcRef (patch : Nat) : Reference := .onMain "org.deepin.calc" patch (by decide)

def calcLayers : List LayerMark :=
  [⟨calcRef 0, "binary", false⟩, ⟨calcRef 1, "binary", false⟩]

/-- The new version is running; the old one is checked and found free. -/
def removeOldVersion : List RunRemoveEvent :=
  [.lockCheck 7, .loadCache 7, .createPidFile 7, .resolve 7 (calcRef 1), .dumpContainerInfo 7,
    .isRefBusy .removeAfterInstall (calcRef 0), .openDirectory, .readFile, .startContainer 7,
    .endScan]

/-- There the old version is removed under the eyes of the new one. -/
theorem not_resolved_removeOldVersion :
    ∃ s s', machine.exec (init calcLayers) removeOldVersion = some s ∧
      machine.next s (.removeLayer (calcRef 0) "binary") = some s' ∧
      s.removesLayerOf s' (calcRef 0) ∧ ∀ p ∈ s.processes, p.phase.app ≠ some (calcRef 0) := by
  let s : RunRemove := ⟨calcLayers, [⟨7, .started (calcRef 1)⟩], none, [calcRef 0], []⟩
  let s' : RunRemove := { s with layers := [⟨calcRef 1, "binary", false⟩] }
  have hexec : machine.exec (init calcLayers) removeOldVersion = some s := by decide
  have hnext : machine.next s (.removeLayer (calcRef 0) "binary") = some s' := by decide
  have hrem : s.removesLayerOf s' (calcRef 0) := ⟨⟨calcRef 0, "binary", false⟩, by decide⟩
  exact ⟨s, s', hexec, hnext, hrem, not_resolved_of_removesLayerOf calcLayers removeOldVersion s
    (by decide) hexec _ s' hnext (calcRef 0) hrem⟩

/-- The window: `Uninstall` finds the app free and queues its task. The app
    is started before the task gets its turn and removes the layer. -/
def runInWindow : List RunRemoveEvent :=
  [.isRefBusy .uninstall (calcRef 0), .openDirectory, .endScan,
    .lockCheck 7, .loadCache 7, .createPidFile 7, .resolve 7 (calcRef 0)]

/-- The busy check and the removal are not one step. -/
theorem removed_while_resolved :
    ¬ ∀ (layers : List LayerMark) (events : List RunRemoveEvent) (s : RunRemove),
      machine.exec (init layers) events = some s → ∀ (e : RunRemoveEvent) (s' : RunRemove),
      machine.next s e = some s' → ∀ ref : Reference, s.removesLayerOf s' ref →
      ∀ p ∈ s.processes, p.phase.app ≠ some ref := by
  intro h
  let s : RunRemove := ⟨calcLayers, [⟨7, .resolved (calcRef 0)⟩], none, [calcRef 0], []⟩
  let s' : RunRemove := { s with layers := [⟨calcRef 1, "binary", false⟩] }
  have hexec : machine.exec (init calcLayers) runInWindow = some s := by decide
  have hrem : s.removesLayerOf s' (calcRef 0) := ⟨⟨calcRef 0, "binary", false⟩, by decide⟩
  have := h calcLayers runInWindow s hexec (.removeLayer (calcRef 0) "binary") s' (by decide)
    (calcRef 0) hrem ⟨7, .resolved (calcRef 0)⟩ (by decide)
  exact this rfl

end RunRemove

end Linglong
