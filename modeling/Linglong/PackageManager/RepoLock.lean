import Linglong.Framework.Machine
import Linglong.PackageManager.Operations

/-! # The Descriptor of the Repository Lock

    `lockRepo` opens the lock file, keeps the descriptor in `lockFd` and locks
    the file without waiting; `unlockRepo` unlocks it and closes the
    descriptor. `isRefBusy` and `deferredUninstall` return at once when
    `lockRepo` fails. Only after it a guard is installed that unlocks.

    When another process holds the lock, the file has been opened and is not
    closed. The next `lockRepo` overwrites `lockFd`, and nothing knows the
    descriptor any more.

    1. `lockRepo` and `unlockRepo`.
    2. The operations, and what they do to descriptors.
    3. Every run: when no descriptor is left (`clean_always_iff`).
-/

namespace Linglong

open Framework

/-! ## Section 1: lockRepo and unlockRepo -/

/-- The descriptors of the lock file. `most` is not in the source: the
    greatest number of them that were open at a time. -/
structure RepoLock where
  /-- `lockFd`; none is -1. -/
  lockFd : Option Nat
  fds : List Nat
  most : Nat
  isOpen : ∀ fd, lockFd = some fd → fd ∈ fds

/-- What the kernel answers to the calls of one operation. A call that fails
    has the text of its `errno`. -/
structure LockAnswers where
  opened : Except String Nat
  locked : Except String Unit
  unlocked : Except String Unit

namespace RepoLock

def repoLockPath : String := "/run/linglong/lock"

/-- Before the first call. -/
def unlocked : RepoLock := ⟨none, [], 0, fun _ h => nomatch h⟩

/-- `lockFd = ::open(..)`, which returned -1. -/
def openFailed (s : RepoLock) : RepoLock :=
  { s with lockFd := none, isOpen := fun _ h => nomatch h }

/-- `lockFd = ::open(..)`, which returned a descriptor. -/
def opened (fd : Nat) (s : RepoLock) : RepoLock where
  lockFd := some fd
  fds := fd :: s.fds
  most := max s.most (s.fds.length + 1)
  isOpen := by
    intro _ h
    rw [Option.some.inj h]
    exact List.mem_cons_self

/-- `::close(lockFd); lockFd = -1`. -/
def closed (fd : Nat) (s : RepoLock) : RepoLock where
  lockFd := none
  fds := s.fds.erase fd
  most := s.most
  isOpen := fun _ h => nomatch h

/-- `lockRepo`. -/
def lockRepo (a : LockAnswers) (s : RepoLock) : Except String Unit × RepoLock :=
  match a.opened with
  | .error e => (.error ("failed to create lock file " ++ repoLockPath ++ ": " ++ e), s.openFailed)
  | .ok fd =>
      match a.locked with
      | .error e => (.error ("failed to lock " ++ repoLockPath ++ ": " ++ e), s.opened fd)
      | .ok () => (.ok (), s.opened fd)

/-- `unlockRepo`. -/
def unlockRepo (a : Except String Unit) (s : RepoLock) : Except String Unit × RepoLock :=
  match s.lockFd with
  | none => (.ok (), s)
  | some fd =>
      match a with
      | .error e => (.error ("failed to unlock " ++ repoLockPath ++ ": " ++ e), s)
      | .ok () => (.ok (), s.closed fd)

/-- The beginning of `isRefBusy` and `deferredUninstall`, and the guard that
    runs when they return. The guard only logs that it fails. -/
def withLock {β : Type} (a : LockAnswers) (failed : String → β) (body : β) (s : RepoLock) :
    β × RepoLock :=
  match s.lockRepo a with
  | (.error e, s) => (failed e, s)
  | (.ok (), s) => (body, (s.unlockRepo a.unlocked).2)

end RepoLock

/-! ## Section 2: The operations -/

/-- The members of `PackageManager` that they use. -/
structure LockedManager where
  repo : Repo
  lock : RepoLock

/-- An operation that locks or unlocks, with what it finds. -/
inductive LockCall where
  | isRefBusy (ref : Reference) (containers : Containers) (a : LockAnswers)
  | deferredUninstall (containers : Containers) (a : LockAnswers)
  | destructor (a : Except String Unit)

/-- The descriptor that an operation is given. -/
def LockCall.opens : LockCall → Option Nat
  | .isRefBusy _ _ a => a.opened.toOption
  | .deferredUninstall _ a => a.opened.toOption
  | .destructor _ => none

namespace LockedManager

/-- `isRefBusy`. -/
def isRefBusy (m : LockedManager) (ref : Reference) (containers : Containers) (a : LockAnswers) :
    Except String Bool × LockedManager :=
  let (result, lock) := m.lock.withLock a
    (fun e => .error ("failed to lock repo, underlying data will not be removed:" ++ e))
    (Linglong.isRefBusy containers ref)
  (result, { m with lock := lock })

/-- `deferredUninstall`. -/
def deferredUninstall (m : LockedManager) (containers : Containers) (a : LockAnswers) :
    LockedManager :=
  let (repo, lock) := m.lock.withLock a (fun _ => m.repo) (m.repo.deferredUninstall containers)
  ⟨repo, lock⟩

/-- `~PackageManager`. -/
def destructor (m : LockedManager) (a : Except String Unit) : LockedManager :=
  { m with lock := (m.lock.unlockRepo a).2 }

def call (m : LockedManager) : LockCall → LockedManager
  | .isRefBusy ref containers a => (m.isRefBusy ref containers a).2
  | .deferredUninstall containers a => m.deferredUninstall containers a
  | .destructor a => m.destructor a

/-- The operations one after the other. `open` returns a descriptor that is
    not open. -/
def machine : Machine LockedManager LockCall where
  next := fun m c =>
    if c.opens.any (m.lock.fds.contains ·) then none else some (m.call c)

end LockedManager

/-- A file that is opened is locked, and unlocked again. -/
def LockAnswers.Released (a : LockAnswers) : Prop :=
  ∀ fd, a.opened = .ok fd → a.locked = .ok () ∧ a.unlocked = .ok ()

namespace RepoLock

/-- No descriptor is open, and there has never been more than one. -/
structure Clean (s : RepoLock) : Prop where
  none_open : s.fds = []
  most_le : s.most ≤ 1

theorem clean_unlocked : unlocked.Clean := ⟨rfl, Nat.zero_le _⟩

theorem Clean.lockFd {s : RepoLock} (h : s.Clean) : s.lockFd = none := by
  cases hfd : s.lockFd with
  | none => rfl
  | some fd =>
    have hmem := s.isOpen fd hfd
    rw [h.none_open] at hmem
    cases hmem

theorem Clean.unlockRepo {s : RepoLock} (h : s.Clean) (a : Except String Unit) :
    (s.unlockRepo a).2 = s := by
  rw [RepoLock.unlockRepo, h.lockFd]

/-- One operation leaves nothing open exactly if what it opens is locked and
    unlocked. -/
theorem Clean.withLock {s : RepoLock} (h : s.Clean) {β : Type} (a : LockAnswers)
    (failed : String → β) (body : β) : (s.withLock a failed body).2.Clean ↔ a.Released := by
  obtain ⟨o, l, u⟩ := a
  have hmost : (s.fds.length + 1) = 1 := by rw [h.none_open]; rfl
  have hmax : max s.most (s.fds.length + 1) ≤ 1 := by
    rw [hmost]
    exact max_le h.most_le (Nat.le_refl 1)
  cases o with
  | error e =>
    refine iff_of_true ⟨h.none_open, h.most_le⟩ ?_
    intro fd hfd
    cases hfd
  | ok fd =>
    have hopen : ¬ (s.opened fd).Clean := fun hclean => List.cons_ne_nil _ _ hclean.none_open
    cases l with
    | error e =>
      -- the file is open and nobody unlocks
      refine iff_of_false hopen fun hr => ?_
      cases (hr fd rfl).1
    | ok _ =>
      cases u with
      | error e =>
        refine iff_of_false hopen fun hr => ?_
        cases (hr fd rfl).2
      | ok _ =>
        refine iff_of_true ⟨?_, hmax⟩ fun _ _ => ⟨rfl, rfl⟩
        show (fd :: s.fds).erase fd = []
        rw [List.erase_cons_head, h.none_open]

/-- What is open when an operation begins stays open. -/
theorem subset_withLock (s : RepoLock) {β : Type} {a : LockAnswers} (failed : String → β)
    (body : β) : s.fds ⊆ (s.withLock a failed body).2.fds := by
  obtain ⟨o, l, u⟩ := a
  cases o with
  | error e => exact List.Subset.refl _
  | ok fd =>
    have hopened : s.fds ⊆ (s.opened fd).fds := List.subset_cons_self _ _
    cases l with
    | error e => exact hopened
    | ok _ =>
      cases u with
      | error e => exact hopened
      | ok _ =>
        show s.fds ⊆ (fd :: s.fds).erase fd
        rw [List.erase_cons_head]
        exact List.Subset.refl _

end RepoLock

/-! ## Section 3: Every run -/

namespace LockedManager

/-- What an operation opens is locked, and unlocked again. -/
def Releases (_ : LockedManager) : LockCall → Prop
  | .isRefBusy _ _ a => a.Released
  | .deferredUninstall _ a => a.Released
  | .destructor _ => True

/-- Nothing is open and nothing was open twice. -/
def Clean (m : LockedManager) : Prop := m.lock.Clean

/-- **Step**: an operation that begins with nothing open. -/
theorem Clean.call {m : LockedManager} (h : m.Clean) (c : LockCall) :
    (m.call c).Clean ↔ m.Releases c := by
  cases c with
  | isRefBusy ref containers a => exact RepoLock.Clean.withLock h a _ _
  | deferredUninstall containers a => exact RepoLock.Clean.withLock h a _ _
  | destructor a =>
    refine iff_of_true ?_ trivial
    show (m.lock.unlockRepo a).2.Clean
    rw [RepoLock.Clean.unlockRepo h]
    exact h

/-- With nothing open, every operation can come next. -/
theorem Clean.next {m : LockedManager} (h : m.Clean) (c : LockCall) :
    machine.next m c = some (m.call c) := by
  refine if_neg ?_
  rw [h.none_open]
  simp

/-- **Run**: after every operation no descriptor is open, and there was never
    more than one, exactly if in every operation what is opened is locked and
    unlocked. -/
theorem clean_always_iff (repo : Repo) (calls : List LockCall) :
    machine.Always Clean ⟨repo, .unlocked⟩ calls ↔
      machine.Meets Releases ⟨repo, .unlocked⟩ calls :=
  machine.always_iff_meets (fun _ c hm => ⟨_, hm.next c, hm.call c⟩) RepoLock.clean_unlocked

/-- **Step**: only the destructor closes what was open before. -/
theorem subset_call (m : LockedManager) {c : LockCall} (hc : ∀ a, c ≠ .destructor a) :
    m.lock.fds ⊆ (m.call c).lock.fds := by
  cases c with
  | isRefBusy ref containers a => exact m.lock.subset_withLock _ _
  | deferredUninstall containers a => exact m.lock.subset_withLock _ _
  | destructor a => exact absurd rfl (hc a)

/-- **Run**: a descriptor that is lost stays open until the destructor runs. -/
theorem lost_stays_open {m m' : LockedManager} {calls : List LockCall} {fd : Nat}
    (hcalls : machine.Meets (fun _ c => ∀ a, c ≠ .destructor a) m calls)
    (hexec : machine.exec m calls = some m') (h : fd ∈ m.lock.fds) : fd ∈ m'.lock.fds := by
  have hstep : ∀ (m : LockedManager) (c : LockCall) (m' : LockedManager), fd ∈ m.lock.fds →
      (∀ a, c ≠ .destructor a) → machine.next m c = some m' → fd ∈ m'.lock.fds := by
    intro m c m' hmem hc hnext
    obtain ⟨-, hcall⟩ := Option.ite_none_left_eq_some.1 hnext
    exact Option.some.inj hcall ▸ m.subset_call hc hmem
  exact machine.invariant_of_meets hstep h hcalls hexec

/-- Another process holds the lock. -/
theorem not_clean_refused : ¬ ∀ (repo : Repo) (calls : List LockCall),
    machine.Always Clean ⟨repo, .unlocked⟩ calls := by
  intro h
  have hlast := (h (Repo.ofLayers (.ofCommits []) [] [] []) [.deferredUninstall (.ok [])
    ⟨.ok 5, .error "Resource temporarily unavailable", .ok ()⟩]).2 _ rfl
  exact List.cons_ne_nil _ _ hlast.none_open

end LockedManager

end Linglong
