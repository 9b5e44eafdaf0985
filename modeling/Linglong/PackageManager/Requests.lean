import Mathlib.Data.List.Flatten
import Linglong.Package.Reference
import Linglong.PackageManager.SchedulerRuns

/-! # Conflicts Between Requests

    Every request that appends a task builds a key for each package it
    operates on, `repo:channel/id/arch/module`, and is refused when some
    listed task holds that very text. Five handlers build the key on their
    own: `Install`, `Uninstall` and `Update` put the default repository in
    front, the two file installers put `local`.

    `Update` handles a list of packages. It queries the remote for each of
    them, in a nested event loop, before it checks that package's key, and
    appends the task after the last one; requests can be accepted in
    between. The model therefore takes an update apart into its steps.

    The keys of a task are kept in structured form next to the scheduler
    (`specs`); the texts in the tasks are what the code compares.
-/

namespace Linglong

open Framework

/-! ## Section 1: Keys -/

/-- The parts of a `refSpec`. -/
structure RefSpec where
  repo : String
  channel : String
  id : String
  arch : String
  module : String
  deriving DecidableEq

/-- `QString{ "%1:%2/%3/%4/%5" }.arg(…)`. -/
def RefSpec.text (k : RefSpec) : String :=
  k.repo ++ ":" ++ k.channel ++ "/" ++ k.id ++ "/" ++ k.arch ++ "/" ++ k.module

/-- The key of a reference. -/
def RefSpec.ofReference (repo : String) (ref : Reference) (module : String) : RefSpec :=
  ⟨repo, ref.channel, ref.id, ref.arch.toString, module⟩

/-- The package that a key is about; `runtime` is the old name of the module
    `binary`. -/
structure Target where
  channel : String
  id : String
  arch : String
  module : String
  deriving DecidableEq

def RefSpec.target (k : RefSpec) : Target :=
  ⟨k.channel, k.id, k.arch, if k.module = "runtime" then "binary" else k.module⟩

/-- A request for one package, after its references were looked up. -/
inductive Request where
  /-- `Install`: the remote reference and the requested module. -/
  | install (remoteRef : Reference) (module : Option String)
  /-- `Uninstall`: the local reference and the requested module. -/
  | uninstall (reference : Reference) (module : Option String)
  /-- `installFromLayer`, `installFromUAB`: reference and module of the file. -/
  | installFromLayer (packageRef : Reference) (module : String)
  | installFromUAB (appRef : Reference) (module : String)

namespace Request

def kind : Request → RequestKind
  | .install .. => .install
  | .uninstall .. => .uninstall
  | .installFromLayer .. | .installFromUAB .. => .installFromFile

/-- The key that the handler builds. -/
def refSpec (defaultRepo : String) : Request → RefSpec
  | .install remoteRef module => .ofReference defaultRepo remoteRef (module.getD "binary")
  | .uninstall reference module => .ofReference defaultRepo reference (module.getD "binary")
  | .installFromLayer packageRef module => .ofReference "local" packageRef module
  | .installFromUAB appRef module => .ofReference "local" appRef module

/-- `installFromLayer` takes the modules `binary` and `runtime` only. -/
def supported : Request → Bool
  | .installFromLayer _ module => module == "binary" || module == "runtime"
  | _ => true

end Request

/-! ## Section 2: The request machine -/

/-- The scheduler together with the handlers of requests. -/
structure RequestState where
  sched : Scheduler
  /-- `getConfig().defaultRepo`. -/
  defaultRepo : String
  /-- The keys of the task with a given object path. -/
  specs : String → List RefSpec
  /-- `refSpecList` of the `Update` requests that are still being handled. -/
  updates : List (List RefSpec)

inductive RequestEvent where
  /-- Any event of the scheduler that is not a request. -/
  | scheduler (e : Event)
  /-- The configuration is replaced. -/
  | setDefaultRepo (repo : String)
  | request (req : Request) (taskID : String)
  /-- An `Update` request arrives. -/
  | updateBegin
  /-- The remote query for the next package of an update has returned and
      the key of the package passes the check. -/
  | updatePackage (i : Nat) (reference : Reference) (module : Option String)
  /-- The update is refused. -/
  | updateRefuse (i : Nat)
  /-- The update is accepted. -/
  | updateReply (i : Nat) (taskID : String)

namespace RequestState

/-- The package manager after its start. -/
def init (defaultRepo : String) : RequestState where
  sched := .init
  defaultRepo := defaultRepo
  specs := fun _ => []
  updates := []

/-- "the target … is being operated". -/
def beingOperated (s : RequestState) (k : RefSpec) : Bool :=
  s.sched.taskList.any fun t => t.isRefExist k.text

/-- Append a task for the keys `ks`. -/
def accept (s : RequestState) (kind : RequestKind) (taskID : String) (ks : List RefSpec) :
    Option RequestState :=
  if h : (ks.map RefSpec.text).length < 2 ^ 31 then
    (s.sched.next (.request kind taskID ⟨ks.map RefSpec.text, h⟩)).map fun sched =>
      { s with
        sched := sched
        specs := fun p =>
          if p = (PackageTask.create taskID .empty).taskObjectPath then ks else s.specs p }
  else none

/-- One event. -/
def next (s : RequestState) : RequestEvent → Option RequestState
  | .scheduler (.request ..) => none
  | .scheduler e => (s.sched.next e).map fun sched => { s with sched := sched }
  | .setDefaultRepo repo => if s.sched.looping then some { s with defaultRepo := repo } else none
  | .request req taskID =>
      if req.supported = false ∨ s.beingOperated (req.refSpec s.defaultRepo) = true then none
      else s.accept req.kind taskID [req.refSpec s.defaultRepo]
  | .updateBegin => if s.sched.looping then some { s with updates := s.updates ++ [[]] } else none
  | .updatePackage i reference module =>
      match s.updates[i]? with
      | none => none
      | some ks =>
          let k := RefSpec.ofReference s.defaultRepo reference (module.getD "binary")
          if s.sched.looping = false ∨ s.beingOperated k = true then none
          else some { s with updates := s.updates.set i (ks ++ [k]) }
  | .updateRefuse i =>
      if s.sched.looping then some { s with updates := s.updates.eraseIdx i } else none
  | .updateReply i taskID =>
      match s.updates[i]? with
      | none => none
      | some ks => ({ s with updates := s.updates.eraseIdx i }).accept .update taskID ks

def machine : Machine RequestState RequestEvent where
  next := next

/-- All keys of the listed tasks. -/
def listed (s : RequestState) : List RefSpec := s.sched.paths.flatMap s.specs

/-- The packages that the listed tasks are about, one entry per key. -/
def targets (s : RequestState) : List Target := s.listed.map RefSpec.target

/-! ## Section 3: When the texts tell the packages apart -/

/-- The keys `ks` are for different packages, and a listed task that is
    about one of these packages holds it under the same key. -/
def spelledAlike (s : RequestState) (ks : List RefSpec) : Prop :=
  (ks.map RefSpec.target).Nodup ∧ ∀ k ∈ ks, ∀ l ∈ s.listed, l.target = k.target → l = k

/-- The requests for which the check of texts is a check of packages. For an
    update, moreover, no key it has checked was listed in the meantime. -/
def spelledAlikeRequest (s : RequestState) : RequestEvent → Prop
  | .request req _ => s.spelledAlike [req.refSpec s.defaultRepo]
  | .updateReply i _ =>
      ∀ ks ∈ s.updates[i]?, s.spelledAlike ks ∧ ∀ k ∈ ks, s.beingOperated k = false
  | _ => True

instance (s : RequestState) (ks : List RefSpec) : Decidable (s.spelledAlike ks) :=
  inferInstanceAs (Decidable (_ ∧ _))

instance (s : RequestState) : ∀ e, Decidable (s.spelledAlikeRequest e)
  | .request .. => inferInstanceAs (Decidable (s.spelledAlike _))
  | .updateReply i _ => inferInstanceAs (Decidable (∀ ks ∈ s.updates[i]?,
      s.spelledAlike ks ∧ ∀ k ∈ ks, s.beingOperated k = false))
  | .scheduler _ | .setDefaultRepo _ | .updateBegin | .updatePackage .. | .updateRefuse _ =>
      isTrue trivial

end RequestState

/-! ### What the scheduler does to the keys of its tasks -/

namespace Scheduler

/-- Path and refs of each listed task. -/
def keys (s : Scheduler) : List (String × QStringList) :=
  s.taskList.map fun t => (t.taskObjectPath, t.refs)

theorem paths_eq_keys (s : Scheduler) : s.paths = s.keys.map Prod.fst := by
  simp [paths, keys]

theorem keys_modifyTask (s : Scheduler) (path : String) {f : PackageTask → PackageTask}
    (hf : ∀ t, (f t).taskObjectPath = t.taskObjectPath) (hr : ∀ t, (f t).refs = t.refs) :
    (s.modifyTask path f).keys = s.keys := by
  unfold keys modifyTask
  rw [List.map_map]
  apply List.map_congr_left
  intro t _
  simp only [Function.comp_apply]
  split
  · rw [hf, hr]
  · rfl

theorem keys_notifyWaiting (s : Scheduler) : s.notifyWaiting.keys = s.keys := by
  unfold keys notifyWaiting
  rw [List.map_map]
  apply List.map_congr_left
  intro t _
  simp only [Function.comp_apply]
  split <;> simp

theorem keys_onTaskListChanged (s : Scheduler) (p : String) :
    (s.onTaskListChanged p).keys = s.keys := by
  unfold onTaskListChanged
  split
  · exact keys_notifyWaiting s
  · unfold startNext; split <;> rfl

/-- An event that is no request only drops tasks. -/
theorem keys_sublist_of_next {s s' : Scheduler} {e : Event} (h : s.next e = some s')
    (hreq : ∀ kind id refs, e ≠ .request kind id refs) :
    s'.keys.Sublist s.keys ∧ s'.created = s.created := by
  rcases next_cases h with ⟨kind, id, refs, rfl, -⟩ | ⟨i, p, -, -, -, rfl⟩ |
    ⟨path, -, -, rfl⟩ | ⟨c, path, rest, -, -, rfl⟩ | ⟨path, b, rest, -, -, rfl⟩ |
    ⟨path, rest, -, -, rfl⟩
  · exact absurd rfl (hreq kind id refs)
  · refine ⟨?_, ?_⟩
    · rw [keys_onTaskListChanged]
      exact List.Sublist.refl _
    · unfold onTaskListChanged notifyWaiting startNext
      split
      · rfl
      · split <;> rfl
  · rw [keys_modifyTask s path PackageTask.cancel_taskObjectPath PackageTask.cancel_refs]
    exact ⟨List.Sublist.refl _, rfl⟩
  · rw [keys_modifyTask s path (fun t => t.apply_taskObjectPath c) (fun t => t.apply_refs c)]
    exact ⟨List.Sublist.refl _, rfl⟩
  · exact ⟨List.Sublist.refl _, rfl⟩
  · exact ⟨List.filter_sublist.map _, rfl⟩

theorem taskObjectPath_newTask (kind : RequestKind) (taskID : String) (refs : QStringList) :
    (newTask kind taskID refs).taskObjectPath =
      (PackageTask.create taskID .empty).taskObjectPath := by
  apply PackageTask.taskObjectPath_congr
  unfold newTask
  split
  · rw [PackageTask.updateState_taskID]; rfl
  · rfl

theorem refs_newTask (kind : RequestKind) (taskID : String) (refs : QStringList) :
    (newTask kind taskID refs).refs = refs := by
  unfold newTask
  split
  · rw [PackageTask.updateState_refs]; rfl
  · rfl

theorem keys_addTask (s : Scheduler) (t : PackageTask) :
    (s.addTask t).keys = s.keys ++ [(t.taskObjectPath, t.refs)] := by
  simp [keys, addTask]

end Scheduler

namespace RequestState

/-- The invariant behind conflict freedom. -/
structure ConflictFree (s : RequestState) : Prop where
  paths_nodup : s.sched.paths.Nodup
  paths_created : ∀ p ∈ s.sched.paths, p ∈ s.sched.created
  /-- The texts in a task are those of its keys. -/
  linked : ∀ x ∈ s.sched.keys, x.2.toList = (s.specs x.1).map RefSpec.text
  targets_nodup : s.targets.Nodup

theorem conflictFree_init (repo : String) : ConflictFree (init repo) := by
  constructor <;> simp [init, Scheduler.init, Scheduler.paths, Scheduler.keys, targets, listed]

/-- Dropping tasks keeps the invariant. -/
theorem ConflictFree.of_sublist {s s' : RequestState} (h : ConflictFree s)
    (hkeys : s'.sched.keys.Sublist s.sched.keys) (hcreated : s'.sched.created = s.sched.created)
    (hspecs : s'.specs = s.specs) : ConflictFree s' := by
  have hpaths : s'.sched.paths.Sublist s.sched.paths := by
    rw [Scheduler.paths_eq_keys, Scheduler.paths_eq_keys]
    exact hkeys.map _
  refine ⟨h.paths_nodup.sublist hpaths, ?_, ?_, ?_⟩
  · intro p hp
    rw [hcreated]
    exact h.paths_created p (hpaths.subset hp)
  · intro x hx
    rw [hspecs]
    exact h.linked x (hkeys.subset hx)
  · refine h.targets_nodup.sublist ?_
    rw [targets, targets, listed, listed, hspecs]
    exact (hpaths.flatMap s.specs).map _

/-- A listed key is one of the texts the check looks at. -/
theorem beingOperated_of_mem_listed {s : RequestState} (h : ConflictFree s) {k : RefSpec}
    (hk : k ∈ s.listed) : s.beingOperated k = true := by
  obtain ⟨p, hp, hkp⟩ := List.mem_flatMap.1 hk
  obtain ⟨t, ht, rfl⟩ := List.mem_map.1 hp
  have hlink := h.linked (t.taskObjectPath, t.refs) (List.mem_map_of_mem ht)
  rw [beingOperated, List.any_eq_true]
  refine ⟨t, ht, ?_⟩
  rw [PackageTask.isRefExist, List.contains_iff_mem]
  simp only at hlink
  rw [hlink]
  exact List.mem_map_of_mem hkp

/-- What accepting a request does: one task with a new path and the texts of
    the given keys. -/
theorem accept_spec {s s' : RequestState} {kind : RequestKind} {taskID : String}
    {ks : List RefSpec} (hacc : s.accept kind taskID ks = some s') :
    ∃ path refs, path ∉ s.sched.created ∧ refs.toList = ks.map RefSpec.text ∧
      s'.sched.keys = s.sched.keys ++ [(path, refs)] ∧
      s'.sched.created = path :: s.sched.created ∧
      s'.specs = fun p => if p = path then ks else s.specs p := by
  unfold accept at hacc
  split at hacc
  · next hlen =>
    obtain ⟨sched, hnext, rfl⟩ := Option.map_eq_some_iff.1 hacc
    simp only [Scheduler.next] at hnext
    split at hnext
    · next hguard =>
      have hpath := Scheduler.taskObjectPath_newTask kind taskID ⟨ks.map RefSpec.text, hlen⟩
      refine ⟨_, ⟨ks.map RefSpec.text, hlen⟩, hpath ▸ hguard.2.2, rfl, ?_, ?_, rfl⟩
      · rw [← Option.some.inj hnext, Scheduler.keys_addTask, hpath, Scheduler.refs_newTask]
      · rw [← Option.some.inj hnext, ← hpath]
        rfl
    · cases hnext
  · cases hacc

/-- After an accepted request the new keys stand behind the old ones. -/
theorem listed_append {s s' : RequestState} {path : String} {refs : QStringList}
    {ks : List RefSpec} (hnot : path ∉ s.sched.paths)
    (hkeys : s'.sched.keys = s.sched.keys ++ [(path, refs)])
    (hspecs : s'.specs = fun p => if p = path then ks else s.specs p) :
    s'.listed = s.listed ++ ks := by
  have hpaths : s'.sched.paths = s.sched.paths ++ [path] := by
    rw [Scheduler.paths_eq_keys, hkeys, List.map_append, ← Scheduler.paths_eq_keys]
    rfl
  rw [listed, hpaths, List.flatMap_append, hspecs]
  congr 1
  · apply List.flatMap_congr
    intro p hp
    rw [if_neg]
    rintro rfl
    exact hnot hp
  · simp

/-- **Step**: a request that passes the check and is spelled alike adds new
    packages only. -/
theorem conflictFree_accept {s s' : RequestState} (h : ConflictFree s) {kind : RequestKind}
    {taskID : String} {ks : List RefSpec} (halike : s.spelledAlike ks)
    (hfree : ∀ k ∈ ks, s.beingOperated k = false)
    (hacc : s.accept kind taskID ks = some s') : ConflictFree s' := by
  obtain ⟨path, refs, hfresh, hrefs, hkeys, hcreated, hspecs⟩ := accept_spec hacc
  have hnot : path ∉ s.sched.paths := fun hp => hfresh (h.paths_created path hp)
  have hpaths : s'.sched.paths = s.sched.paths ++ [path] := by
    rw [Scheduler.paths_eq_keys, hkeys, List.map_append, ← Scheduler.paths_eq_keys]
    rfl
  have hfreshPaths := Scheduler.fresh_paths h.paths_nodup h.paths_created hfresh
  refine ⟨?_, ?_, ?_, ?_⟩
  · rw [hpaths]
    exact hfreshPaths.1
  · rw [hpaths, hcreated]
    exact hfreshPaths.2
  · intro x hx
    rw [hkeys, List.mem_append, List.mem_singleton] at hx
    rw [hspecs]
    -- an earlier task keeps its specs, the new one has those of the request
    rcases hx with hx | rfl
    · have hne : x.1 ≠ path := by
        rintro rfl
        exact hnot (Scheduler.paths_eq_keys _ ▸ List.mem_map_of_mem hx)
      simp only [if_neg hne]
      exact h.linked x hx
    · simpa using hrefs
  · -- the new targets are distinct, and a listed one would have been refused
    rw [targets, listed_append hnot hkeys hspecs, List.map_append, List.nodup_append]
    refine ⟨h.targets_nodup, halike.1, ?_⟩
    rintro x hx y hy rfl
    obtain ⟨l, hl, hlx⟩ := List.mem_map.1 hx
    obtain ⟨k, hk, hkx⟩ := List.mem_map.1 hy
    have hlk : l = k := halike.2 k hk l hl (hlx.trans hkx.symm)
    have hop := beingOperated_of_mem_listed h (hlk ▸ hl)
    rw [hfree k hk] at hop
    cases hop

/-- **Step**: every event that is spelled alike keeps the packages apart. -/
theorem conflictFree_step (s : RequestState) (e : RequestEvent) (s' : RequestState)
    (h : ConflictFree s) (hok : s.spelledAlikeRequest e) (hnext : machine.next s e = some s') :
    ConflictFree s' := by
  replace hnext : s.next e = some s' := hnext
  cases e with
  | scheduler e =>
    cases e with
    | request kind id refs => simp [next] at hnext
    | _ =>
      obtain ⟨sched, hsched, rfl⟩ := Option.map_eq_some_iff.1 hnext
      obtain ⟨hkeys, hcreated⟩ := Scheduler.keys_sublist_of_next hsched (by simp)
      exact h.of_sublist hkeys hcreated rfl
  -- no keys are added, here and while an `Update` waits
  | setDefaultRepo repo =>
    simp only [next] at hnext
    split at hnext
    · cases hnext
      exact h.of_sublist (List.Sublist.refl _) rfl rfl
    · cases hnext
  | request req taskID =>
    simp only [next] at hnext
    split at hnext
    · cases hnext
    · next hguard =>
      rw [not_or, Bool.not_eq_true] at hguard
      refine conflictFree_accept h hok ?_ hnext
      intro k hk
      rw [List.mem_singleton.1 hk]
      exact hguard.2
  | updateBegin =>
    simp only [next] at hnext
    split at hnext
    · cases hnext
      exact h.of_sublist (List.Sublist.refl _) rfl rfl
    · cases hnext
  | updatePackage i reference module =>
    simp only [next] at hnext
    split at hnext
    · cases hnext
    · split at hnext
      · cases hnext
      · cases hnext
        exact h.of_sublist (List.Sublist.refl _) rfl rfl
  | updateRefuse i =>
    simp only [next] at hnext
    split at hnext
    · cases hnext
      exact h.of_sublist (List.Sublist.refl _) rfl rfl
    · cases hnext
  | updateReply i taskID =>
    simp only [next] at hnext
    split at hnext
    · cases hnext
    · next ks hks =>
      -- the condition covers what was listed since the check
      obtain ⟨halike, hfree⟩ := hok ks hks
      have hrest : ConflictFree { s with updates := s.updates.eraseIdx i } :=
        h.of_sublist (List.Sublist.refl _) rfl rfl
      exact conflictFree_accept hrest halike hfree hnext

/-- **Run**: in every run whose requests are spelled alike, no two keys of
    the listed tasks (of one task or of two) are for the same package, in
    every state reached. -/
theorem targets_nodup_of_meets (repo : String) (events : List RequestEvent) (s : RequestState)
    (hmeets : machine.Meets spelledAlikeRequest (init repo) events)
    (hexec : machine.exec (init repo) events = some s) : s.targets.Nodup :=
  (machine.invariant_of_meets conflictFree_step (conflictFree_init repo) hmeets hexec).targets_nodup

/-- A package for the examples below. -/
def demoRef : Reference := .onMain "org.deepin.demo" 0 (by decide)

/-- Two requests for different modules of one package. -/
def twoModules : List RequestEvent :=
  [.request (.install demoRef none) "a", .request (.uninstall demoRef (some "develop")) "b"]

theorem targets_nodup_twoModules :
    ∃ s, machine.exec (init "stable") twoModules = some s ∧ s.targets.Nodup := by
  obtain ⟨s, hs⟩ := machine.exists_of_exec_isSome (init "stable") twoModules (by decide)
  exact ⟨s, hs, targets_nodup_of_meets "stable" twoModules s (by decide) hs⟩

/-- One `Update` request that lists the same package twice is accepted: each
    key is compared with the listed tasks, not with the keys before it. -/
theorem targets_not_nodup :
    ¬ ∀ (repo : String) (events : List RequestEvent) (s : RequestState),
      machine.exec (init repo) events = some s → s.targets.Nodup := by
  intro h
  have := h "stable" [.updateBegin, .updatePackage 0 demoRef none, .updatePackage 0 demoRef none,
    .updateReply 0 "u"] _ rfl
  exact absurd this (by decide)

end RequestState

end Linglong
