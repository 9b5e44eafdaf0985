import Linglong.Repo.Atomicity

/-! # Setting the Configuration

    `setConfig` goes through four stores: it writes `config.yaml`, replaces
    the remote of the default repository in ostree's configuration, rebuilds
    the cache from ostree's refs, and keeps the new configuration. A
    transaction undoes the first two if a later one fails: it saves the
    current configuration and sets the remote of the current default
    repository again.

    `rebuildCache` makes an item for each ref. It starts with an empty list
    of items, and a ref says nothing about the mark of a layer.

    1. Configurations and the operations.
    2. What each operation can do.
    3. Which layers survive (`layers_perm_iff`).
    4. When a failure is undone (`setConfig_undone_iff`).
-/

namespace Linglong

open Framework RepositoryCacheLayersItem

/-! ## Section 1: The operations -/

/-- `api::types::v1::RepoConfig`. A configuration whose default repository is
    not in its list is rejected when it is loaded and when it is saved. -/
structure RepoConfig where
  defaultRepo : String
  repos : List (String × String)
  version : Int
  default_mem : (repos.lookup defaultRepo).isSome = true
  deriving DecidableEq

namespace RepoConfig

/-- `cfg.repos.at(cfg.defaultRepo)`. -/
def url (cfg : RepoConfig) : String := (cfg.repos.lookup cfg.defaultRepo).get cfg.default_mem

/-- The URL of the remote that `updateOstreeRepoConfig` adds. -/
def remoteUrl (cfg : RepoConfig) : String := cfg.url ++ "/repos/" ++ cfg.defaultRepo

end RepoConfig

/-- `config.yaml`: not there, cut off by a write that failed, or holding a
    configuration. -/
inductive ConfigFile where
  | absent
  | truncated
  | holds (cfg : RepoConfig)
  deriving DecidableEq

/-- What is known of the iteration over the hash table of refs: each ref
    comes once, in some order. -/
structure TableOrder where
  refs : List (OstreeRefSpec × String) → List (OstreeRefSpec × String)
  perm : ∀ l, (refs l).Perm l

/-- The repository with its configuration: `cfg` of `OSTreeRepo`,
    `cache.config` of `RepoCache`, the file, and the remotes of ostree with
    their URLs. -/
structure ConfigState where
  repo : Repo
  cfg : RepoConfig
  cacheConfig : RepoConfig
  configYaml : ConfigFile
  ostreeRemotes : List (String × String)
  table : TableOrder
  isRoot : Bool

/-- An operation on the repository and its configuration. -/
abbrev ConfigM (α : Type) := EStateM String ConfigState α

namespace Repo

/-- The item of a ref. -/
def itemOfRef (s : Repo) (spec : OstreeRefSpec) : Option RepositoryCacheLayersItem :=
  (s.resolveRefspec spec).bind fun commit =>
    (s.outside.commitInfo commit).toOption.map fun info => ⟨commit, none, info, spec.remote⟩

/-- One round of the loop of `rebuildCache`: a ref that cannot be read is
    skipped. -/
def rebuildItem (spec : OstreeRefSpec) : RepoM Unit :=
  tryCatch (do
    fallible .readCommit "ostree_repo_read_commit failed"
    modify fun s => { s with layers := s.layers ++ (s.itemOfRef spec).toList }) fun _ => pure ()

end Repo

namespace ConfigState

/-- Use an operation of the repository. -/
def onRepo {α : Type} (m : RepoM α) : ConfigM α := fun s =>
  match m s.repo with
  | .ok a repo => .ok a { s with repo := repo }
  | .error e repo => .error e { s with repo := repo }

/-- `saveConfig`. Opening the file empties it. -/
def saveConfig (cfg : RepoConfig) : ConfigM Unit := do
  onRepo (Repo.fallible .saveConfig "open failed")
  modify fun s => { s with configYaml := .truncated }
  onRepo (Repo.fallible .saveConfig "to_yaml")
  modify fun s => { s with configYaml := .holds cfg }

/-- `updateOstreeRepoConfig`. -/
def updateOstreeRepoConfig (cfg : RepoConfig) : ConfigM Unit := do
  onRepo (Repo.fallible .remoteChange "ostree_repo_remote_change")
  modify fun s => { s with
    ostreeRemotes := s.ostreeRemotes.filter fun r => r.1 ≠ cfg.defaultRepo }
  onRepo (Repo.fallible .remoteChange "ostree_repo_remote_change")
  modify fun s => { s with
    ostreeRemotes := (cfg.defaultRepo, cfg.remoteUrl) :: s.ostreeRemotes }
  onRepo (Repo.fallible .writeConfig "ostree_repo_write_config")

/-- The loop of `rebuildCache` over the refs. -/
def rebuildItems : ConfigM Unit := do
  let s ← get
  onRepo ((s.table.refs s.repo.ostreeRefs).forM fun e => Repo.rebuildItem e.1)

/-- The end of `rebuildCache`: root does not write the file. -/
def writeRebuilt : ConfigM Unit := do
  let s ← get
  if s.isRoot then pure () else onRepo Repo.writeToDisk

/-- `rebuildCache`. -/
def rebuildCache (cfg : RepoConfig) : ConfigM Unit := do
  modify fun s => { s with cacheConfig := cfg, repo := { s.repo with layers := [] } }
  onRepo (Repo.fallible .listRefs "ostree_repo_list_refs")
  rebuildItems
  writeRebuilt

/-- Run `m`; if it fails, an action of the transaction undoes what was done
    before, for the current configuration. Its own error is only logged. -/
def orUndo (m : ConfigM Unit) (undo : RepoConfig → ConfigM Unit) : ConfigM Unit :=
  tryCatch m fun e => do
    let s ← get
    tryCatch (undo s.cfg) fun _ => pure ()
    throw e

/-- The last step of `setConfig`. -/
def keepConfig (cfg : RepoConfig) : ConfigM Unit :=
  modify fun s => { s with cfg := cfg, repo := { s.repo with defaultRepo := cfg.defaultRepo } }

/-- `setConfig`. -/
def setConfig (cfg : RepoConfig) : ConfigM Unit := do
  saveConfig cfg
  orUndo (do
    updateOstreeRepoConfig cfg
    orUndo (do
      rebuildCache cfg
      keepConfig cfg) updateOstreeRepoConfig) saveConfig

end ConfigState

/-! ## Section 2: What the operations can do -/

namespace Repo

/-- `faults` is what is left after so many steps of each kind. -/
def Uses (s : Repo) (count : Step → Nat) (faults : Step → List Bool) : Prop :=
  ∀ k n, (faults k).getD n false = s.fails k (count k + n)

theorem uses_popFault {s : Repo} {count : Step → Nat} {faults : Step → List Bool}
    (h : s.Uses count faults) (step : Step) :
    s.Uses (fun k => if k = step then count k + 1 else count k)
      (popFault { s with faults := faults } step).faults := by
  intro k n
  by_cases hk : k = step
  · subst hk
    refine (fails_popFault _ k n).trans ((h k (n + 1)).trans ?_)
    simp only [if_true]
    rw [show count k + (n + 1) = count k + 1 + n by omega]
  · refine (fails_popFault_of_ne hk _ n).trans ((h k n).trans ?_)
    simp only [if_neg hk]

end Repo

namespace ConfigState

/-- The state with other faults to come. -/
def withFaults (s : ConfigState) (faults : Step → List Bool) : ConfigState :=
  { s with repo := { s.repo with faults := faults } }

theorem step_ok {s s' : ConfigState} {step : Step} {message : String} {u : Unit}
    (h : onRepo (Repo.fallible step message) s = .ok u s') :
    s.repo.fails step 0 = false ∧ s' = s.withFaults (s.repo.popFault step).faults := by
  unfold onRepo at h
  cases hrun : Repo.fallible step message s.repo with
  | error e repo =>
    rw [hrun] at h
    cases h
  | ok u' repo =>
    rw [hrun] at h
    cases h
    obtain ⟨hfails, rfl⟩ := Repo.fallible_ok hrun
    exact ⟨hfails, rfl⟩

theorem step_error {s s' : ConfigState} {step : Step} {message e : String}
    (h : onRepo (Repo.fallible step message) s = .error e s') :
    s.repo.fails step 0 = true ∧ s' = s.withFaults (s.repo.popFault step).faults := by
  unfold onRepo at h
  cases hrun : Repo.fallible step message s.repo with
  | ok u' repo =>
    rw [hrun] at h
    cases h
  | error e repo =>
    rw [hrun] at h
    cases h
    obtain ⟨hfails, rfl⟩ := Repo.fallible_error hrun
    exact ⟨hfails, rfl⟩

/-- How saving a configuration ends. -/
def SaveOutcome (cfg : RepoConfig) (s : ConfigState) : EStateM.Result String ConfigState Unit → Prop
  | .ok _ s' => s.repo.fails .saveConfig 0 = false ∧ s.repo.fails .saveConfig 1 = false ∧
      ∃ faults, s.repo.Uses (fun k => if k = .saveConfig then 2 else 0) faults ∧
        s' = { s.withFaults faults with configYaml := .holds cfg }
  | .error _ s' => ∃ faults,
      (s.repo.fails .saveConfig 0 = true ∧ s' = s.withFaults faults) ∨
      (s.repo.fails .saveConfig 0 = false ∧ s.repo.fails .saveConfig 1 = true ∧
        s' = { s.withFaults faults with configYaml := .truncated })

theorem saveOutcome_saveConfig (cfg : RepoConfig) (s : ConfigState) :
    SaveOutcome cfg s (saveConfig cfg s) := by
  have huses : s.repo.Uses (fun _ => 0) s.repo.faults := fun k n => by rw [Nat.zero_add]; rfl
  refine bind_elim (fun _ s₁ h₁ => ?_) fun e s₁ h₁ => ?_
  rotate_left
  · obtain ⟨h₀, rfl⟩ := step_error h₁
    exact ⟨_, .inl ⟨h₀, rfl⟩⟩
  obtain ⟨h₀, rfl⟩ := step_ok h₁
  have huses₁ := Repo.uses_popFault huses .saveConfig
  refine bind_elim (fun _ s₂ h₂ => ?_) fun e s₂ h₂ => nomatch h₂
  cases h₂
  refine bind_elim (fun _ s₃ h₃ => ?_) fun e s₃ h₃ => ?_
  rotate_left
  · obtain ⟨hfails, rfl⟩ := step_error h₃
    exact ⟨_, .inr ⟨h₀, (huses₁ .saveConfig 0).symm.trans hfails, rfl⟩⟩
  obtain ⟨hfails, rfl⟩ := step_ok h₃
  refine ⟨h₀, (huses₁ .saveConfig 0).symm.trans hfails, _, ?_, rfl⟩
  intro k n
  refine (Repo.uses_popFault huses₁ .saveConfig k n).trans ?_
  by_cases hk : k = .saveConfig <;> simp [hk]

/-- The remotes once the one of a configuration has been removed, and once it
    has been added again. -/
def withoutRemote (s : ConfigState) (cfg : RepoConfig) : List (String × String) :=
  s.ostreeRemotes.filter fun r => r.1 ≠ cfg.defaultRepo

def withRemote (s : ConfigState) (cfg : RepoConfig) : List (String × String) :=
  (cfg.defaultRepo, cfg.remoteUrl) :: s.withoutRemote cfg

/-- How replacing a remote ends. -/
def RemoteOutcome (cfg : RepoConfig) (s : ConfigState) :
    EStateM.Result String ConfigState Unit → Prop
  | .ok _ s' => s.repo.fails .remoteChange 0 = false ∧ s.repo.fails .remoteChange 1 = false ∧
      s.repo.fails .writeConfig 0 = false ∧
      ∃ faults, s.repo.Uses (fun k => if k = .remoteChange then 2 else if k = .writeConfig then 1
        else 0) faults ∧ s' = { s.withFaults faults with ostreeRemotes := s.withRemote cfg }
  | .error _ s' => ∃ faults, (∀ n, (faults .saveConfig).getD n false = s.repo.fails .saveConfig n) ∧
      ((s.repo.fails .remoteChange 0 = true ∧ s' = s.withFaults faults) ∨
      (s.repo.fails .remoteChange 0 = false ∧ s.repo.fails .remoteChange 1 = true ∧
        s' = { s.withFaults faults with ostreeRemotes := s.withoutRemote cfg }) ∨
      (s.repo.fails .remoteChange 0 = false ∧ s.repo.fails .remoteChange 1 = false ∧
        s.repo.fails .writeConfig 0 = true ∧
        s' = { s.withFaults faults with ostreeRemotes := s.withRemote cfg }))

theorem remoteOutcome_updateOstreeRepoConfig (cfg : RepoConfig) (s : ConfigState) :
    RemoteOutcome cfg s (updateOstreeRepoConfig cfg s) := by
  have huses : s.repo.Uses (fun _ => 0) s.repo.faults := fun k n => by rw [Nat.zero_add]; rfl
  -- the first change removes the remote, the second adds it; then the file is written
  refine bind_elim (fun _ s₁ h₁ => ?_) fun e s₁ h₁ => ?_
  rotate_left
  · obtain ⟨h₀, rfl⟩ := step_error h₁
    exact ⟨_, fun n => Repo.fails_popFault_of_ne (by decide) _ n, .inl ⟨h₀, rfl⟩⟩
  obtain ⟨h₀, rfl⟩ := step_ok h₁
  have huses₁ := Repo.uses_popFault huses .remoteChange
  refine bind_elim (fun _ s₂ h₂ => ?_) fun e s₂ h₂ => nomatch h₂
  cases h₂
  refine bind_elim (fun _ s₃ h₃ => ?_) fun e s₃ h₃ => ?_
  rotate_left
  · obtain ⟨hfails, rfl⟩ := step_error h₃
    refine ⟨_, fun n => ?_, .inr (.inl ⟨h₀, (huses₁ .remoteChange 0).symm.trans hfails, rfl⟩)⟩
    exact (Repo.uses_popFault huses₁ .remoteChange .saveConfig n).trans (by simp)
  obtain ⟨hfails, rfl⟩ := step_ok h₃
  have h₁' : s.repo.fails .remoteChange 1 = false := (huses₁ .remoteChange 0).symm.trans hfails
  have huses₂ := Repo.uses_popFault huses₁ .remoteChange
  refine bind_elim (fun _ s₄ h₄ => ?_) fun e s₄ h₄ => nomatch h₄
  cases h₄
  have huses₃ := Repo.uses_popFault huses₂ .writeConfig
  refine run_elim (fun _ s₅ h₅ => ?_) fun e s₅ h₅ => ?_
  · obtain ⟨hwrite, rfl⟩ := step_ok h₅
    refine ⟨h₀, h₁', (huses₂ .writeConfig 0).symm.trans hwrite, _, fun k n => ?_, rfl⟩
    refine (huses₃ k n).trans ?_
    by_cases hk : k = .remoteChange
    · simp [hk]
    · by_cases hk' : k = .writeConfig <;> simp [hk, hk']
  · obtain ⟨hwrite, rfl⟩ := step_error h₅
    refine ⟨_, fun n => ?_,
      .inr (.inr ⟨h₀, h₁', (huses₂ .writeConfig 0).symm.trans hwrite, rfl⟩)⟩
    exact (huses₃ .saveConfig n).trans (by simp)

end ConfigState

/-! ### Rebuilding the cache -/

/-- The items of the refs that can be read. -/
def rebuiltItems (item : OstreeRefSpec → Option RepositoryCacheLayersItem) :
    List Bool → List (OstreeRefSpec × String) → List RepositoryCacheLayersItem
  | _, [] => []
  | faults, e :: rest =>
      (if faults.headD false then [] else (item e.1).toList) ++
        rebuiltItems item faults.tail rest

namespace Repo

theorem rebuildItem_run (spec : OstreeRefSpec) (s : Repo) :
    rebuildItem spec s = .ok () { s.popFault .readCommit with
      layers := s.layers ++
        if (s.faults .readCommit).headD false then [] else (s.itemOfRef spec).toList } := by
  unfold rebuildItem
  rw [tryCatch_run]
  rcases fallible_cases .readCommit "ostree_repo_read_commit failed" s with
    ⟨hrun, hhead⟩ | ⟨hrun, hhead⟩
  · rw [bind_of_ok hrun, hhead]
    rfl
  · rw [bind_of_error hrun, hhead]
    show EStateM.Result.ok () (s.popFault .readCommit) = _
    simp [popFault]

/-- **Run**: the loop over the refs adds their items, and uses one fault for
    each. -/
theorem rebuildItems_run (refs : List (OstreeRefSpec × String)) (s : Repo) :
    ∃ faults, (∀ k, k ≠ .readCommit → faults k = s.faults k) ∧
      (refs.forM fun e => rebuildItem e.1) s = .ok () { s with
        layers := s.layers ++ rebuiltItems s.itemOfRef (s.faults .readCommit) refs
        faults := faults } := by
  induction refs generalizing s with
  | nil => exact ⟨s.faults, fun _ _ => rfl, by simp [rebuiltItems]; rfl⟩
  | cons e refs ih =>
    obtain ⟨faults, hfaults, hrun⟩ := ih { s.popFault .readCommit with
      layers := s.layers ++
        if (s.faults .readCommit).headD false then [] else (s.itemOfRef e.1).toList }
    refine ⟨faults, fun k hk => ?_, (bind_of_ok (rebuildItem_run e.1 s)).trans (hrun.trans ?_)⟩
    · rw [hfaults k hk]
      simp only [popFault, if_neg hk]
    · -- the refs and the commits are the same as before
      have hitem : itemOfRef { s.popFault .readCommit with
          layers := s.layers ++
            if (s.faults .readCommit).headD false then [] else (s.itemOfRef e.1).toList } =
          s.itemOfRef := rfl
      rw [hitem]
      simp [rebuiltItems, popFault]

end Repo

namespace ConfigState

/-- The items that `rebuildCache` finds. -/
def rebuilt (s : ConfigState) : List RepositoryCacheLayersItem :=
  rebuiltItems s.repo.itemOfRef (s.repo.faults .readCommit) (s.table.refs s.repo.ostreeRefs)

/-- How rebuilding the cache ends. The items in memory are new ones in any
    case. -/
def RebuildOutcome (cfg : RepoConfig) (s : ConfigState) :
    EStateM.Result String ConfigState Unit → Prop
  | .ok _ s' => s.repo.fails .listRefs 0 = false ∧
      (s.isRoot = false → s.repo.fails .writeCache 0 = false) ∧
      ∃ faults json, s' = { s with
        cacheConfig := cfg
        repo := { s.repo with layers := s.rebuilt, faults := faults, statesJson := json } }
  | .error _ s' => ∃ faults,
      (∀ k, k ≠ .listRefs → k ≠ .readCommit → k ≠ .writeCache → faults k = s.repo.faults k) ∧
      ((s.repo.fails .listRefs 0 = true ∧ s' = { s with
        cacheConfig := cfg
        repo := { s.repo with layers := [], faults := faults } }) ∨
      (s.repo.fails .listRefs 0 = false ∧ s.isRoot = false ∧ s.repo.fails .writeCache 0 = true ∧
        s' = { s with
          cacheConfig := cfg
          repo := { s.repo with layers := s.rebuilt, faults := faults } }))

theorem rebuildItems_spec (s : ConfigState) :
    ∃ faults, (∀ k, k ≠ .readCommit → faults k = s.repo.faults k) ∧
      rebuildItems s = .ok () { s with
        repo := { s.repo with layers := s.repo.layers ++ s.rebuilt, faults := faults } } := by
  obtain ⟨faults, hfaults, hloop⟩ := Repo.rebuildItems_run (s.table.refs s.repo.ostreeRefs) s.repo
  refine ⟨faults, hfaults, (bind_of_ok (get_run s)).trans ?_⟩
  unfold onRepo
  rw [hloop]
  rfl

theorem writeRebuilt_cases (s : ConfigState) :
    (s.isRoot = true ∧ writeRebuilt s = .ok () s) ∨
    (s.isRoot = false ∧
      (((s.repo.faults .writeCache).headD false = false ∧ writeRebuilt s = .ok () { s with
          repo := { s.repo.popFault .writeCache with
            statesJson := (s.repo.layers, s.repo.merged) } }) ∨
      ((s.repo.faults .writeCache).headD false = true ∧
        ∃ e, writeRebuilt s = .error e { s with repo := s.repo.popFault .writeCache }))) := by
  have hstart : writeRebuilt s =
      (if s.isRoot then pure () else onRepo Repo.writeToDisk : ConfigM Unit) s :=
    bind_of_ok (get_run s)
  by_cases hroot : s.isRoot = true
  · rw [if_pos hroot] at hstart
    exact .inl ⟨hroot, hstart⟩
  · rw [if_neg hroot] at hstart
    refine .inr ⟨by simpa using hroot, ?_⟩
    unfold onRepo at hstart
    rcases s.repo.writeToDisk_cases with ⟨hrun, hhead⟩ | ⟨hrun, hhead⟩
    · rw [hrun] at hstart
      exact .inl ⟨hhead, hstart⟩
    · rw [hrun] at hstart
      exact .inr ⟨hhead, _, hstart⟩

theorem rebuildOutcome_rebuildCache (cfg : RepoConfig) (s : ConfigState) :
    RebuildOutcome cfg s (rebuildCache cfg s) := by
  refine bind_elim (fun _ s₁ h₁ => ?_) fun e s₁ h₁ => ?_
  rotate_left
  · cases h₁
  cases h₁
  refine bind_elim (fun _ s₂ h₂ => ?_) fun e s₂ h₂ => ?_
  rotate_left
  · obtain ⟨hlist, rfl⟩ := step_error h₂
    refine ⟨_, fun k hk _ _ => ?_, .inl ⟨hlist, rfl⟩⟩
    simp only [Repo.popFault, if_neg hk]
  obtain ⟨hlist, rfl⟩ := step_ok h₂
  refine bind_elim (fun _ s₃ h₃ => ?_) fun e s₃ h₃ => ?_
  rotate_left
  · obtain ⟨faults, -, hrun⟩ := rebuildItems_spec (withFaults
      { s with cacheConfig := cfg, repo := { s.repo with layers := [] } }
      (s.repo.popFault .listRefs).faults)
    have hboth := hrun.symm.trans h₃
    cases hboth
  -- the loop starts without items
  obtain ⟨faults, hfaults, hrun⟩ := rebuildItems_spec (withFaults
    { s with cacheConfig := cfg, repo := { s.repo with layers := [] } }
    (s.repo.popFault .listRefs).faults)
  have hstate := EStateM.Result.ok.inj (hrun.symm.trans h₃)
  have hkeep : ∀ k, k ≠ .listRefs → k ≠ .readCommit → faults k = s.repo.faults k := by
    intro k hk hk'
    rw [hfaults k hk']
    show (s.repo.popFault .listRefs).faults k = s.repo.faults k
    simp only [Repo.popFault, if_neg hk]
  have hs₃ : s₃ = { s with
      cacheConfig := cfg
      repo := { s.repo with layers := s.rebuilt, faults := faults } } := hstate.2.symm
  subst hs₃
  have hwrite : faults .writeCache = s.repo.faults .writeCache := hkeep _ (by decide) (by decide)
  cases writeRebuilt_cases { s with
      cacheConfig := cfg
      repo := { s.repo with layers := s.rebuilt, faults := faults } } with
  | inl hroot =>
    rw [hroot.2]
    refine ⟨hlist, fun hnot => ?_, faults, s.repo.statesJson, rfl⟩
    rw [hroot.1] at hnot
    cases hnot
  | inr hrest =>
    obtain ⟨hroot, ⟨hhead, hdone⟩ | ⟨hhead, e, hdone⟩⟩ := hrest
    · rw [hdone]
      refine ⟨hlist, fun _ => ?_, _, _, rfl⟩
      rw [Repo.fails_zero, ← hwrite]
      exact hhead
    · rw [hdone]
      refine ⟨_, fun k hk hk' hk'' => ?_, .inr ⟨hlist, hroot, ?_, rfl⟩⟩
      · simp only [if_neg hk'']
        exact hkeep k hk hk'
      · rw [Repo.fails_zero, ← hwrite]
        exact hhead

end ConfigState

/-! ## Section 3: The layers after a change of the configuration -/

namespace ConfigState

theorem orUndo_run (m : ConfigM Unit) (undo : RepoConfig → ConfigM Unit) (s : ConfigState) :
    orUndo m undo s =
      match m s with
      | .ok a s' => .ok a s'
      | .error e s' => .error e (after (undo s'.cfg) s') := by
  unfold orUndo
  rw [tryCatch_run]
  cases m s with
  | ok a s' => rfl
  | error e s' =>
    have hquiet : (tryCatch (undo s'.cfg) fun _ => pure () : ConfigM Unit) s' =
        .ok () (after (undo s'.cfg) s') := by
      rw [tryCatch_run, after]
      cases undo s'.cfg s' <;> rfl
    exact (bind_of_ok (get_run s')).trans (bind_of_ok hquiet)

theorem orUndo_ok {m : ConfigM Unit} {undo : RepoConfig → ConfigM Unit} {s s' : ConfigState}
    (h : orUndo m undo s = .ok () s') : m s = .ok () s' := by
  rw [orUndo_run] at h
  cases hrun : m s with
  | ok a s'' =>
    rw [hrun] at h
    exact h
  | error e s'' =>
    rw [hrun] at h
    cases h

/-- Only the faults that are looked at count. -/
theorem rebuiltItems_congr {item : OstreeRefSpec → Option RepositoryCacheLayersItem}
    {refs : List (OstreeRefSpec × String)} :
    ∀ {faults faults' : List Bool}, (∀ n, faults.getD n false = faults'.getD n false) →
      rebuiltItems item faults refs = rebuiltItems item faults' refs := by
  induction refs with
  | nil =>
    intro faults faults' _
    rfl
  | cons e refs ih =>
    intro faults faults' h
    have hhead : faults.headD false = faults'.headD false := by
      simpa [List.headD_eq_head?_getD, List.getD_eq_getElem?_getD, List.head?_eq_getElem?] using h 0
    have htail : ∀ n, faults.tail.getD n false = faults'.tail.getD n false := by
      intro n
      simpa [List.getD_eq_getElem?_getD, List.getElem?_tail] using h (n + 1)
    rw [rebuiltItems, rebuiltItems, hhead, ih htail]

/-- The state once `config.yaml` has the new configuration. -/
def saved (s : ConfigState) (cfg : RepoConfig) (faults : Step → List Bool) : ConfigState :=
  { s.withFaults faults with configYaml := .holds cfg }

/-- The state once the new remote is set as well. -/
def served (s : ConfigState) (cfg : RepoConfig) (faults : Step → List Bool) : ConfigState :=
  { s.saved cfg faults with ostreeRemotes := s.withRemote cfg }

/-- What the first two stages of `setConfig` use up. -/
def usedByFirst (k : Step) : Nat := if k = .saveConfig then 2 else 0

def usedBySecond (k : Step) : Nat :=
  if k = .saveConfig ∨ k = .remoteChange then 2 else if k = .writeConfig then 1 else 0

/-- **Stages of `setConfig`**: the configuration cannot be saved; or it is
    saved and the remote cannot be set; or both is done and the cache is
    rebuilt. -/
theorem setConfig_stages (cfg : RepoConfig) (s : ConfigState) :
    (∃ e s', saveConfig cfg s = .error e s' ∧ setConfig cfg s = .error e s') ∨
    ∃ faults, s.repo.Uses usedByFirst faults ∧ s.repo.fails .saveConfig 0 = false ∧
      s.repo.fails .saveConfig 1 = false ∧
      ((∃ e s', updateOstreeRepoConfig cfg (s.saved cfg faults) = .error e s' ∧
        setConfig cfg s = .error e (after (saveConfig s'.cfg) s')) ∨
      ∃ faults₂, s.repo.Uses usedBySecond faults₂ ∧ s.repo.fails .remoteChange 0 = false ∧
        s.repo.fails .remoteChange 1 = false ∧ s.repo.fails .writeConfig 0 = false ∧
        setConfig cfg s = orUndo (orUndo (do
          rebuildCache cfg
          keepConfig cfg) updateOstreeRepoConfig) saveConfig (s.served cfg faults₂)) := by
  have hsave := saveOutcome_saveConfig cfg s
  cases hrun : saveConfig cfg s with
  | error e s' => exact .inl ⟨e, s', rfl, bind_of_error hrun⟩
  | ok u s₁ =>
    rw [hrun] at hsave
    obtain ⟨h₀, h₁, faults, huses, rfl⟩ := hsave
    refine .inr ⟨faults, huses, h₀, h₁, ?_⟩
    have hstart : setConfig cfg s = orUndo (do
        updateOstreeRepoConfig cfg
        orUndo (do
          rebuildCache cfg
          keepConfig cfg) updateOstreeRepoConfig) saveConfig (s.saved cfg faults) :=
      bind_of_ok hrun
    have hremote := remoteOutcome_updateOstreeRepoConfig cfg (s.saved cfg faults)
    cases hrun₂ : updateOstreeRepoConfig cfg (s.saved cfg faults) with
    | error e s' =>
      left
      refine ⟨e, s', rfl, ?_⟩
      rw [hstart, orUndo_run, bind_of_error hrun₂]
    | ok u s₂ =>
      rw [hrun₂] at hremote
      obtain ⟨hr₀, hr₁, hw, faults₂, huses₂, rfl⟩ := hremote
      -- the second stage starts where the first one ends
      have hfails : ∀ k n, (s.saved cfg faults).repo.fails k n = s.repo.fails k (usedByFirst k + n) :=
        huses
      right
      refine ⟨faults₂, fun k n => (huses₂ k n).trans ?_, ?_, ?_, ?_, ?_⟩
      · rw [hfails]
        cases k <;> simp [usedByFirst, usedBySecond]
      · simpa [hfails, usedByFirst] using hr₀
      · simpa [hfails, usedByFirst] using hr₁
      · simpa [hfails, usedByFirst] using hw
      · rw [hstart, orUndo_run, orUndo_run, bind_of_ok hrun₂]
        rfl

theorem rebuilt_served {s : ConfigState} {cfg : RepoConfig} {faults : Step → List Bool}
    (huses : s.repo.Uses usedBySecond faults) : (s.served cfg faults).rebuilt = s.rebuilt := by
  refine rebuiltItems_congr fun n => (huses .readCommit n).trans ?_
  rw [show usedBySecond .readCommit = 0 from rfl, Nat.zero_add]
  rfl

/-- After a successful `setConfig` the items are those of the refs. -/
theorem layers_of_setConfig {cfg : RepoConfig} {s s' : ConfigState}
    (h : setConfig cfg s = .ok () s') : s'.repo.layers = s.rebuilt := by
  rcases setConfig_stages cfg s with ⟨e, s₁, -, hrun⟩ | ⟨faults, -, -, -, ⟨e, s₁, -, hrun⟩ |
    ⟨faults₂, huses, -, -, -, hrun⟩⟩
  · rw [h] at hrun
    cases hrun
  · rw [h] at hrun
    cases hrun
  · obtain ⟨_, s₃, hrebuild, hkeep⟩ :=
      bind_ok_iff.1 (orUndo_ok (orUndo_ok (hrun.symm.trans h)))
    cases hkeep
    have hout := rebuildOutcome_rebuildCache cfg (s.served cfg faults₂)
    rw [hrebuild] at hout
    obtain ⟨-, -, faults₃, json, rfl⟩ := hout
    exact rebuilt_served huses

end ConfigState

/-- Cache items and refs agree: each item has its ref, each ref has its item,
    and the item has the `info.json` of its commit. -/
structure Repo.RefsAgree (s : Repo) : Prop where
  keys : (s.ostreeRefs.map Prod.fst).Nodup
  items : (s.layers.map fun l => (ostreeRefSpecFromLayerItem l, l.commit)).Perm s.ostreeRefs
  infos : ∀ l ∈ s.layers, s.outside.commitInfo l.commit = .ok l.info

/-- The item without its mark. -/
def RepositoryCacheLayersItem.unmarked (item : RepositoryCacheLayersItem) :
    RepositoryCacheLayersItem :=
  { item with deleted := none }

theorem Repo.RefsAgree.itemOfRef {s : Repo} (h : s.RefsAgree) {l : RepositoryCacheLayersItem}
    (hl : l ∈ s.layers) : s.itemOfRef (ostreeRefSpecFromLayerItem l) = some l.unmarked := by
  have hmem : (ostreeRefSpecFromLayerItem l, l.commit) ∈ s.ostreeRefs :=
    h.items.subset (List.mem_map.2 ⟨l, hl, rfl⟩)
  have hcommit : s.resolveRefspec (ostreeRefSpecFromLayerItem l) = some l.commit :=
    lookup_of_mem h.keys hmem
  rw [Repo.itemOfRef, hcommit, Option.bind_some, h.infos l hl]
  rfl

theorem itemOfRef_deleted {s : Repo} {spec : OstreeRefSpec} {item : RepositoryCacheLayersItem}
    (h : s.itemOfRef spec = some item) : item.deleted = none := by
  obtain ⟨commit, -, hinfo⟩ := Option.bind_eq_some_iff.1 h
  obtain ⟨info, -, rfl⟩ := Option.map_eq_some_iff.1 hinfo
  rfl

section RebuiltItems

variable {item : OstreeRefSpec → Option RepositoryCacheLayersItem}
  {refs : List (OstreeRefSpec × String)}

/-- If every ref can be read, every item is there. -/
theorem rebuiltItems_of_no_faults :
    ∀ {faults : List Bool}, (∀ n < refs.length, faults.getD n false = false) →
      rebuiltItems item faults refs = refs.filterMap fun e => item e.1 := by
  induction refs with
  | nil =>
    intro faults _
    rfl
  | cons e refs ih =>
    intro faults h
    have hhead : faults.headD false = false := by
      have := h 0 (by simp)
      cases faults <;> exact this
    have htail : ∀ n < refs.length, faults.tail.getD n false = false := by
      intro n hn
      have := h (n + 1) (by simpa using hn)
      cases faults <;> exact this
    rw [rebuiltItems, hhead, ih htail, List.filterMap_cons]
    cases item e.1 <;> rfl

theorem length_read_le (fails : Bool) (found : Option RepositoryCacheLayersItem) :
    (if fails then [] else found.toList).length ≤ 1 := by
  cases fails <;> cases found <;> simp

/-- A ref that cannot be read leaves a gap. -/
theorem rebuiltItems_length (item : OstreeRefSpec → Option RepositoryCacheLayersItem)
    (refs : List (OstreeRefSpec × String)) (faults : List Bool) :
    (rebuiltItems item faults refs).length ≤ refs.length ∧
      ((∃ n < refs.length, faults.getD n false = true) →
        (rebuiltItems item faults refs).length < refs.length) := by
  induction refs generalizing faults with
  | nil => simp [rebuiltItems]
  | cons e refs ih =>
    obtain ⟨hle, hlt⟩ := ih faults.tail
    have hone := length_read_le (faults.headD false) (item e.1)
    rw [rebuiltItems, List.length_append, List.length_cons]
    refine ⟨by omega, ?_⟩
    rintro ⟨n, hn, hfault⟩
    cases n with
    | zero =>
      have hhead : faults.headD false = true := by
        cases faults <;> exact hfault
      rw [hhead, if_pos rfl, List.length_nil]
      omega
    | succ n =>
      have hgap := hlt ⟨n, by omega, by cases faults <;> exact hfault⟩
      omega

theorem mem_rebuiltItems {l : RepositoryCacheLayersItem} :
    ∀ {faults : List Bool}, l ∈ rebuiltItems item faults refs → ∃ e ∈ refs, item e.1 = some l := by
  induction refs with
  | nil =>
    intro faults h
    cases h
  | cons e refs ih =>
    intro faults h
    rw [rebuiltItems] at h
    rcases List.mem_append.1 h with h | h
    · split at h
      · cases h
      · exact ⟨e, by simp, by simpa using h⟩
    · obtain ⟨e', he', heq⟩ := ih h
      exact ⟨e', by simp [he'], heq⟩

end RebuiltItems

namespace ConfigState

/-- **Which layers survive.** If refs and items agreed, a successful
    `setConfig` keeps all items and their marks exactly if there are no marks
    and every ref can be read. -/
theorem layers_perm_iff {cfg : RepoConfig} {s s' : ConfigState} (hagree : s.repo.RefsAgree)
    (h : setConfig cfg s = .ok () s') :
    s'.repo.layers.Perm s.repo.layers ↔
      (∀ item ∈ s.repo.layers, item.deleted = none) ∧
        ∀ n < s.repo.ostreeRefs.length, s.repo.fails .readCommit n = false := by
  rw [layers_of_setConfig h]
  have htable : (s.table.refs s.repo.ostreeRefs).length = s.repo.ostreeRefs.length :=
    (s.table.perm _).length_eq
  have hcount : s.repo.layers.length = s.repo.ostreeRefs.length := by
    rw [← hagree.items.length_eq, List.length_map]
  constructor
  · intro hperm
    -- a rebuilt item has no mark, and a commit that is not read leaves a gap
    refine ⟨fun item hitem => ?_, fun n hn => ?_⟩
    · obtain ⟨e, -, heq⟩ := mem_rebuiltItems (hperm.symm.subset hitem)
      exact itemOfRef_deleted heq
    · by_contra hne
      have hfails : s.repo.fails .readCommit n = true := by simpa using hne
      have hgap := (rebuiltItems_length s.repo.itemOfRef (s.table.refs s.repo.ostreeRefs)
        (s.repo.faults .readCommit)).2 ⟨n, by omega, hfails⟩
      have hlength := hperm.length_eq
      rw [rebuilt] at hlength
      omega
  · rintro ⟨hmarks, hread⟩
    have hall : s.rebuilt = (s.table.refs s.repo.ostreeRefs).filterMap
        fun e => s.repo.itemOfRef e.1 := rebuiltItems_of_no_faults fun n hn => hread n (by omega)
    have hunmarked : ∀ l ∈ s.repo.layers,
        s.repo.itemOfRef (Repo.ostreeRefSpecFromLayerItem l) = some l := by
      intro l hl
      rw [hagree.itemOfRef hl, RepositoryCacheLayersItem.unmarked, ← hmarks l hl]
    have hitems : (s.repo.layers.map fun l => (Repo.ostreeRefSpecFromLayerItem l, l.commit)).filterMap
        (fun e => s.repo.itemOfRef e.1) = s.repo.layers := by
      rw [List.filterMap_map]
      exact (List.filterMap_congr hunmarked).trans List.filterMap_some
    rw [hall]
    refine (((s.table.perm _).trans hagree.items.symm).filterMap _).trans ?_
    rw [hitems]

/-- A configuration with the repository `stable`. -/
def stableConfig (url : String) : RepoConfig := ⟨"stable", [("stable", url)], 1, rfl⟩

/-- A repository that follows its configuration, with the given layers. -/
def ofLayers (layers : List RepositoryCacheLayersItem) : ConfigState where
  repo := .ofLayers (.ofCommits (layers.map fun l => (l.commit, l.info))) layers [] []
  cfg := stableConfig "https://repo"
  cacheConfig := stableConfig "https://repo"
  configYaml := .holds (stableConfig "https://repo")
  ostreeRemotes := [("stable", (stableConfig "https://repo").remoteUrl)]
  table := ⟨id, fun _ => List.Perm.refl _⟩
  isRoot := false

/-- The module `binary` of an app, with or without a mark. -/
def editor (deleted : Option Bool) : RepositoryCacheLayersItem :=
  ⟨"c1", deleted, .onMain "org.editor" "1.0.0.0" "binary", "stable"⟩

theorem refsAgree_editor (deleted : Option Bool) : (ofLayers [editor deleted]).repo.RefsAgree where
  keys := List.nodup_singleton _
  items := List.Perm.refl _
  infos := by
    intro l hl
    rw [List.mem_singleton.1 hl]
    rfl

theorem layers_perm_editor :
    ∃ s', setConfig (stableConfig "https://mirror") (ofLayers [editor none]) = .ok () s' ∧
      s'.repo.layers.Perm [editor none] := by
  obtain ⟨s', h⟩ : ∃ s', setConfig (stableConfig "https://mirror") (ofLayers [editor none]) =
      .ok () s' := ⟨_, rfl⟩
  refine ⟨s', h, (layers_perm_iff (refsAgree_editor none) h).2 ⟨?_, fun _ _ => rfl⟩⟩
  intro item hitem
  rw [List.mem_singleton.1 hitem]
  rfl

/-- A layer that was marked is listed again. -/
theorem not_layers_perm :
    ¬ ∀ (cfg : RepoConfig) (s s' : ConfigState), s.repo.RefsAgree →
      setConfig cfg s = .ok () s' → s'.repo.layers.Perm s.repo.layers := by
  intro h
  have hperm := h (stableConfig "https://mirror") (ofLayers [editor (some true)]) _
    (refsAgree_editor (some true)) rfl
  have hmem : editor (some true) ∈ [editor none] :=
    hperm.symm.subset (List.mem_singleton.2 rfl)
  exact absurd hmem (by decide)

/-! ## Section 4: Failures -/

/-- The same `config.yaml`, the same remotes with the same URLs, the same
    configuration and the same cache in memory. -/
structure SameConfig (s s' : ConfigState) : Prop where
  configYaml : s'.configYaml = s.configYaml
  remotes : ∀ name, s'.ostreeRemotes.lookup name = s.ostreeRemotes.lookup name
  cfg : s'.cfg = s.cfg
  cacheConfig : s'.cacheConfig = s.cacheConfig
  layers : s'.repo.layers = s.repo.layers
  merged : s'.repo.merged = s.repo.merged

/-- The actions of the transaction succeed: they come after the two steps of
    `saveConfig`, the two changes of the remote and the write of ostree's
    configuration. -/
structure UndoSucceeds (s : ConfigState) : Prop where
  saveConfig : s.repo.fails .saveConfig 2 = false ∧ s.repo.fails .saveConfig 3 = false
  remoteChange : s.repo.fails .remoteChange 2 = false ∧ s.repo.fails .remoteChange 3 = false
  writeConfig : s.repo.fails .writeConfig 1 = false

/-- The remotes are those that both updates set. -/
def RemotesSet (s : ConfigState) (cfg : RepoConfig) : Prop :=
  s.ostreeRemotes.lookup s.cfg.defaultRepo = some s.cfg.remoteUrl ∧
    (cfg.defaultRepo ≠ s.cfg.defaultRepo →
      s.ostreeRemotes.lookup cfg.defaultRepo = some cfg.remoteUrl)

/-- **When a failure is undone**, by the first step that fails. From the
    second step on, `config.yaml` has to have the current configuration. A
    remote that was removed must not have been there; one that was added must
    have been there before. Once the cache is being rebuilt, it must have had
    the new configuration and the items of the refs, or none. -/
def UndoneIf (s : ConfigState) (cfg : RepoConfig) : Prop :=
  if s.repo.fails .saveConfig 0 then True
  else if s.repo.fails .saveConfig 1 then s.configYaml = .truncated
  else if s.repo.fails .remoteChange 0 then s.configYaml = .holds s.cfg
  else if s.repo.fails .remoteChange 1 then
    s.configYaml = .holds s.cfg ∧ s.ostreeRemotes.lookup cfg.defaultRepo = none
  else if s.repo.fails .writeConfig 0 then
    s.configYaml = .holds s.cfg ∧ s.ostreeRemotes.lookup cfg.defaultRepo = some cfg.remoteUrl
  else if s.repo.fails .listRefs 0 then
    s.configYaml = .holds s.cfg ∧ s.RemotesSet cfg ∧ s.cacheConfig = cfg ∧ s.repo.layers = []
  else if s.isRoot = false ∧ s.repo.fails .writeCache 0 = true then
    s.configYaml = .holds s.cfg ∧ s.RemotesSet cfg ∧ s.cacheConfig = cfg ∧
      s.repo.layers = s.rebuilt
  else True

/-- Saving the configuration when no step fails. -/
theorem after_saveConfig (cfg : RepoConfig) {s : ConfigState}
    (h₀ : s.repo.fails .saveConfig 0 = false) (h₁ : s.repo.fails .saveConfig 1 = false) :
    ∃ faults, after (saveConfig cfg) s =
      { s.withFaults faults with configYaml := .holds cfg } := by
  have hout := saveOutcome_saveConfig cfg s
  cases hrun : saveConfig cfg s with
  | ok u s' =>
    rw [hrun] at hout
    obtain ⟨-, -, faults, -, rfl⟩ := hout
    exact ⟨faults, after_of_ok hrun⟩
  | error e s' =>
    rw [hrun] at hout
    obtain ⟨faults, ⟨hfails, -⟩ | ⟨-, hfails, -⟩⟩ := hout
    · rw [h₀] at hfails
      cases hfails
    · rw [h₁] at hfails
      cases hfails

/-- Replacing the remote when no step fails. -/
theorem after_updateOstreeRepoConfig (cfg : RepoConfig) {s : ConfigState}
    (h₀ : s.repo.fails .remoteChange 0 = false) (h₁ : s.repo.fails .remoteChange 1 = false)
    (h₂ : s.repo.fails .writeConfig 0 = false) :
    ∃ faults, (∀ n, (faults .saveConfig).getD n false = s.repo.fails .saveConfig n) ∧
      after (updateOstreeRepoConfig cfg) s =
        { s.withFaults faults with ostreeRemotes := s.withRemote cfg } := by
  have hout := remoteOutcome_updateOstreeRepoConfig cfg s
  cases hrun : updateOstreeRepoConfig cfg s with
  | ok u s' =>
    rw [hrun] at hout
    obtain ⟨-, -, -, faults, huses, rfl⟩ := hout
    refine ⟨faults, fun n => (huses .saveConfig n).trans ?_, after_of_ok hrun⟩
    show s.repo.fails .saveConfig (0 + n) = _
    rw [Nat.zero_add]
  | error e s' =>
    rw [hrun] at hout
    obtain ⟨faults, -, ⟨hfails, -⟩ | ⟨-, hfails, -⟩ | ⟨-, -, hfails, -⟩⟩ := hout
    · rw [h₀] at hfails
      cases hfails
    · rw [h₁] at hfails
      cases hfails
    · rw [h₂] at hfails
      cases hfails

/-- The remotes after both updates are those before exactly if they were set
    this way. -/
theorem remotesSet_iff {s : ConfigState} {cfg : RepoConfig} :
    (∀ name, (withRemote { s with ostreeRemotes := s.withRemote cfg } s.cfg).lookup name =
      s.ostreeRemotes.lookup name) ↔ s.RemotesSet cfg := by
  -- the second update is for the current remote, so that it has the last word
  have hlookup : ∀ name,
      (withRemote { s with ostreeRemotes := s.withRemote cfg } s.cfg).lookup name =
        if name = s.cfg.defaultRepo then some s.cfg.remoteUrl
        else if name = cfg.defaultRepo then some cfg.remoteUrl
        else s.ostreeRemotes.lookup name := by
    intro name
    refine (lookup_set _ _ _ _).trans ?_
    split
    · rfl
    · exact lookup_set _ _ _ _
  constructor
  · intro h
    refine ⟨?_, fun hne => ?_⟩
    · rw [← h, hlookup, if_pos rfl]
    · rw [← h, hlookup, if_neg hne, if_pos rfl]
  · rintro ⟨hcurrent, hnew⟩ name
    rw [hlookup]
    split
    · next hname => rw [hname, hcurrent]
    · next hname =>
      split
      · next hname' =>
        subst hname'
        rw [hnew hname]
      · rfl

theorem sameConfig_iff {s s' : ConfigState} (hcfg : s'.cfg = s.cfg)
    (hcache : s'.cacheConfig = s.cacheConfig) (hlayers : s'.repo.layers = s.repo.layers)
    (hmerged : s'.repo.merged = s.repo.merged) :
    SameConfig s s' ↔ s'.configYaml = s.configYaml ∧
      ∀ name, s'.ostreeRemotes.lookup name = s.ostreeRemotes.lookup name := by
  constructor
  · intro h
    exact ⟨h.configYaml, h.remotes⟩
  · rintro ⟨hyaml, hremotes⟩
    exact ⟨hyaml, hremotes, hcfg, hcache, hlayers, hmerged⟩

/-- An error of this kind leaves everything as it was. -/
def Undone (m : ConfigM Unit) (s : ConfigState) : Prop :=
  ∀ e s', m s = .error e s' → SameConfig s s'

theorem undone_of_error {m : ConfigM Unit} {s s' : ConfigState} {e : String}
    (h : m s = .error e s') : Undone m s ↔ SameConfig s s' := by
  constructor
  · intro hundone
    exact hundone e s' h
  · intro hsame e' s'' h'
    rw [h] at h'
    cases h'
    exact hsame

section Stages

variable {s : ConfigState} {cfg : RepoConfig} {faults : Step → List Bool} {e : String}
  {s₁ : ConfigState}

/-- The remote could not be replaced: only `config.yaml` is put back. -/
theorem undone_remote_iff (hundo : s.UndoSucceeds) (huses : s.repo.Uses usedByFirst faults)
    (h : updateOstreeRepoConfig cfg (s.saved cfg faults) = .error e s₁)
    (hrun : setConfig cfg s = .error e (after (saveConfig s₁.cfg) s₁)) :
    (s.repo.fails .remoteChange 0 = false → s.repo.fails .remoteChange 1 = false →
      s.repo.fails .writeConfig 0 = true) ∧
    (Undone (setConfig cfg) s ↔
      if s.repo.fails .remoteChange 0 then s.configYaml = .holds s.cfg
      else if s.repo.fails .remoteChange 1 then
        s.configYaml = .holds s.cfg ∧ s.ostreeRemotes.lookup cfg.defaultRepo = none
      else s.configYaml = .holds s.cfg ∧
        s.ostreeRemotes.lookup cfg.defaultRepo = some cfg.remoteUrl) := by
  have hout := remoteOutcome_updateOstreeRepoConfig cfg (s.saved cfg faults)
  rw [h] at hout
  obtain ⟨faults₂, hkeep, hcases⟩ := hout
  have hstate : s₁.cfg = s.cfg ∧ s₁.repo.faults = faults₂ := by
    rcases hcases with ⟨-, rfl⟩ | ⟨-, -, rfl⟩ | ⟨-, -, -, rfl⟩ <;> exact ⟨rfl, rfl⟩
  have hsave : ∀ n, s₁.repo.fails .saveConfig n = s.repo.fails .saveConfig (2 + n) := by
    intro n
    unfold Repo.fails
    rw [hstate.2]
    exact (hkeep n).trans (huses .saveConfig n)
  obtain ⟨faults₃, hafter⟩ := after_saveConfig s.cfg ((hsave 0).trans hundo.saveConfig.1)
    ((hsave 1).trans hundo.saveConfig.2)
  rw [hstate.1] at hrun
  rw [undone_of_error hrun, hafter]
  have hfails : ∀ k, k ≠ .saveConfig → ∀ n, (s.saved cfg faults).repo.fails k n =
      s.repo.fails k n := by
    intro k hk n
    refine (huses k n).trans ?_
    rw [usedByFirst, if_neg hk, Nat.zero_add]
  rw [hfails _ (by decide), hfails _ (by decide), hfails _ (by decide)] at hcases
  -- what has been changed before the failing step stays changed
  rcases hcases with ⟨h₀, rfl⟩ | ⟨h₀, h₁, rfl⟩ | ⟨h₀, h₁, hwrite, rfl⟩
  · refine ⟨fun hnot => absurd (hnot.symm.trans h₀) (by decide), ?_⟩
    rw [if_pos h₀]
    refine Iff.trans (sameConfig_iff rfl rfl rfl rfl) ?_
    exact ⟨fun h => h.1.symm, fun h => ⟨h.symm, fun _ => rfl⟩⟩
  · refine ⟨fun _ hnot => absurd (hnot.symm.trans h₁) (by decide), ?_⟩
    simp only [h₀, h₁, Bool.false_eq_true, if_false, if_true]
    exact Iff.trans (sameConfig_iff rfl rfl rfl rfl) (and_congr eq_comm filter_same_iff)
  · refine ⟨fun _ _ => hwrite, ?_⟩
    simp only [h₀, h₁, Bool.false_eq_true, if_false]
    exact Iff.trans (sameConfig_iff rfl rfl rfl rfl) (and_congr eq_comm set_same_iff)

/-- The cache could not be rebuilt: remote and `config.yaml` are put back. -/
theorem undone_rebuild_iff (hundo : s.UndoSucceeds) (huses : s.repo.Uses usedBySecond faults)
    (h : rebuildCache cfg (s.served cfg faults) = .error e s₁)
    (hrun : setConfig cfg s = orUndo (orUndo (do
      rebuildCache cfg
      keepConfig cfg) updateOstreeRepoConfig) saveConfig (s.served cfg faults)) :
    Undone (setConfig cfg) s ↔ s.configYaml = .holds s.cfg ∧ s.RemotesSet cfg ∧
      s.cacheConfig = cfg ∧
      s.repo.layers = if s.repo.fails .listRefs 0 then [] else s.rebuilt := by
  have hout := rebuildOutcome_rebuildCache cfg (s.served cfg faults)
  rw [h] at hout
  obtain ⟨faults₁, hkeep, hcases⟩ := hout
  have hlist : (s.served cfg faults).repo.fails .listRefs 0 = s.repo.fails .listRefs 0 :=
    huses .listRefs 0
  rw [hlist, rebuilt_served huses] at hcases
  have hstate : s₁ = { s.served cfg faults with
      cacheConfig := cfg
      repo := { s.repo with
        layers := if s.repo.fails .listRefs 0 then [] else s.rebuilt, faults := faults₁ } } := by
    rcases hcases with ⟨hfails, rfl⟩ | ⟨hfails, -, -, rfl⟩ <;> rw [hfails] <;> rfl
  -- the actions find the faults that follow
  have hnext : ∀ k, k ≠ .listRefs → k ≠ .readCommit → k ≠ .writeCache → ∀ n,
      s₁.repo.fails k n = s.repo.fails k (usedBySecond k + n) := by
    intro k hk hk' hk'' n
    rw [hstate, Repo.fails]
    show (faults₁ k).getD n false = _
    rw [hkeep k hk hk' hk'']
    exact huses k n
  have hnextSave := hnext .saveConfig (by decide) (by decide) (by decide)
  have hnextRemote := hnext .remoteChange (by decide) (by decide) (by decide)
  have hnextWrite := hnext .writeConfig (by decide) (by decide) (by decide)
  obtain ⟨faults₂, hsave, hafter⟩ := after_updateOstreeRepoConfig s.cfg
    ((hnextRemote 0).trans hundo.remoteChange.1) ((hnextRemote 1).trans hundo.remoteChange.2)
    ((hnextWrite 0).trans hundo.writeConfig)
  obtain ⟨s₂, hs₂⟩ : ∃ s₂ : ConfigState, s₂ =
      { s₁.withFaults faults₂ with ostreeRemotes := s₁.withRemote s.cfg } := ⟨_, rfl⟩
  have hsave₂ : ∀ n, s₂.repo.fails .saveConfig n = s.repo.fails .saveConfig (2 + n) := by
    intro n
    rw [hs₂]
    exact (hsave n).trans (hnextSave n)
  obtain ⟨faults₃, hafter₂⟩ := after_saveConfig s.cfg ((hsave₂ 0).trans hundo.saveConfig.1)
    ((hsave₂ 1).trans hundo.saveConfig.2)
  have hcfg : s₁.cfg = s.cfg := by rw [hstate]; rfl
  have hcfg₂ : s₂.cfg = s.cfg := by rw [hs₂, ← hcfg]; rfl
  have herror : setConfig cfg s = .error e (after (saveConfig s.cfg) s₂) := by
    rw [hrun, orUndo_run, orUndo_run, bind_of_error h]
    simp only [hcfg, hafter, ← hs₂, hcfg₂]
  rw [undone_of_error herror, hafter₂, hs₂, hstate]
  rw [← remotesSet_iff]
  constructor
  · intro hsame
    exact ⟨hsame.configYaml.symm, hsame.remotes, hsame.cacheConfig.symm, hsame.layers.symm⟩
  · rintro ⟨hyaml, hremotes, hcache, hlayers⟩
    exact ⟨hyaml.symm, hremotes, rfl, hcache.symm, hlayers.symm, rfl⟩

end Stages

/-- **Failures of `setConfig`.** If the actions of the transaction succeed, an
    error leaves everything as it was under exactly this condition. -/
theorem setConfig_undone_iff {s : ConfigState} (hundo : s.UndoSucceeds) (cfg : RepoConfig) :
    (∀ e s', setConfig cfg s = .error e s' → SameConfig s s') ↔ s.UndoneIf cfg := by
  show Undone (setConfig cfg) s ↔ _
  unfold UndoneIf
  -- the first stage fails, or the second one, or the cache is rebuilt
  rcases setConfig_stages cfg s with ⟨e, s₁, hsave, hrun⟩ |
    ⟨faults, huses, h₀, h₁, ⟨e, s₁, hremote, hrun⟩ | ⟨faults₂, huses₂, hr₀, hr₁, hw, hrun⟩⟩
  · have hout := saveOutcome_saveConfig cfg s
    rw [hsave] at hout
    rw [undone_of_error hrun]
    obtain ⟨faults, ⟨h₀, rfl⟩ | ⟨h₀, h₁, rfl⟩⟩ := hout
    · rw [if_pos h₀]
      exact iff_of_true ⟨rfl, fun _ => rfl, rfl, rfl, rfl, rfl⟩ trivial
    · simp only [h₀, h₁, Bool.false_eq_true, if_false, if_true]
      refine Iff.trans (sameConfig_iff rfl rfl rfl rfl) ?_
      exact ⟨fun h => h.1.symm, fun h => ⟨h.symm, fun _ => rfl⟩⟩
  · obtain ⟨hwrite, hiff⟩ := undone_remote_iff hundo huses hremote hrun
    rw [hiff]
    simp only [h₀, h₁, Bool.false_eq_true, if_false]
    cases hr₀ : s.repo.fails .remoteChange 0 with
    | true => rfl
    | false =>
      cases hr₁ : s.repo.fails .remoteChange 1 with
      | true => rfl
      | false => simp only [hwrite hr₀ hr₁, Bool.false_eq_true, if_false, if_true]
  · simp only [h₀, h₁, hr₀, hr₁, hw, Bool.false_eq_true, if_false]
    have hout := rebuildOutcome_rebuildCache cfg (s.served cfg faults₂)
    have hlist : (s.served cfg faults₂).repo.fails .listRefs 0 = s.repo.fails .listRefs 0 :=
      huses₂ .listRefs 0
    have hcache : (s.served cfg faults₂).repo.fails .writeCache 0 = s.repo.fails .writeCache 0 :=
      huses₂ .writeCache 0
    cases hrebuild : rebuildCache cfg (s.served cfg faults₂) with
    | ok u s₁ =>
      rw [hrebuild] at hout
      obtain ⟨hlist', hcache', -⟩ := hout
      rw [hlist] at hlist'
      rw [hcache] at hcache'
      have hnot : ¬ (s.isRoot = false ∧ s.repo.fails .writeCache 0 = true) := by
        rintro ⟨hroot, hfails⟩
        rw [hcache' hroot] at hfails
        cases hfails
      rw [hlist', if_neg hnot]
      refine iff_of_true (fun e s' herror => ?_) trivial
      rw [hrun, orUndo_run, orUndo_run, bind_of_ok hrebuild] at herror
      cases herror
    | error e s₁ =>
      rw [hrebuild] at hout
      rw [undone_rebuild_iff hundo huses₂ hrebuild hrun]
      obtain ⟨faults₃, -, ⟨hfails, -⟩ | ⟨hfails, hroot, hcache', -⟩⟩ := hout
      · rw [hlist] at hfails
        simp only [hfails, if_true]
      · rw [hlist] at hfails
        rw [hcache] at hcache'
        have hroot' : s.isRoot = false := hroot
        simp only [hfails, hroot', hcache', Bool.false_eq_true, and_self, if_false, if_true]

/-- A repository in which the first step of a kind fails. -/
def failingAt (step : Step) : ConfigState :=
  { ofLayers [editor none] with
    repo := { (ofLayers [editor none]).repo with
      faults := fun k => if k = step then [true] else [] } }

/-- The remote cannot be removed: `config.yaml`, which has the new URL by
    then, is put back. -/
theorem setConfig_undone_remoteChange :
    ∃ e s', setConfig (stableConfig "https://mirror") (failingAt .remoteChange) = .error e s' ∧
      SameConfig (failingAt .remoteChange) s' ∧
      s'.configYaml ≠
        (after (saveConfig (stableConfig "https://mirror")) (failingAt .remoteChange)).configYaml := by
  have hundone := (setConfig_undone_iff (s := failingAt .remoteChange)
    ⟨⟨rfl, rfl⟩, ⟨rfl, rfl⟩, rfl⟩ (stableConfig "https://mirror")).2 rfl
  exact ⟨_, _, rfl, hundone _ _ rfl, by decide⟩

/-- The refs cannot be listed, and all items are lost from memory. -/
theorem not_setConfig_undone :
    ¬ ∀ (cfg : RepoConfig) (s : ConfigState), s.UndoSucceeds →
      ∀ e s', setConfig cfg s = .error e s' → SameConfig s s' := by
  intro h
  have hsame := h (stableConfig "https://mirror") (failingAt .listRefs)
    ⟨⟨rfl, rfl⟩, ⟨rfl, rfl⟩, rfl⟩ "ostree_repo_list_refs" _ rfl
  exact absurd hsame.layers (by decide)

end ConfigState

end Linglong
