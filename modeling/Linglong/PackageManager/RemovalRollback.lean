import Linglong.PackageManager.Operations
import Linglong.Repo.Atomicity

/-! # Undoing Removals

    `UninstallRef` and `removeAfterInstall` remove the modules of a reference
    one after the other. When a removal fails, the earlier ones are undone,
    newest first, and each undo is a pull from the default repository.

    A pull knows nothing of the layer that was removed. It brings the commit
    that the default repository has now, unmarked and under the default
    repository's name, or nothing. A layer that was imported from a file is
    not there at all. And the removal that fails is not undone: if only
    `states.json` could not be written, its item is gone.

    1. The two calls, and what a failing one has removed.
    2. What the default repository has.
    3. The cache after the removals and after the pulls.
    4. The exact condition (`restored_iff`).
-/

namespace Linglong

open Framework RepositoryCacheLayersItem

/-! ## Section 1: Failing calls -/

/-- A call that removes modules and undoes this. -/
inductive RemovalCall where
  | uninstallRef (task : PackageTask)
  | removeAfterInstall (containers : Containers)

namespace RemovalCall

/-- The repository after the call. -/
def repo (ref : Reference) (modules : List String) (s : Repo) : RemovalCall → Repo
  | uninstallRef task => (Job.uninstallRef ⟨s, task⟩ ref modules).repo
  | removeAfterInstall containers => (s.removeAfterInstall containers ref modules).1

/-- The call gets to its loop: the task is not done, the old version is not
    in use. -/
def Starts (ref : Reference) : RemovalCall → Prop
  | uninstallRef task => isTaskDone task.subState = false
  | removeAfterInstall containers => isRefBusy containers ref = .ok false

/-- The module that `remove` is asked for in the round for a module. -/
def asked : RemovalCall → String → String
  | uninstallRef _, module => module
  | removeAfterInstall _, _ => "binary"

/-- The loop of the call. -/
def loop (call : RemovalCall) (ref : Reference) (modules : List String)
    (actions : List (Repo → Repo)) (s : Repo) : Repo × Except String Unit :=
  match call with
  | uninstallRef _ => Repo.uninstallLoop ref modules actions s
  | removeAfterInstall _ => Repo.removeLoop ref modules actions s

/-- The modules whose removals succeed before the first failure. -/
def removedModules (call : RemovalCall) (ref : Reference) : List String → Repo → List String
  | [], _ => []
  | module :: rest, s =>
      match Repo.remove ref (call.asked module) none s with
      | .error _ _ => []
      | .ok _ s => module :: call.removedModules ref rest s

/-- The module whose removal fails, and the repository in which it starts. -/
def failure (call : RemovalCall) (ref : Reference) : List String → Repo → Option (String × Repo)
  | [], _ => none
  | module :: rest, s =>
      match Repo.remove ref (call.asked module) none s with
      | .error _ _ => some (module, s)
      | .ok _ s => call.failure ref rest s

theorem loop_cons (call : RemovalCall) (ref : Reference) (module : String) (rest : List String)
    (actions : List (Repo → Repo)) (s : Repo) :
    call.loop ref (module :: rest) actions s =
      match Repo.remove ref (call.asked module) none s with
      | .error e s => (rollback actions s, .error e)
      | .ok _ s => call.loop ref rest (Repo.undoRemove ref module :: actions) s := by
  cases call <;> rfl

/-- **Run**: a failing loop undoes what it has removed, newest first. -/
theorem loop_of_failure {call : RemovalCall} {ref : Reference} {modules : List String} {s : Repo}
    {module : String} {s₁ : Repo} (h : call.failure ref modules s = some (module, s₁))
    (actions : List (Repo → Repo)) :
    ∃ e s₂, Repo.remove ref (call.asked module) none s₁ = .error e s₂ ∧
      call.loop ref modules actions s =
        (rollback ((call.removedModules ref modules s).reverse.map (Repo.undoRemove ref) ++ actions)
          s₂, .error e) := by
  induction modules generalizing s actions with
  | nil => cases h
  | cons first rest ih =>
    rw [loop_cons]
    unfold failure at h
    unfold removedModules
    cases hrun : Repo.remove ref (call.asked first) none s with
    | error e s' =>
      rw [hrun] at h
      cases h
      exact ⟨e, s', hrun, rfl⟩
    | ok _ s' =>
      rw [hrun] at h
      obtain ⟨e, s₂, hfails, hloop⟩ := ih h (Repo.undoRemove ref first :: actions)
      refine ⟨e, s₂, hfails, ?_⟩
      simp only [hloop, List.reverse_cons, List.map_append, List.append_assoc]
      rfl

/-- A loop fails iff a removal does. -/
theorem loop_error_iff {call : RemovalCall} {ref : Reference} {modules : List String} {s : Repo}
    {actions : List (Repo → Repo)} :
    (∃ e, (call.loop ref modules actions s).2 = .error e) ↔
      (call.failure ref modules s).isSome = true := by
  induction modules generalizing s actions with
  | nil => cases call <;> simp [loop, failure, Repo.uninstallLoop, Repo.removeLoop]
  | cons first rest ih =>
    rw [loop_cons]
    unfold failure
    cases Repo.remove ref (call.asked first) none s with
    | error e s' => simp
    | ok _ s' => exact ih

/-- The call leaves what its loop leaves. -/
theorem repo_of_failure {call : RemovalCall} {ref : Reference} {modules : List String} {s : Repo}
    (hstarts : call.Starts ref) (h : (call.failure ref modules s).isSome = true) :
    call.repo ref modules s = (call.loop ref modules [] s).1 := by
  obtain ⟨e, he⟩ := loop_error_iff.2 h
  cases call with
  | uninstallRef task =>
    have hnot : ¬ (Job.isDone ⟨s, task⟩ = true) := by
      rw [Job.isDone, hstarts]
      exact Bool.false_ne_true
    show (Job.uninstallRef ⟨s, task⟩ ref modules).repo = (Repo.uninstallLoop ref modules [] s).1
    unfold Job.uninstallRef
    rw [if_neg hnot]
    simp only [Job.call]
    split <;> simp_all [Job.fail, Job.call]
  | removeAfterInstall containers =>
    show (s.removeAfterInstall containers ref modules).1 = (Repo.removeLoop ref modules [] s).1
    unfold Repo.removeAfterInstall
    rw [hstarts]
    simp only
    split
    · next heq => rw [heq]
    · next heq =>
      have hok : (Repo.removeLoop ref modules [] s).2 = .error e := he
      rw [heq] at hok
      cases hok

end RemovalCall

namespace Repo

/-! ## Section 2: The default repository -/

/-- The commit that the default repository has for a module: under the new
    name or, for `binary` and `runtime`, under the old one. -/
def remoteCommit (remote : OstreeRef → Option String) (ref : Reference) (module : String) :
    Option String :=
  match remote (ostreeSpecFromReferenceV2 ref module none) with
  | some commit => some commit
  | none =>
      if module = "binary" ∨ module = "runtime" then remote (ostreeSpecFromReference ref module)
      else none

/-- The layer that a pull of the module brings. -/
def remoteLayer (s : Repo) (remote : OstreeRef → Option String) (ref : Reference)
    (module : String) : Option RepositoryCacheLayersItem :=
  (remoteCommit remote ref module).bind fun commit =>
    (s.outside.commitInfo commit).toOption.map fun info => ⟨commit, none, info, s.defaultRepo⟩

/-- The pulls of a rollback: each brings the layer of the default repository,
    or nothing if there is none. -/
def PullsBack (s : Repo) (remote : OstreeRef → Option String) (ref : Reference) :
    List String → Repo → Prop
  | [], _ => True
  | module :: rest, s' =>
      (s'.pull ref module).1.layers = s'.layers ++ (s.remoteLayer remote ref module).toList ∧
        PullsBack s remote ref rest (s'.pull ref module).1

/-- A pull that reports no error and finds the commit that it has fetched
    brings this layer. -/
theorem pull_brings {s : Repo} {ref : Reference} {module : String} {name : OstreeRef}
    {commit : String} (hquiet : ¬ Reports (s.pull ref module).2)
    (hfetches : s.fetches ref module = some (name, some commit))
    (hfound : s.outside.resolveRev (s.setRef ⟨s.defaultRepo, name⟩ commit).ostreeRefs name =
      some commit) :
    ∃ info, s.outside.commitInfo commit = .ok info ∧
      (s.pull ref module).1.layers = s.layers ++ [⟨commit, none, info, s.defaultRepo⟩] := by
  obtain ⟨name', commit', item, pulls, hfetches', hitem, hchecked⟩ := pull_ok hquiet
  rw [hfetches] at hfetches'
  cases hfetches'
  have hresolve : (s.arrived name (some commit)).outside.resolveRev
      (s.arrived name (some commit)).ostreeRefs name = some commit := hfound
  unfold pulledItem at hitem
  rw [hresolve] at hitem
  have hinfo : (s.outside.commitInfo commit).map
      (fun info => (⟨commit, none, info, s.defaultRepo⟩ : RepositoryCacheLayersItem)) =
      .ok item := hitem
  cases hread : s.outside.commitInfo commit with
  | error e =>
    rw [hread] at hinfo
    cases hinfo
  | ok info =>
    rw [hread] at hinfo
    cases hinfo
    exact ⟨info, rfl, hchecked.layers⟩

/-- **Run**: the pulls of a rollback. -/
theorem layers_of_pullsBack {s : Repo} {remote : OstreeRef → Option String} {ref : Reference}
    {modules : List String} {s' : Repo} (h : PullsBack s remote ref modules s') :
    (rollback (modules.map (undoRemove ref)) s').layers =
      s'.layers ++ modules.filterMap (s.remoteLayer remote ref) := by
  induction modules generalizing s' with
  | nil => simp
  | cons module rest ih =>
    obtain ⟨hpull, hrest⟩ := h
    rw [List.map_cons, rollback_cons]
    have hlayers := ih hrest
    rw [hpull, List.append_assoc] at hlayers
    refine hlayers.trans ?_
    cases hremote : s.remoteLayer remote ref module with
    | none => rw [List.filterMap_cons_none hremote]; rfl
    | some layer => rw [List.filterMap_cons_some hremote]; rfl

/-! ## Section 3: Removals -/

/-- The layers that `getLayerItem` finds for one module after the other, each
    without the ones before. -/
def foundLayers (ref : Reference) : List String → Repo → List RepositoryCacheLayersItem
  | [], _ => []
  | module :: rest, s =>
      match s.getLayerItem ref module none with
      | .error _ => []
      | .ok layer =>
          (s.layers.find? layer.matchesItem).toList ++
            foundLayers ref rest { s with layers := s.layers.eraseP layer.matchesItem }

/-- Only the items and the order of sorting count. -/
theorem foundLayers_congr {ref : Reference} {modules : List String} {s s' : Repo}
    (hlayers : s'.layers = s.layers) (houtside : s'.outside = s.outside) :
    foundLayers ref modules s' = foundLayers ref modules s := by
  induction modules generalizing s s' with
  | nil => rfl
  | cons module rest ih =>
    have hitem : s'.getLayerItem ref module none = s.getLayerItem ref module none := by
      unfold getLayerItem queryLayerItem
      rw [hlayers, houtside]
    unfold foundLayers
    rw [hitem]
    cases s.getLayerItem ref module none with
    | error e => rfl
    | ok layer =>
      simp only
      rw [hlayers]
      congr 1
      exact ih rfl houtside

/-- A removal that succeeds takes the first match of the layer it finds. -/
theorem remove_ok_layers {ref : Reference} {module : String} {s s' : Repo}
    (h : remove ref module none s = .ok () s') :
    ∃ layer, s.getLayerItem ref module none = .ok layer ∧
      s'.layers = s.layers.eraseP layer.matchesItem ∧ s'.outside = s.outside := by
  rcases remove_cases ref module none s with
    ⟨e, faults, -, hrun, -⟩ | ⟨layer, faults, json, dirs, -, hfound, hafter, -, -⟩
  · rw [h] at hrun
    cases hrun
  · rw [after_of_ok h] at hafter
    exact ⟨layer, hfound, by rw [hafter]; rfl, by rw [hafter]; rfl⟩

/-- **Run**: the layers of the removed modules are what is missing when the
    failing removal starts. -/
theorem layers_of_failure {call : RemovalCall} {ref : Reference} {modules : List String}
    {s : Repo} {module : String} {s₁ : Repo}
    (h : call.failure ref modules s = some (module, s₁)) :
    (foundLayers ref ((call.removedModules ref modules s).map call.asked) s ++ s₁.layers).Perm
      s.layers ∧
    (foundLayers ref ((call.removedModules ref modules s).map call.asked) s).length =
      (call.removedModules ref modules s).length := by
  induction modules generalizing s with
  | nil => cases h
  | cons first rest ih =>
    unfold RemovalCall.failure at h
    unfold RemovalCall.removedModules
    cases hrun : remove ref (call.asked first) none s with
    -- the failing removal starts here
    | error e s' =>
      rw [hrun] at h
      cases h
      exact ⟨List.Perm.refl _, rfl⟩
    | ok _ s' =>
      rw [hrun] at h
      obtain ⟨hperm, hlength⟩ := ih h
      obtain ⟨layer, hlayer, hlayers, houtside⟩ := remove_ok_layers hrun
      have hmem : layer ∈ s.layers := (mem_layersOf.1 (getLayerItem_mem hlayer).1).1
      -- the first layer that matches is the one that goes
      obtain ⟨b, hfind, -, -, hfirst⟩ := exists_first_match hmem
      have hrest : foundLayers ref ((call.removedModules ref rest s').map call.asked)
          { s with layers := s.layers.eraseP layer.matchesItem } =
          foundLayers ref ((call.removedModules ref rest s').map call.asked) s' :=
        foundLayers_congr hlayers.symm houtside.symm
      simp only [List.map_cons, foundLayers, hlayer, hrest, hfind, Option.toList_some,
        List.cons_append, List.nil_append, List.length_cons]
      rw [hlayers] at hperm
      exact ⟨(hperm.cons b).trans hfirst, by omega⟩

/-- The failing removal leaves the items alone, or it has erased one. -/
theorem layers_of_remove_error {ref : Reference} {module : String} {s s' : Repo} {e : String}
    (h : remove ref module none s = .error e s') :
    (s.CleanRemove ref module none ∧ s'.layers = s.layers) ∨
      (¬ s.CleanRemove ref module none ∧ s'.layers.length + 1 = s.layers.length) := by
  have hclean := atomicRun_remove_iff s ref module none
  rw [atomicRun_of_error h] at hclean
  by_cases hc : s.CleanRemove ref module none
  · exact .inl ⟨hc, (hclean.2 hc).layers⟩
  · right
    refine ⟨hc, ?_⟩
    rcases remove_cases ref module none s with
      ⟨e', faults, -, hrun, -⟩ | ⟨layer, faults, json, dirs, -, hfound, hafter, -, -⟩
    · rw [h] at hrun
      cases hrun
      exact absurd (hclean.1 ⟨fun _ => rfl, fun _ => rfl, rfl⟩) hc
    · rw [after_of_error h] at hafter
      have hmem : layer ∈ s.layers := (mem_layersOf.1 (getLayerItem_mem hfound).1).1
      have hlength := List.length_eraseP_of_mem hmem (p := layer.matchesItem) (by simp)
      have hpos := List.length_pos_of_mem hmem
      rw [hafter]
      show (s.layers.eraseP layer.matchesItem).length + 1 = _
      omega

/-! ## Section 4: The exact condition -/

/-- **Undoing removals.** A call that fails leaves the same items behind
    under exactly this condition. -/
theorem restored_iff {call : RemovalCall} {ref : Reference} {modules : List String} {s : Repo}
    {module : String} {s₁ : Repo} {remote : OstreeRef → Option String}
    (hstarts : call.Starts ref) (hfailure : call.failure ref modules s = some (module, s₁))
    (hpulls : PullsBack s remote ref (call.removedModules ref modules s).reverse
      (after (remove ref (call.asked module) none) s₁)) :
    (call.repo ref modules s).layers.Perm s.layers ↔
      s₁.CleanRemove ref (call.asked module) none ∧
        ((call.removedModules ref modules s).filterMap (s.remoteLayer remote ref)).Perm
          (foundLayers ref ((call.removedModules ref modules s).map call.asked) s) := by
  obtain ⟨e, s₂, hfails, hloop⟩ := RemovalCall.loop_of_failure hfailure []
  rw [after_of_error hfails] at hpulls
  have hrepo := RemovalCall.repo_of_failure (s := s) hstarts (by rw [hfailure]; rfl)
  obtain ⟨hmissing, hcount⟩ := layers_of_failure hfailure
  have hend := layers_of_pullsBack hpulls
  rw [hrepo, hloop, List.append_nil, hend, List.filterMap_reverse]
  have hpulled : (call.removedModules ref modules s).filterMap (s.remoteLayer remote ref) |>.reverse
      |>.Perm ((call.removedModules ref modules s).filterMap (s.remoteLayer remote ref)) :=
    List.reverse_perm _
  rcases layers_of_remove_error hfails with ⟨hclean, hlayers⟩ | ⟨hnot, hlength⟩
  · -- the failing removal has changed nothing: what was pulled must be what was removed
    rw [hlayers]
    have hsame := (hpulled.append_left s₁.layers).trans List.perm_append_comm
    constructor
    · intro hperm
      refine ⟨hclean, ?_⟩
      exact (List.perm_append_right_iff s₁.layers).1
        (hsame.symm.trans (hperm.trans hmissing.symm))
    · rintro ⟨-, hperm⟩
      exact hsame.trans ((hperm.append_right s₁.layers).trans hmissing)
  · -- one layer is gone for good
    refine iff_of_false (fun hperm => ?_) fun h => hnot h.1
    have hall := hmissing.length_eq
    have hafter := hperm.length_eq
    have hle := List.length_filterMap_le (s.remoteLayer remote ref)
      (call.removedModules ref modules s)
    rw [List.length_append] at hall hafter
    rw [List.length_reverse] at hafter
    omega

/-- What comes back is not marked, and it is what the default repository has:
    a layer that was imported from a file does not. -/
theorem offered_of_perm {s : Repo} {remote : OstreeRef → Option String} {ref : Reference}
    {modules : List String} {found : List RepositoryCacheLayersItem}
    (h : (modules.filterMap (s.remoteLayer remote ref)).Perm found)
    {layer : RepositoryCacheLayersItem} (hlayer : layer ∈ found) :
    layer.deleted = none ∧ layer.repo = s.defaultRepo ∧
      ∃ module ∈ modules, remoteCommit remote ref module = some layer.commit := by
  obtain ⟨module, hmodule, hremote⟩ := List.mem_filterMap.1 (h.mem_iff.2 hlayer)
  unfold remoteLayer at hremote
  obtain ⟨commit, hcommit, hmap⟩ := Option.bind_eq_some_iff.1 hremote
  obtain ⟨info, -, rfl⟩ := Option.map_eq_some_iff.1 hmap
  exact ⟨rfl, rfl, module, hmodule, hcommit⟩

/-- An app from the given repository. -/
def appFrom (repo : String) (pulls : List PullReply) : Repo :=
  .ofLayers (.ofCommits [("c1", .onMain "org.player" "1.0.0.0" "binary")])
    [⟨"c1", none, .onMain "org.player" "1.0.0.0" "binary", repo⟩] pulls []

/-- The default repository has its layer. -/
def offeredApp : Repo := appFrom "stable" [⟨[], fun _ => .ok "c1"⟩]

def offeredRef : Reference := .onMain "org.player" 0 (by decide)

def uninstallCall : RemovalCall :=
  .uninstallRef (.create "1" (.single "stable:main/org.player/x86_64/binary"))

/-- `develop` is not installed, so its removal fails and `binary` is pulled
    again. -/
theorem restored_offeredApp :
    (uninstallCall.repo offeredRef ["binary", "develop"] offeredApp).layers.Perm
      offeredApp.layers := by
  have hfailure : uninstallCall.failure offeredRef ["binary", "develop"] offeredApp =
      some ("develop", after (remove offeredRef "binary" none) offeredApp) := rfl
  have hpulls : PullsBack offeredApp (fun _ => some "c1") offeredRef ["binary"]
      (after (remove offeredRef "develop" none) (after (remove offeredRef "binary" none)
        offeredApp)) := ⟨by decide, trivial⟩
  have hstarts : uninstallCall.Starts offeredRef := rfl
  refine (restored_iff hstarts hfailure hpulls).2 ⟨fun layer hlayer => ?_, by decide⟩
  -- the failing removal finds nothing
  have hnone : ((after (remove offeredRef "binary" none) offeredApp).getLayerItem offeredRef
      "develop" none).toOption = none := by decide
  have hsome := congrArg Except.toOption hlayer
  exact absurd (hnone.symm.trans hsome) (by simp [Except.toOption])

/-- A layer that was imported from a file is lost. -/
theorem not_restored :
    ¬ ∀ (call : RemovalCall) (ref : Reference) (modules : List String) (s : Repo)
      (module : String) (s₁ : Repo) (remote : OstreeRef → Option String), call.Starts ref →
      call.failure ref modules s = some (module, s₁) → call.removedModules ref modules s ≠ [] →
      PullsBack s remote ref (call.removedModules ref modules s).reverse
        (after (remove ref (call.asked module) none) s₁) →
      (call.repo ref modules s).layers.Perm s.layers := by
  intro h
  have hpulls : PullsBack (appFrom "local" []) (fun _ => none) offeredRef ["binary"]
      (after (remove offeredRef "develop" none) (after (remove offeredRef "binary" none)
        (appFrom "local" []))) := ⟨by decide, trivial⟩
  have hperm := h uninstallCall offeredRef ["binary", "develop"] (appFrom "local" []) "develop"
    (after (remove offeredRef "binary" none) (appFrom "local" [])) (fun _ => none) rfl rfl
    (by decide) hpulls
  exact absurd hperm (by decide)

end Repo

end Linglong
