import Mathlib.Data.Multiset.AddSub
import Linglong.PackageManager.RemovalRollback

/-! # Removing All Modules of a Reference

    `Uninstall` and `removeAfterInstall` take the modules of a reference from
    `getModuleList` and remove one layer for each. The cache may hold both
    `binary` and `runtime`. Both are looked up as `binary`, and `runtime` is
    found only when `binary` is gone.

    `UninstallRef` asks for the module of its round. The list is sorted, so
    `binary` is removed before `runtime`, and every round finds the layer it
    is meant for. `removeAfterInstall` asks for `binary` in every round, so
    it comes to an end only if there are no other modules.

    Neither the list nor the lookup compares the architecture. What is there
    of the same version for another architecture is removed, too, or two
    layers of one module make a round fail.

    1. Rounds, and what they remove.
    2. The lookup of one round.
    3. `Uninstall` (`uninstall_complete_iff`).
    4. `removeAfterInstall` (`removeAfterInstall_complete_iff`).
-/

namespace Linglong

open Framework RepositoryCacheLayersItem

/-! ## Section 1: Rounds -/

/-- No two layers of the reference are the same module; `binary` and
    `runtime` are two modules here. -/
def DistinctModules (view : List RepositoryCacheLayersItem) : Prop :=
  (view.map fun item => item.info.packageInfoV2Module).Nodup

theorem DistinctModules.of_perm {view view' : List RepositoryCacheLayersItem}
    (h : DistinctModules view) (hperm : view.Perm view') : DistinctModules view' := by
  unfold DistinctModules at h ⊢
  exact (hperm.map _).nodup_iff.1 h

/-- The item is one of the reference, which includes the architecture. -/
def isItemOf (ref : Reference) (item : RepositoryCacheLayersItem) : Bool :=
  item.isLayerOf ref && item.arch == ref.arch.toString

namespace Repo

/-- No layer of another architecture has the id, channel and version of the
    reference. -/
def SingleArch (s : Repo) (ref : Reference) : Prop :=
  ∀ item ∈ s.layers, item.isLayerOf ref = true → item.arch = ref.arch.toString

theorem SingleArch.isItemOf_eq {s : Repo} {ref : Reference} (h : s.SingleArch ref)
    {item : RepositoryCacheLayersItem} (hitem : item ∈ s.layers) :
    isItemOf ref item = item.isLayerOf ref := by
  unfold isItemOf
  cases hlayer : item.isLayerOf ref with
  | false => rfl
  | true => simpa using h item hitem hlayer

theorem SingleArch.filter_isItemOf {s : Repo} {ref : Reference} (h : s.SingleArch ref) :
    s.layers.filter (isItemOf ref) = s.view ref :=
  List.filter_congr fun _ hitem => h.isItemOf_eq hitem

/-- The steps of the removals succeed: a round fails only if no layer is
    found. -/
def RoundsSucceed (ref : Reference) : List String → Repo → Prop
  | [], _ => True
  | module :: rest, s =>
      match remove ref module none s with
      | .error _ _ => ∀ layer, s.getLayerItem ref module none ≠ .ok layer
      | .ok _ s' => RoundsSucceed ref rest s'

/-- What is gone from the cache after each round. -/
def removedItems (ref : Reference) : List String → Repo → List RepositoryCacheLayersItem
  | [], _ => []
  | module :: rest, s =>
      match remove ref module none s with
      | .error _ _ => []
      | .ok _ s' => s.layers.diff s'.layers ++ removedItems ref rest s'

/-- The items without those of the reference. -/
def layersOfOthers (ref : Reference) (s : Repo) : List RepositoryCacheLayersItem :=
  s.layers.filter fun item => !item.isLayerOf ref

/-- The list that `getModuleList` takes the names from. -/
def sortedView (s : Repo) (ref : Reference) : List RepositoryCacheLayersItem :=
  s.outside.sort.byModule (s.queryLayerItem (layerQuery ref none none))

theorem sortedView_perm (s : Repo) (ref : Reference) : (s.sortedView ref).Perm (s.view ref) := by
  unfold sortedView queryLayerItem queryItems
  rw [layerQuery_accepts_none]
  exact (s.outside.sort.byModule_perm _).trans (s.outside.sort.byVersion_perm _)

/-- After a module there is none that comes before it. -/
theorem sortedView_sorted (s : Repo) (ref : Reference) : (s.sortedView ref).Pairwise fun a b =>
    ¬ b.info.packageInfoV2Module < a.info.packageInfoV2Module :=
  s.outside.sort.byModule_sorted _

/-! ## Section 2: One round -/

theorem answers_eq_filter_view (s : Repo) (ref : Reference) (module : String) :
    answers ref module none s.layers =
      (s.view ref).filter fun item => item.info.packageInfoV2Module == module := by
  unfold answers view layersOf
  rw [List.filter_filter]
  congr 1
  funext item
  rw [layerQuery_accepts, Bool.and_comm]

/-- Every module is found, `runtime` only if `binary` is not there. -/
theorem getLayerItem_of_distinct {s : Repo} {ref : Reference}
    (hdistinct : DistinctModules (s.view ref)) {item : RepositoryCacheLayersItem}
    (hitem : item ∈ s.view ref)
    (hbinary : item.info.packageInfoV2Module = "runtime" →
      ∀ b ∈ s.view ref, b.info.packageInfoV2Module ≠ "binary") :
    s.getLayerItem ref item.info.packageInfoV2Module none = .ok item := by
  have hone : answers ref item.info.packageInfoV2Module none s.layers = [item] := by
    rw [answers_eq_filter_view]
    exact filter_eq_singleton hdistinct hitem (by simp) fun b _ hb => by simpa using hb
  rw [getLayerItem_answers]
  by_cases hruntime : item.info.packageInfoV2Module = "runtime"
  · right
    refine ⟨?_, by rw [hruntime]; rfl, hruntime ▸ hone⟩
    rw [hruntime, answers_eq_filter_view]
    refine List.filter_eq_nil_iff.2 fun b hb hname => ?_
    exact hbinary hruntime b hb (by simpa [normModule] using hname)
  · left
    rw [normModule, if_neg hruntime]
    exact hone

/-- A layer of the reference only matches layers of the reference. -/
theorem isLayerOf_of_matches {ref : Reference} {item : RepositoryCacheLayersItem}
    (hlayer : item.isLayerOf ref = true) (b : RepositoryCacheLayersItem)
    (hmatch : item.matchesItem b = true) : b.isLayerOf ref = true := by
  rw [isLayerOf_of_matchesItem hmatch, hlayer]

/-- Erasing the first match of a layer leaves the other references alone. -/
theorem others_eraseP_matches {ref : Reference} {item : RepositoryCacheLayersItem}
    (hlayer : item.isLayerOf ref = true) (layers : List RepositoryCacheLayersItem) :
    (layers.eraseP item.matchesItem).filter (fun b => !b.isLayerOf ref) =
      layers.filter fun b => !b.isLayerOf ref :=
  filter_eraseP_of_disjoint (fun b hmatch => by rw [isLayerOf_of_matches hlayer b hmatch]; rfl) _

/-- What is missing after the first match is erased. -/
theorem diff_eraseP_matches {ref : Reference} {layers : List RepositoryCacheLayersItem}
    (hdistinct : DistinctModules (layersOf ref layers)) {item : RepositoryCacheLayersItem}
    (hitem : item ∈ layersOf ref layers) :
    layers.diff (layers.eraseP item.matchesItem) = [item] ∧
      (item :: layers.eraseP item.matchesItem).Perm layers := by
  obtain ⟨hmem, hlayer⟩ := mem_layersOf.1 hitem
  obtain ⟨b, -, hb, hmatch, hsplit⟩ := exists_first_match hmem
  -- the first match is the item itself: no other layer has its module
  have hview : b ∈ layersOf ref layers :=
    mem_layersOf.2 ⟨hb, isLayerOf_of_matches hlayer b hmatch⟩
  obtain ⟨-, -, -, -, -, -, hmodule⟩ := matchesItem_iff.1 hmatch
  have hsame : b = item := List.inj_on_of_nodup_map hdistinct hview hitem hmodule.symm
  rw [hsame] at hsplit
  refine ⟨List.perm_singleton.1 (Multiset.coe_eq_coe.1 ?_), hsplit⟩
  have hcoe : (layers : Multiset RepositoryCacheLayersItem) =
      {item} + (layers.eraseP item.matchesItem : Multiset RepositoryCacheLayersItem) :=
    (Multiset.coe_eq_coe.2 hsplit).symm
  -- `diff` of lists is subtraction of multisets
  rw [← Multiset.coe_sub, hcoe, Multiset.add_sub_cancel_right]
  rfl

/-- A round that succeeds takes out one layer of the reference, with the module
    that was looked for. -/
theorem perm_of_remove {s s' : Repo} {ref : Reference} {module : String}
    (h : remove ref module none s = .ok () s') :
    ∃ b, (b :: s'.layers).Perm s.layers ∧ b.isLayerOf ref = true ∧
      b.moduleName = normModule module := by
  obtain ⟨layer, hfound, hlayers, -⟩ := remove_ok_layers h
  obtain ⟨hview, hmodule⟩ := getLayerItem_mem hfound
  obtain ⟨hmem, hlayer⟩ := mem_layersOf.1 hview
  obtain ⟨b, -, -, hmatch, hsplit⟩ := exists_first_match hmem
  -- it matches the layer that was found
  refine ⟨b, hlayers ▸ hsplit, isLayerOf_of_matches hlayer b hmatch, ?_⟩
  rw [moduleName_of_matchesItem hmatch, hmodule]

/-- **Step**: a round that is asked for the first of the remaining modules
    takes this layer out and nothing else. -/
theorem remove_first {s : Repo} {ref : Reference} {item : RepositoryCacheLayersItem}
    {rest : List RepositoryCacheLayersItem}
    (hdistinct : DistinctModules (item :: rest)) (hview : (s.view ref).Perm (item :: rest))
    (hsorted : ∀ b ∈ rest, ¬ b.info.packageInfoV2Module < item.info.packageInfoV2Module)
    (hround : ∀ e s', remove ref item.info.packageInfoV2Module none s = .error e s' →
      ∀ layer, s.getLayerItem ref item.info.packageInfoV2Module none ≠ .ok layer) :
    ∃ s', remove ref item.info.packageInfoV2Module none s = .ok () s' ∧
      s.layers.diff s'.layers = [item] ∧ (s'.view ref).Perm rest ∧
      layersOfOthers ref s' = layersOfOthers ref s := by
  have hdistinct' : DistinctModules (s.view ref) := hdistinct.of_perm hview.symm
  have hitem : item ∈ s.view ref := hview.mem_iff.2 (by simp)
  have hfound : s.getLayerItem ref item.info.packageInfoV2Module none = .ok item := by
    refine getLayerItem_of_distinct hdistinct' hitem fun hruntime b hb hbinary => ?_
    -- `binary` comes before `runtime`, so it would have been removed
    rcases List.mem_cons.1 (hview.mem_iff.1 hb) with rfl | hb
    · rw [hruntime] at hbinary
      exact absurd hbinary (by decide)
    · have hlt := hsorted b hb
      rw [hruntime, hbinary] at hlt
      exact hlt (by decide)
  cases hrun : remove ref item.info.packageInfoV2Module none s with
  | error e s' => exact absurd hfound (hround e s' hrun item)
  | ok u s' =>
    -- the layer that was removed is the one that was looked up
    obtain ⟨layer, hlayer, hlayers, -⟩ := remove_ok_layers hrun
    rw [hfound] at hlayer
    cases hlayer
    obtain ⟨hdiff, hsplit⟩ := diff_eraseP_matches hdistinct' hitem
    have hlayer : item.isLayerOf ref = true := (mem_layersOf.1 hitem).2
    refine ⟨s', rfl, by rw [hlayers, hdiff], ?_, ?_⟩
    · have hleft := hsplit.filter (isLayerOf ref)
      rw [List.filter_cons_of_pos hlayer] at hleft
      show (layersOf ref s'.layers).Perm rest
      rw [hlayers]
      exact (hleft.trans hview).cons_inv
    · unfold layersOfOthers
      rw [hlayers]
      exact others_eraseP_matches hlayer _

/-- **Run**: the loop takes the layers out in the order of the list. -/
theorem uninstallLoop_view {ref : Reference} {items : List RepositoryCacheLayersItem} {s : Repo}
    (hdistinct : DistinctModules items) (hview : (s.view ref).Perm items)
    (hsorted : items.Pairwise fun a b => ¬ b.info.packageInfoV2Module < a.info.packageInfoV2Module)
    (hrounds : RoundsSucceed ref (items.map fun item => item.info.packageInfoV2Module) s)
    (actions : List (Repo → Repo)) :
    ∃ s', uninstallLoop ref (items.map fun item => item.info.packageInfoV2Module) actions s =
        (s', .ok ()) ∧
      removedItems ref (items.map fun item => item.info.packageInfoV2Module) s = items ∧
      s'.layers = layersOfOthers ref s := by
  -- `items` are the layers of the reference that are left, so the list of
  -- modules and the cache get shorter together
  induction items generalizing s actions with
  | nil =>
    refine ⟨s, rfl, rfl, ?_⟩
    have hnone : layersOf ref s.layers = [] := List.perm_nil.1 hview
    refine (List.filter_eq_self.2 fun b hb => ?_).symm
    have hother := List.filter_eq_nil_iff.1 hnone b hb
    simpa using hother
  | cons item rest ih =>
    obtain ⟨hfirst, hrest⟩ := List.pairwise_cons.1 hsorted
    rw [List.map_cons] at hrounds ⊢
    unfold RoundsSucceed at hrounds
    obtain ⟨s₁, hrun, hdiff, hview', hothers⟩ := remove_first hdistinct hview hfirst (by
      intro e s' herror
      rw [herror] at hrounds
      exact hrounds)
    rw [hrun] at hrounds
    have hdistinct' : DistinctModules rest := (List.nodup_cons.1 hdistinct).2
    obtain ⟨s', hloop, hremoved, hlayers⟩ := ih hdistinct' hview' hrest hrounds
      (undoRemove ref item.info.packageInfoV2Module :: actions)
    refine ⟨s', ?_, ?_, hlayers.trans hothers⟩
    · unfold uninstallLoop
      rw [hrun]
      exact hloop
    · unfold removedItems
      rw [hrun]
      show s.layers.diff s₁.layers ++ _ = _
      rw [hdiff, hremoved]
      rfl

/-- **The loop of `UninstallRef`** over all modules of a reference. -/
theorem uninstallLoop_getModuleList {s : Repo} {ref : Reference}
    (hdistinct : DistinctModules (s.view ref))
    (hrounds : RoundsSucceed ref (s.getModuleList ref) s) (actions : List (Repo → Repo)) :
    ∃ s', uninstallLoop ref (s.getModuleList ref) actions s = (s', .ok ()) ∧
      removedItems ref (s.getModuleList ref) s = s.sortedView ref ∧
      s'.layers = layersOfOthers ref s := by
  have hperm := s.sortedView_perm ref
  exact uninstallLoop_view (hdistinct.of_perm hperm.symm) hperm.symm (s.sortedView_sorted ref)
    hrounds actions

/-- **Run**: each round of the loop takes one layer of the reference. -/
theorem countP_uninstallLoop {ref : Reference} {modules : List String}
    {actions : List (Repo → Repo)} {s s' : Repo}
    (h : uninstallLoop ref modules actions s = (s', .ok ())) :
    s'.layers.countP (isLayerOf ref) + modules.length = s.layers.countP (isLayerOf ref) := by
  induction modules generalizing actions s with
  | nil =>
    cases h
    rfl
  | cons module rest ih =>
    unfold uninstallLoop at h
    cases hrun : remove ref module none s with
    | error e s₁ =>
      rw [hrun] at h
      cases congrArg Prod.snd h
    | ok u s₁ =>
      rw [hrun] at h
      obtain ⟨b, hperm, hlayer, -⟩ := perm_of_remove hrun
      have hcount := hperm.countP_eq (isLayerOf ref)
      rw [List.countP_cons_of_pos hlayer] at hcount
      have hrest := ih h
      rw [List.length_cons]
      omega

/-- So none is left, of whatever architecture. -/
theorem not_isLayerOf_of_uninstallLoop {ref : Reference} {actions : List (Repo → Repo)}
    {s s' : Repo} (h : uninstallLoop ref (s.getModuleList ref) actions s = (s', .ok ())) :
    ∀ item ∈ s'.layers, ¬ item.isLayerOf ref = true := by
  have hlength : (s.getModuleList ref).length = s.layers.countP (isLayerOf ref) := by
    rw [(getModuleList_perm s ref).length_eq, List.length_map, List.countP_eq_length_filter]
    rfl
  have hcount := countP_uninstallLoop h
  exact List.countP_eq_zero.1 (by omega)

end Repo

/-! ## Section 3: `Uninstall` -/

namespace Job

/-- `UninstallRef` when its loop succeeds. -/
theorem uninstallRef_of_loop {j : Job} {ref : Reference} {modules : List String} {s' : Repo}
    (hactive : j.isDone = false)
    (hloop : Repo.uninstallLoop ref modules [] j.repo = (s', .ok ())) :
    j.uninstallRef ref modules =
      ⟨s', (j.call (.updateSubState .uninstall "Remove layer files")).task⟩ := by
  have hloop' : Repo.uninstallLoop ref modules []
      (j.call (.updateSubState .uninstall "Remove layer files")).repo = (s', .ok ()) := hloop
  unfold uninstallRef
  rw [hactive]
  simp only [Bool.false_eq_true, if_false, hloop']

/-- `Uninstall` when its loop succeeds. -/
theorem uninstall_of_loop {j : Job} {ref : Reference} {s' : Repo} (hactive : j.isDone = false)
    (hloop : Repo.uninstallLoop ref (j.repo.getModuleList ref) [] j.repo = (s', .ok ())) :
    (j.uninstall ref "binary").repo.layers = s'.layers ∧
      (j.uninstall ref "binary").task.state = .succeed := by
  -- the sub-state that is set before the loop is none of the final ones
  let start := (j.call (.updateState .processing "start to uninstalling package" none)).call
    (.updateSubState .preAction "prepare uninstalling package")
  have hstart : start.isDone = false := by
    show isTaskDone (PackageTask.updateSubState _ _ _).subState = false
    rw [PackageTask.updateSubState_subState]
    rfl
  have hrun := @uninstallRef_of_loop start ref (j.repo.getModuleList ref) s' hstart hloop
  have hend : (start.uninstallRef ref (j.repo.getModuleList ref)).isDone = false := by
    rw [hrun]
    show isTaskDone (PackageTask.updateSubState _ _ _).subState = false
    rw [PackageTask.updateSubState_subState]
    rfl
  have huninstall : j.uninstall ref "binary" =
      { (start.uninstallRef ref (j.repo.getModuleList ref)).call
          (.updateState .succeed ("Uninstall " ++ ref.toString ++ " success") none) with
        repo := after Repo.mergeModules
          (start.uninstallRef ref (j.repo.getModuleList ref)).repo } := by
    unfold uninstall
    rw [hactive]
    show (if (start.uninstallRef ref (j.repo.getModuleList ref)).isDone then _ else _) = _
    rw [hend]
    rfl
  constructor
  · rw [huninstall, hrun]
    exact (Repo.mergeFrame_mergeModules s').layers
  · rw [huninstall]
    show (PackageTask.updateState _ .succeed _ none).state = .succeed
    rw [PackageTask.updateState_state, PackageTask.stateAfter]
    split <;> rfl

/-- What uninstalling a reference is for. No round fails; what they remove
    are the items of the reference, each once, in the order of the list; and
    those of other references are left. -/
structure UninstallsAll (j : Job) (ref : Reference) : Prop where
  finishes : (Repo.uninstallLoop ref (j.repo.getModuleList ref) [] j.repo).2 = .ok ()
  order : ((Repo.removedItems ref (j.repo.getModuleList ref) j.repo).map
    fun item => item.info.packageInfoV2Module) = j.repo.getModuleList ref
  removed : (Repo.removedItems ref (j.repo.getModuleList ref) j.repo).Perm
    (j.repo.layers.filter (isItemOf ref))
  others : (j.uninstall ref "binary").repo.layers =
    j.repo.layers.filter fun item => !isItemOf ref item
  succeeds : (j.uninstall ref "binary").task.state = .succeed

/-- If all layers are items of the reference, all of them go. -/
theorem uninstallsAll_of_singleArch {j : Job} {ref : Reference} (hactive : j.isDone = false)
    (hdistinct : DistinctModules (j.repo.layers.filter (isItemOf ref)))
    (hrounds : Repo.RoundsSucceed ref (j.repo.getModuleList ref) j.repo)
    (hsingle : Repo.SingleArch j.repo ref) : UninstallsAll j ref := by
  rw [hsingle.filter_isItemOf] at hdistinct
  obtain ⟨s', hloop, hremoved, hlayers⟩ := Repo.uninstallLoop_getModuleList hdistinct hrounds []
  obtain ⟨hrest, hstate⟩ := uninstall_of_loop hactive hloop
  refine ⟨by rw [hloop], by rw [hremoved]; rfl, ?_, ?_, hstate⟩
  · rw [hremoved, hsingle.filter_isItemOf]
    exact j.repo.sortedView_perm ref
  · rw [hrest, hlayers]
    unfold Repo.layersOfOthers
    exact List.filter_congr fun item hitem => by rw [hsingle.isItemOf_eq hitem]

/-- **Uninstalling** removes every item of the reference and nothing else iff
    there is no layer of the version for another architecture. -/
theorem uninstall_complete_iff {j : Job} {ref : Reference} (hactive : j.isDone = false)
    (hdistinct : DistinctModules (j.repo.layers.filter (isItemOf ref)))
    (hrounds : Repo.RoundsSucceed ref (j.repo.getModuleList ref) j.repo) :
    UninstallsAll j ref ↔ Repo.SingleArch j.repo ref := by
  constructor
  · intro hall item hitem hlayer
    by_contra hother
    obtain ⟨s', hloop⟩ : ∃ s', Repo.uninstallLoop ref (j.repo.getModuleList ref) [] j.repo =
        (s', .ok ()) := ⟨_, Prod.ext rfl hall.finishes⟩
    -- an item of another architecture has to stay, but every layer has been removed
    have hkept : item ∈ s'.layers := by
      rw [← (uninstall_of_loop hactive hloop).1, hall.others]
      refine List.mem_filter.2 ⟨hitem, ?_⟩
      simp [isItemOf, hother]
    exact Repo.not_isLayerOf_of_uninstallLoop hloop item hkept hlayer
  · exact uninstallsAll_of_singleArch hactive hdistinct hrounds

end Job

/-- Some modules of an app, next to another app. -/
def chatRepo (modules : List String) : Repo :=
  .ofLayers (.ofCommits []) (⟨"c", none, .onMain "other" "1.0.0.0" "binary", "stable"⟩ ::
    modules.map fun module => ⟨module, none, .onMain "chat" "1.0.0.0" module, "stable"⟩) [] []

def chatRef : Reference := .onMain "chat" 0 (by decide)

def chatJob (modules : List String) : Job :=
  ⟨chatRepo modules, .create "1" (.single "stable:main/chat/x86_64/binary")⟩

/-- `runtime` is found in the last round. -/
theorem uninstall_complete_chat :
    Job.UninstallsAll (chatJob ["runtime", "develop", "binary"]) chatRef := by
  have hmodules : (chatJob ["runtime", "develop", "binary"]).repo.getModuleList chatRef =
      ["binary", "develop", "runtime"] := by decide
  have hdistinct : DistinctModules
      ((chatJob ["runtime", "develop", "binary"]).repo.layers.filter (isItemOf chatRef)) := by
    unfold DistinctModules
    decide
  have hrounds : Repo.RoundsSucceed chatRef
      ((chatJob ["runtime", "develop", "binary"]).repo.getModuleList chatRef)
      (chatRepo ["runtime", "develop", "binary"]) := by
    rw [hmodules]
    trivial
  have hsingle : Repo.SingleArch (chatRepo ["runtime", "develop", "binary"]) chatRef := by
    unfold Repo.SingleArch
    decide
  have hiff := @Job.uninstall_complete_iff (chatJob ["runtime", "develop", "binary"]) chatRef rfl
    hdistinct hrounds
  exact hiff.2 hsingle

/-- The app, and its module `develop` for another architecture. -/
def twoArchsRepo : Repo :=
  .ofLayers (.ofCommits []) [⟨"c1", none, .onMain "chat" "1.0.0.0" "binary", "stable"⟩,
    ⟨"c2", none, { PackageInfoV2.onMain "chat" "1.0.0.0" "develop" with arch := ["arm64"] },
      "stable"⟩] [] []

/-- **Counterexample**: that layer is removed with the app. -/
theorem not_uninstall_complete : ¬ ∀ (j : Job) (ref : Reference), j.isDone = false →
    DistinctModules (j.repo.layers.filter (isItemOf ref)) →
    Repo.RoundsSucceed ref (j.repo.getModuleList ref) j.repo → Job.UninstallsAll j ref := by
  intro h
  have hmodules : twoArchsRepo.getModuleList chatRef = ["binary", "develop"] := by decide
  have hdistinct : DistinctModules (twoArchsRepo.layers.filter (isItemOf chatRef)) := by
    unfold DistinctModules
    decide
  have hrounds : Repo.RoundsSucceed chatRef (twoArchsRepo.getModuleList chatRef) twoArchsRepo := by
    rw [hmodules]
    trivial
  have hall := h ⟨twoArchsRepo, .create "1" (.single "stable:main/chat/x86_64/binary")⟩ chatRef
    rfl hdistinct hrounds
  -- two layers are removed, and one is an item of the reference
  have hremoved : (Repo.removedItems chatRef (twoArchsRepo.getModuleList chatRef)
      twoArchsRepo).length = 2 := by
    rw [hmodules]
    rfl
  have hitems : (twoArchsRepo.layers.filter (isItemOf chatRef)).length = 1 := by decide
  have hlength := hremoved.symm.trans (hall.removed.length_eq.trans hitems)
  exact absurd hlength (by decide)

/-! ## Section 4: `removeAfterInstall` -/

namespace Repo

/-- Both names of the main module are removed alike. -/
theorem remove_of_main (ref : Reference) {module : String}
    (hmain : module = "binary" ∨ module = "runtime") :
    remove ref module none = remove ref "binary" none := by
  rcases hmain with rfl | rfl <;> rfl

/-- Without other modules, the loop is the one of `UninstallRef`. -/
theorem removeLoop_of_main {ref : Reference} {modules : List String}
    (hmain : ∀ module ∈ modules, module = "binary" ∨ module = "runtime")
    (actions : List (Repo → Repo)) (s : Repo) :
    removeLoop ref modules actions s = uninstallLoop ref modules actions s := by
  induction modules generalizing actions s with
  | nil => rfl
  | cons module rest ih =>
    unfold removeLoop uninstallLoop
    rw [remove_of_main ref (hmain module (by simp))]
    cases remove ref "binary" none s with
    | error e s' => rfl
    | ok u s' => exact ih (fun m hm => hmain m (List.mem_cons_of_mem _ hm)) _ s'

/-- A layer of the reference whose module is `binary` or `runtime`. -/
def isMainLayerOf (ref : Reference) (item : RepositoryCacheLayersItem) : Bool :=
  item.isLayerOf ref && item.moduleName == "binary"

/-- **Run**: each round of `removeAfterInstall` takes such a layer. -/
theorem countP_removeLoop {ref : Reference} {modules : List String}
    {actions : List (Repo → Repo)} {s s' : Repo}
    (h : removeLoop ref modules actions s = (s', .ok ())) :
    s'.layers.countP (isMainLayerOf ref) + modules.length =
      s.layers.countP (isMainLayerOf ref) := by
  induction modules generalizing actions s with
  | nil =>
    cases h
    rfl
  | cons module rest ih =>
    unfold removeLoop at h
    cases hrun : remove ref "binary" none s with
    | error e s₁ =>
      rw [hrun] at h
      cases congrArg Prod.snd h
    | ok u s₁ =>
      rw [hrun] at h
      obtain ⟨b, hperm, hlayer, hmodule⟩ := perm_of_remove hrun
      have hmain : isMainLayerOf ref b = true := by
        rw [isMainLayerOf, hlayer, hmodule]
        rfl
      have hcount := hperm.countP_eq (isMainLayerOf ref)
      rw [List.countP_cons_of_pos hmain] at hcount
      have hrest := ih h
      rw [List.length_cons]
      omega

/-- So the loop does not come to an end if there are other modules. -/
theorem main_of_removeLoop {s s' : Repo} {ref : Reference} {actions : List (Repo → Repo)}
    (h : removeLoop ref (s.getModuleList ref) actions s = (s', .ok ())) :
    ∀ module ∈ s.getModuleList ref, module = "binary" ∨ module = "runtime" := by
  have hrounds := countP_removeLoop h
  have hlength : (s.getModuleList ref).length = (s.view ref).length := by
    rw [(getModuleList_perm s ref).length_eq, List.length_map]
  have hcount : s.layers.countP (isMainLayerOf ref) =
      (s.view ref).countP fun item => item.moduleName == "binary" := by
    unfold view layersOf
    rw [List.countP_filter]
    congr 1
    funext item
    rw [isMainLayerOf, Bool.and_comm]
  -- as many main layers as layers, so all are main layers
  have hle := (s.view ref).countP_le_length (p := fun item => item.moduleName == "binary")
  have hall : ∀ item ∈ s.view ref, (item.moduleName == "binary") = true :=
    List.countP_eq_length.1 (by omega)
  intro module hmodule
  obtain ⟨item, hitem, rfl⟩ := List.mem_map.1 ((getModuleList_perm s ref).mem_iff.1 hmodule)
  have hname : normModule item.info.packageInfoV2Module = "binary" :=
    beq_iff_eq.1 (hall item hitem)
  unfold normModule at hname
  by_cases hruntime : item.info.packageInfoV2Module = "runtime"
  · exact .inr hruntime
  · rw [if_neg hruntime] at hname
    exact .inl hname

/-- **`removeAfterInstall`** removes all modules of a reference iff there are
    no others than `binary` and `runtime`. -/
theorem removeAfterInstall_complete_iff {s : Repo} {containers : Containers} {oldRef : Reference}
    (hidle : isRefBusy containers oldRef = .ok false)
    (hdistinct : DistinctModules (s.view oldRef))
    (hrounds : RoundsSucceed oldRef (s.getModuleList oldRef) s) :
    ((s.removeAfterInstall containers oldRef (s.getModuleList oldRef)).2 = .ok () ∧
        (s.removeAfterInstall containers oldRef (s.getModuleList oldRef)).1.layers =
          s.layers.filter fun item => !item.isLayerOf oldRef) ↔
      ∀ module ∈ s.getModuleList oldRef, module = "binary" ∨ module = "runtime" := by
  unfold removeAfterInstall
  rw [hidle]
  simp only []
  constructor
  · rintro ⟨hok, -⟩
    cases hloop : removeLoop oldRef (s.getModuleList oldRef) [] s with
    | mk s' result =>
      rw [hloop] at hok
      cases result with
      | error e => cases hok
      | ok u => exact main_of_removeLoop hloop
  · intro hmain
    obtain ⟨s', hloop, -, hlayers⟩ := uninstallLoop_getModuleList hdistinct hrounds []
    rw [← removeLoop_of_main hmain] at hloop
    rw [hloop]
    refine ⟨rfl, ?_⟩
    show (after mergeModules s').layers = _
    rw [(mergeFrame_mergeModules s').layers, hlayers]
    rfl

/-- The old version has both names of the main module. -/
theorem removeAfterInstall_complete_chat :
    ((chatRepo ["binary", "runtime"]).removeAfterInstall (.ok []) chatRef
        ["binary", "runtime"]).2 = .ok () ∧
      ((chatRepo ["binary", "runtime"]).removeAfterInstall (.ok []) chatRef
        ["binary", "runtime"]).1.layers =
          (chatRepo ["binary", "runtime"]).layers.filter fun item => !item.isLayerOf chatRef := by
  have hmodules : (chatRepo ["binary", "runtime"]).getModuleList chatRef =
      ["binary", "runtime"] := by decide
  have hdistinct : DistinctModules ((chatRepo ["binary", "runtime"]).view chatRef) := by
    unfold DistinctModules
    decide
  have hrounds : RoundsSucceed chatRef ((chatRepo ["binary", "runtime"]).getModuleList chatRef)
      (chatRepo ["binary", "runtime"]) := by
    rw [hmodules]
    trivial
  have hidle : isRefBusy (.ok []) chatRef = .ok false := rfl
  have hiff := removeAfterInstall_complete_iff hidle hdistinct (by assumption)
  rw [hmodules] at hiff
  exact hiff.2 (by decide)

/-- `develop` is not removed, and the second round finds no `binary`. -/
theorem not_removeAfterInstall_complete : ¬ ∀ (s : Repo) (containers : Containers)
    (oldRef : Reference), isRefBusy containers oldRef = .ok false →
    DistinctModules (s.view oldRef) → RoundsSucceed oldRef (s.getModuleList oldRef) s →
    (s.removeAfterInstall containers oldRef (s.getModuleList oldRef)).2 = .ok () ∧
      (s.removeAfterInstall containers oldRef (s.getModuleList oldRef)).1.layers =
        s.layers.filter fun item => !item.isLayerOf oldRef := by
  intro h
  have hmodules : (chatRepo ["binary", "develop"]).getModuleList chatRef =
      ["binary", "develop"] := by decide
  have hdistinct : DistinctModules ((chatRepo ["binary", "develop"]).view chatRef) := by
    unfold DistinctModules
    decide
  have hrounds : RoundsSucceed chatRef ((chatRepo ["binary", "develop"]).getModuleList chatRef)
      (chatRepo ["binary", "develop"]) := by
    rw [hmodules]
    trivial
  obtain ⟨hok, -⟩ := h (chatRepo ["binary", "develop"]) (.ok []) chatRef rfl hdistinct
    (by assumption)
  rw [hmodules] at hok
  have hfails : ((chatRepo ["binary", "develop"]).removeAfterInstall (.ok []) chatRef
      ["binary", "develop"]).2 =
        .error "main:chat/1.0.0.0/x86_64 fallback to runtime still not found" := rfl
  rw [hfails] at hok
  cases hok

end Repo

end Linglong
