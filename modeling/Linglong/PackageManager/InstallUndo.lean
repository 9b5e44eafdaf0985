import Linglong.Repo.FoundLayers
import Linglong.PackageManager.Operations

/-! # Undoing an Installation

    When `InstallRef` returns early, its undo actions run: each pulled module
    is removed and each unmarked layer is marked again. An undo action knows
    only the name of a module, and `getLayerItem` decides which layer the
    name stands for by then. This module says what the actions leave behind,
    in any cache.

    1. One undo action.
    2. The layers of a reference that have its architecture.
    3. All undo actions (`ownLayers_rollback_iff`).
-/

namespace Linglong

open Framework RepositoryCacheLayersItem

namespace Job

/-! ## Section 1: One undo action -/

/-- The names of the layers that requested modules stand for. -/
def foundNames (view : List RepositoryCacheLayersItem) (modules : List String) : List String :=
  modules.filterMap fun module =>
    (findLayer view (normModule module)).map fun item => item.info.packageInfoV2Module

theorem mem_foundNames {view : List RepositoryCacheLayersItem} {modules : List String}
    {name : String} : name ∈ foundNames view modules ↔
      ∃ module ∈ modules, ∃ item, findLayer view (normModule module) = some item ∧
        item.info.packageInfoV2Module = name := by
  simp [foundNames]

@[simp] theorem foundNames_setMarks (names : List String) (deleted : Option Bool)
    (view : List RepositoryCacheLayersItem) (modules : List String) :
    foundNames (setMarks names deleted view) modules = foundNames view modules := by
  unfold foundNames
  simp only [findLayer_setMarks, Option.map_map, Function.comp_def, setMark_info]

theorem foundNames_append (view : List RepositoryCacheLayersItem) (modules rest : List String) :
    foundNames view (modules ++ rest) = foundNames view modules ++ foundNames view rest :=
  List.filterMap_append

section Undo

variable (ref : Reference) (module : String) (s : Repo)

/-- Undoing an unmarking marks the layer that the module stands for. -/
theorem undoUnmark_spec (hwrite : s.NoFaults .writeCache) :
    (undoUnmark ref module s).NoFaults .writeCache ∧
      (undoUnmark ref module s).view ref =
        setMarks (foundNames (s.view ref) [module]) (some true) (s.view ref) := by
  rcases Repo.markDeleted_cases ref true module s with ⟨e, faults, hpops, hrun, hfail⟩ |
    ⟨item, faults, hpops, hitem, hrun⟩
  · -- marking fails only if there is no such layer
    have hnone : findLayer (s.view ref) (normModule module) = none := by
      cases hfound : findLayer (s.view ref) (normModule module) with
      | none => rfl
      | some item => exact absurd hwrite (hfail ⟨item, Repo.getLayerItem_eq_ok_iff.2 hfound⟩)
    have hnames : foundNames (s.view ref) [module] = [] := by simp [foundNames, hnone]
    rw [undoUnmark, after_of_error hrun, hnames, setMarks_nil]
    exact ⟨hwrite.of_pops hpops, rfl⟩
  · have hfound := Repo.getLayerItem_eq_ok_iff.1 hitem
    have hnames : foundNames (s.view ref) [module] = [item.info.packageInfoV2Module] := by
      simp [foundNames, hfound]
    rw [undoUnmark, after_of_ok hrun, hnames]
    exact ⟨hwrite.of_pops hpops,
      layersOf_setDeletedFirst_only (withModule_of_findLayer hfound) (some true)⟩

/-- Whatever fails, it does nothing but set marks. -/
theorem undoUnmark_view :
    ∃ names, (undoUnmark ref module s).view ref = setMarks names (some true) (s.view ref) := by
  rcases Repo.markDeleted_cases ref true module s with ⟨e, faults, -, hrun, -⟩ |
    ⟨item, faults, -, hitem, hrun⟩
  · refine ⟨[], ?_⟩
    rw [undoUnmark, after_of_error hrun, setMarks_nil]
    rfl
  · refine ⟨[item.info.packageInfoV2Module], ?_⟩
    rw [undoUnmark, after_of_ok hrun]
    exact layersOf_setDeletedFirst_only
      (withModule_of_findLayer (Repo.getLayerItem_eq_ok_iff.1 hitem)) (some true)

/-- Undoing a pull removes the layer that the module stands for, if anything. -/
theorem undoPull_cases : (undoPull ref module s).view ref = s.view ref ∨
    ∃ item, findLayer (s.view ref) (normModule module) = some item ∧
      (undoPull ref module s).view ref =
        withoutModule item.info.packageInfoV2Module (s.view ref) := by
  rcases Repo.remove_cases ref module none s with ⟨e, faults, -, hrun, -⟩ |
    ⟨item, faults, json, dirs, -, hitem, hrun, -, -⟩
  · left
    rw [undoPull, after_of_error hrun]
    rfl
  · right
    have hfound := Repo.getLayerItem_eq_ok_iff.1 hitem
    refine ⟨item, hfound, ?_⟩
    rw [undoPull, hrun]
    exact layersOf_eraseP_only (withModule_of_findLayer hfound)

/-- It does remove this layer if its ref is there and refs can be deleted. -/
theorem undoPull_spec {item : RepositoryCacheLayersItem}
    (hfound : findLayer (s.view ref) (normModule module) = some item)
    (href : (s.resolveRefspec (Repo.ostreeRefSpecFromLayerItem item)).isSome = true)
    (hwrite : s.NoFaults .writeCache) (hset : s.NoFaults .setRef) :
    (undoPull ref module s).view ref =
        withoutModule item.info.packageInfoV2Module (s.view ref) ∧
      (undoPull ref module s).NoFaults .writeCache ∧ (undoPull ref module s).NoFaults .setRef ∧
      ∀ b : RepositoryCacheLayersItem,
        b.info.packageInfoV2Module ≠ item.info.packageInfoV2Module →
        (s.resolveRefspec (Repo.ostreeRefSpecFromLayerItem b)).isSome = true →
        ((undoPull ref module s).resolveRefspec
          (Repo.ostreeRefSpecFromLayerItem b)).isSome = true := by
  have hitem := Repo.getLayerItem_eq_ok_iff.2 hfound
  rcases Repo.remove_cases ref module none s with ⟨e, faults, -, -, hfail⟩ |
    ⟨layer, faults, json, dirs, hpops, hlayer, hrun, -, -⟩
  · -- the ref of the layer is there, so only deleting it could fail
    exact absurd hset (hfail item hitem href)
  · cases hitem.symm.trans hlayer
    rw [undoPull, hrun]
    refine ⟨layersOf_eraseP_only (withModule_of_findLayer hfound), hwrite.of_pops hpops,
      hset.of_pops hpops, ?_⟩
    intro b hname hb
    -- the deleted ref is not the one of `b`, whose module is another one
    have hne : Repo.ostreeRefSpecFromLayerItem b ≠ Repo.ostreeRefSpecFromLayerItem item := by
      intro heq
      exact hname (congrArg (fun spec => spec.ref.module) heq)
    show ((s.dropRef _).resolveRefspec _).isSome = true
    rw [Repo.resolveRefspec_dropRef hne]
    exact hb

end Undo

/-! ## Section 2: The layers with the architecture of the reference -/

/-- The layers of a reference, without those of other architectures. -/
def ownLayers (ref : Reference) (view : List RepositoryCacheLayersItem) :
    List RepositoryCacheLayersItem :=
  view.filter fun item => item.arch == ref.arch.toString

/-- A layer of the reference that was not there before. -/
def isNew (ref : Reference) (old : List RepositoryCacheLayersItem)
    (item : RepositoryCacheLayersItem) : Bool :=
  item.arch == ref.arch.toString && !old.any item.matchesItem

theorem isNew_eq_true {ref : Reference} {old : List RepositoryCacheLayersItem}
    {item : RepositoryCacheLayersItem} : isNew ref old item = true ↔
      item.arch = ref.arch.toString ∧ ∀ b ∈ old, item.matchesItem b = false := by
  simp [isNew]

theorem isNew_of_mem {ref : Reference} {old : List RepositoryCacheLayersItem}
    {item : RepositoryCacheLayersItem} (h : item ∈ old) : isNew ref old item = false := by
  by_contra hnew
  have hself := (isNew_eq_true.1 (by simpa using hnew)).2 item h
  rw [matchesItem_self] at hself
  cases hself

@[simp] theorem isNew_setMark (ref : Reference) (old : List RepositoryCacheLayersItem)
    (names : List String) (deleted : Option Bool) (item : RepositoryCacheLayersItem) :
    isNew ref old (setMark names deleted item) = isNew ref old item := by
  unfold setMark
  split <;> rfl

theorem countP_isNew_setMarks (ref : Reference) (old view : List RepositoryCacheLayersItem)
    (names : List String) (deleted : Option Bool) :
    (setMarks names deleted view).countP (isNew ref old) = view.countP (isNew ref old) := by
  unfold setMarks
  rw [List.countP_map]
  exact List.countP_congr fun item _ => by rw [Function.comp, isNew_setMark]

/-- With a new layer they are not the same. -/
theorem ownLayers_ne_of_isNew {ref : Reference} {old view : List RepositoryCacheLayersItem}
    (h : 0 < view.countP (isNew ref old)) : ownLayers ref view ≠ ownLayers ref old := by
  obtain ⟨item, hitem, hnew⟩ := List.countP_pos_iff.1 h
  intro hsame
  have hown : item ∈ ownLayers ref view := by
    refine List.mem_filter.2 ⟨hitem, ?_⟩
    rw [(isNew_eq_true.1 hnew).1]
    exact beq_self_eq_true _
  rw [hsame] at hown
  rw [isNew_of_mem (List.mem_filter.1 hown).1] at hnew
  cases hnew

/-- Setting marks leaves them as they are iff they are marked so. -/
theorem ownLayers_setMarks_iff {ref : Reference} {view : List RepositoryCacheLayersItem}
    {names : List String} {deleted : Option Bool} :
    ownLayers ref (setMarks names deleted view) = ownLayers ref view ↔
      ∀ item ∈ view, item.arch = ref.arch.toString →
        item.info.packageInfoV2Module ∈ names → item.deleted = deleted := by
  have hfilter : ownLayers ref (setMarks names deleted view) =
      setMarks names deleted (ownLayers ref view) := by
    unfold ownLayers setMarks
    rw [List.filter_map]
    congr 1
    refine List.filter_congr fun item _ => ?_
    rw [Function.comp, setMark_arch]
  rw [hfilter]
  constructor
  · intro hsame item hitem harch hname
    have hown : item ∈ ownLayers ref view :=
      List.mem_filter.2 ⟨hitem, by rw [harch]; exact beq_self_eq_true _⟩
    have hmark : setMark names deleted item = item := by
      have hmap : (ownLayers ref view).map (setMark names deleted) =
          (ownLayers ref view).map id := by
        rw [List.map_id]
        exact hsame
      exact List.map_inj_left.1 hmap item hown
    rw [setMark_of_mem hname] at hmark
    rw [← hmark]
  · intro hmarks
    refine setMarks_eq_self fun item hitem hname => ?_
    obtain ⟨hitem, harch⟩ := List.mem_filter.1 hitem
    exact hmarks item hitem (by simpa using harch) hname

/-! ## Section 3: All undo actions -/

section Rollback

variable {ref : Reference}

theorem rollback_undoUnmark {s : Repo} (hwrite : s.NoFaults .writeCache)
    (modules : List String) :
    (rollback (modules.map (undoUnmark ref)) s).view ref =
      setMarks (foundNames (s.view ref) modules) (some true) (s.view ref) := by
  induction modules generalizing s with
  | nil => simp [foundNames]
  | cons module modules ih =>
    obtain ⟨hwrite', hview⟩ := undoUnmark_spec ref module s hwrite
    have hnames : foundNames (s.view ref) (module :: modules) =
        foundNames (s.view ref) [module] ++ foundNames (s.view ref) modules :=
      foundNames_append _ [module] modules
    rw [List.map_cons, rollback_cons, ih hwrite', hview, foundNames_setMarks, setMarks_same, hnames]
    exact setMarks_congr (by simp [or_comm]) _ _

theorem rollback_undoUnmark_count (old : List RepositoryCacheLayersItem)
    (modules : List String) (s : Repo) :
    ((rollback (modules.map (undoUnmark ref)) s).view ref).countP (isNew ref old) =
      (s.view ref).countP (isNew ref old) := by
  induction modules generalizing s with
  | nil => rfl
  | cons module modules ih =>
    obtain ⟨names, hview⟩ := undoUnmark_view ref module s
    rw [List.map_cons, rollback_cons, ih, hview, countP_isNew_setMarks]

/-- The undo actions remove no more layers than were pulled. -/
theorem rollback_undoPull_count (q : RepositoryCacheLayersItem → Bool) (modules : List String)
    (s : Repo) : (s.view ref).countP q ≤
      ((rollback (modules.map (undoPull ref)) s).view ref).countP q + modules.length := by
  induction modules generalizing s with
  | nil => exact Nat.le_refl _
  | cons module modules ih =>
    have hfirst : (s.view ref).countP q ≤ ((undoPull ref module s).view ref).countP q + 1 := by
      rcases undoPull_cases ref module s with hview | ⟨item, hfound, hview⟩
      · rw [hview]
        exact Nat.le_succ _
      · rw [hview, countP_withoutModule_of_only (withModule_of_findLayer hfound) q]
        split <;> omega
    have hrest := ih (undoPull ref module s)
    rw [List.map_cons, rollback_cons, List.length_cons]
    omega

/-! ### Pulled layers that can be told apart -/

/-- The module names stand for the layers `new`, also beside `old`: the
    names are different, and a layer with the old name of `binary` is not
    hidden by one with the new name. -/
structure Separate (old new : List RepositoryCacheLayersItem) : Prop where
  nodup : (new.map fun item => item.info.packageInfoV2Module).Nodup
  fresh : ∀ a ∈ old, ∀ b ∈ new, a.info.packageInfoV2Module ≠ b.info.packageInfoV2Module
  runtime : ∀ b ∈ new, b.info.packageInfoV2Module = "runtime" →
    ∀ a ∈ old, a.info.packageInfoV2Module ≠ "binary"

theorem Separate.sublist {old new new' : List RepositoryCacheLayersItem} (h : Separate old new)
    (hsub : new'.Sublist new) : Separate old new' where
  nodup := h.nodup.sublist (hsub.map _)
  fresh := fun a ha b hb => h.fresh a ha b (hsub.subset hb)
  runtime := fun b hb => h.runtime b (hsub.subset hb)

/-- A module that was pulled stands for one of the new layers. -/
theorem Separate.find {old new : List RepositoryCacheLayersItem} (h : Separate old new)
    {b : RepositoryCacheLayersItem} (hb : b ∈ new) :
    ∃ item ∈ new, findLayer (old ++ new) b.moduleName = some item ∧
      item.moduleName = b.moduleName := by
  have honly : ∀ item ∈ new, withModule item.info.packageInfoV2Module new = [item] := by
    intro item hitem
    exact filter_eq_singleton h.nodup hitem (by simp) fun c _ hc => by simpa using hc
  have hold : ∀ item ∈ new, withModule item.info.packageInfoV2Module old = [] := by
    intro item hitem
    exact withModule_eq_nil.2 fun a ha => h.fresh a ha item hitem
  by_cases hnamed : ∃ item ∈ new, item.info.packageInfoV2Module = b.moduleName
  · obtain ⟨item, hitem, hname⟩ := hnamed
    refine ⟨item, hitem, findLayer_eq_some.2 (.inl ?_), ?_⟩
    · rw [← hname, withModule_append, hold item hitem, honly item hitem, List.nil_append]
    · rw [moduleName, hname, moduleName, normModule_normModule]
  · -- no layer has the new name, so `b` has the old one
    have hruntime : b.info.packageInfoV2Module = "runtime" := by
      by_contra hne
      exact hnamed ⟨b, hb, by rw [moduleName, normModule, if_neg hne]⟩
    have hbinary : b.moduleName = "binary" := by rw [moduleName, normModule, if_pos hruntime]
    rw [hbinary] at hnamed ⊢
    refine ⟨b, hb, findLayer_eq_some.2 (.inr ⟨?_, rfl, ?_⟩), hbinary⟩
    · refine withModule_eq_nil.2 fun a ha => ?_
      rcases List.mem_append.1 ha with ha | ha
      · exact h.runtime b hb hruntime a ha
      · intro hname
        exact hnamed ⟨a, ha, hname⟩
    · rw [← hruntime, withModule_append, hold b hb, honly b hb, List.nil_append]

/-- Undoing the pulls then removes all of them and nothing else. -/
theorem rollback_undoPull {old new : List RepositoryCacheLayersItem} (hsep : Separate old new)
    {s : Repo} (hview : s.view ref = old ++ new) {modules : List String}
    (hmodules : (new.map moduleName).Perm (modules.map normModule))
    (hrefs : ∀ b ∈ new, (s.resolveRefspec (Repo.ostreeRefSpecFromLayerItem b)).isSome = true)
    (hwrite : s.NoFaults .writeCache) (hset : s.NoFaults .setRef) :
    (rollback (modules.map (undoPull ref)) s).view ref = old ∧
      (rollback (modules.map (undoPull ref)) s).NoFaults .writeCache := by
  induction modules generalizing s new with
  | nil =>
    have hnil : new = [] := by simpa using hmodules
    rw [hnil, List.append_nil] at hview
    exact ⟨hview, hwrite⟩
  | cons module modules ih =>
    -- the module stands for one of the new layers, and that one goes
    have hmodule : normModule module ∈ new.map moduleName :=
      hmodules.symm.subset (by simp)
    obtain ⟨b, hb, hname⟩ := List.mem_map.1 hmodule
    obtain ⟨item, hitem, hfound, hitemName⟩ := hsep.find hb
    rw [hname] at hfound hitemName
    rw [← hview] at hfound
    obtain ⟨hview', hwrite', hset', hrefs'⟩ :=
      undoPull_spec ref module s hfound (hrefs item hitem) hwrite hset
    have hold : withoutModule item.info.packageInfoV2Module old = old :=
      withoutModule_eq_self fun a ha => hsep.fresh a ha item hitem
    rw [hview, withoutModule_append, hold] at hview'
    have hsplit : (item :: withoutModule item.info.packageInfoV2Module new).Perm new := by
      have hone : withModule item.info.packageInfoV2Module new = [item] :=
        filter_eq_singleton hsep.nodup hitem (by simp) fun c _ hc => by simpa using hc
      have hperm := List.filter_append_perm
        (fun c => c.info.packageInfoV2Module == item.info.packageInfoV2Module) new
      unfold withModule at hone
      rw [hone] at hperm
      exact hperm
    have hrest : ((withoutModule item.info.packageInfoV2Module new).map moduleName).Perm
        (modules.map normModule) := by
      have hboth := (hsplit.map moduleName).trans hmodules
      rw [List.map_cons, List.map_cons, hitemName] at hboth
      exact (List.perm_cons _).1 hboth
    rw [List.map_cons, rollback_cons]
    refine ih (hsep.sublist List.filter_sublist) hview' hrest (fun c hc => ?_) hwrite' hset'
    obtain ⟨hc, hne⟩ := mem_withoutModule.1 hc
    exact hrefs' c hne (hrefs c hc)

/-! ### Pulled layers that cannot be told apart -/

/-- A name that several layers have stands for none of them. -/
theorem rollback_undoPull_withModule {name : String} (modules : List String) {s : Repo}
    (htwo : 2 ≤ (withModule name (s.view ref)).length) :
    withModule name ((rollback (modules.map (undoPull ref)) s).view ref) =
      withModule name (s.view ref) := by
  induction modules generalizing s with
  | nil => rfl
  | cons module modules ih =>
    have hfirst : withModule name ((undoPull ref module s).view ref) =
        withModule name (s.view ref) := by
      rcases undoPull_cases ref module s with hview | ⟨item, hfound, hview⟩
      · rw [hview]
      · rw [hview]
        have hne : item.info.packageInfoV2Module ≠ name := by
          rintro rfl
          rw [withModule_of_findLayer hfound] at htwo
          exact absurd htwo (by simp)
        unfold withModule withoutModule
        rw [List.filter_filter]
        refine List.filter_congr fun b _ => ?_
        by_cases hb : b.info.packageInfoV2Module = name
        · simp [hb, hne.symm]
        · simp [hb]
    rw [List.map_cons, rollback_cons, ih (by rw [hfirst]; exact htwo), hfirst]

/-- A new layer `runtime` is hidden by an old layer `binary`: one action
    fails to remove a new layer before it can remove this one. -/
theorem rollback_undoPull_runtime {old : List RepositoryCacheLayersItem}
    {a b : RepositoryCacheLayersItem} (hbinary : a.info.packageInfoV2Module = "binary")
    (hold : isNew ref old a = false) (hruntime : b.info.packageInfoV2Module = "runtime")
    (hnew : isNew ref old b = true) {modules : List String} {s : Repo} (ha : a ∈ s.view ref)
    (hb : b ∈ s.view ref) (hcount : modules.length ≤ (s.view ref).countP (isNew ref old)) :
    0 < ((rollback (modules.map (undoPull ref)) s).view ref).countP (isNew ref old) := by
  induction modules generalizing s with
  | nil => exact List.countP_pos_iff.2 ⟨b, hb, hnew⟩
  | cons module modules ih =>
    have hrest := @rollback_undoPull_count ref (isNew ref old) modules
      (undoPull ref module s)
    rw [List.length_cons] at hcount
    rw [List.map_cons, rollback_cons]
    rcases undoPull_cases ref module s with hview | ⟨item, hfound, hview⟩
    · rw [hview] at hrest
      omega
    · have hone := countP_withoutModule_of_only (withModule_of_findLayer hfound) (isNew ref old)
      cases hitem : isNew ref old item with
      | false =>
        rw [hitem] at hone
        rw [hview] at hrest
        simp only [Bool.false_eq_true, if_false] at hone
        omega
      | true =>
        -- the removed layer is neither `a` nor `b`
        have hnea : a.info.packageInfoV2Module ≠ item.info.packageInfoV2Module := by
          intro hname
          rw [eq_of_findLayer hfound ha hname, hitem] at hold
          cases hold
        have hneb : b.info.packageInfoV2Module ≠ item.info.packageInfoV2Module := by
          rw [hruntime]
          rcases findLayer_eq_some.1 hfound with hname | ⟨hnone, hmodule, -⟩
          · have hmem : item ∈ withModule (normModule module) (s.view ref) := by
              rw [hname]
              exact List.mem_singleton.2 rfl
            rw [(mem_withModule.1 hmem).2]
            unfold normModule
            split
            · decide
            · next h => exact fun heq => h heq.symm
          · have hmem : a ∈ withModule "binary" (s.view ref) := mem_withModule.2 ⟨ha, hbinary⟩
            rw [← hmodule, hnone] at hmem
            cases hmem
        rw [hitem, if_pos rfl] at hone
        rw [hview] at hrest
        refine ih ?_ ?_ ?_
        · rw [hview]
          exact mem_withoutModule.2 ⟨ha, hnea⟩
        · rw [hview]
          exact mem_withoutModule.2 ⟨hb, hneb⟩
        · rw [hview]
          omega

/-- If the names do not stand for the new layers, one of these stays. -/
theorem count_rollback_of_not_separate {old new now : List RepositoryCacheLayersItem}
    (hsep : ¬ Separate now new) (hold : ∀ a ∈ now, isNew ref old a = false)
    (hnew : ∀ b ∈ new, isNew ref old b = true) {s : Repo} (hview : s.view ref = now ++ new)
    {modules : List String} (hlength : modules.length = new.length) :
    0 < ((rollback (modules.map (undoPull ref)) s).view ref).countP (isNew ref old) := by
  by_cases hname : ∃ b ∈ new, 2 ≤ (withModule b.info.packageInfoV2Module (s.view ref)).length
  · -- `b` shares its name, and no action removes a layer with this name
    obtain ⟨b, hb, htwo⟩ := hname
    have hstays := rollback_undoPull_withModule modules htwo
    have hmem : b ∈ withModule b.info.packageInfoV2Module (s.view ref) :=
      mem_withModule.2 ⟨by rw [hview]; exact List.mem_append_right _ hb, rfl⟩
    rw [← hstays] at hmem
    exact List.countP_pos_iff.2 ⟨b, (mem_withModule.1 hmem).1, hnew b hb⟩
  · -- no name is shared, so a layer `runtime` is hidden by a layer `binary`
    by_cases hruntime : ∃ b ∈ new, b.info.packageInfoV2Module = "runtime" ∧
        ∃ a ∈ now, a.info.packageInfoV2Module = "binary"
    · obtain ⟨b, hb, hb', a, ha, ha'⟩ := hruntime
      refine rollback_undoPull_runtime ha' (hold a ha) hb' (hnew b hb) ?_ ?_ ?_
      · rw [hview]
        exact List.mem_append_left _ ha
      · rw [hview]
        exact List.mem_append_right _ hb
      · rw [hview, List.countP_append, List.countP_eq_length.2 hnew, hlength]
        exact Nat.le_add_left _ _
    · have hcount : ∀ b ∈ new, (withModule b.info.packageInfoV2Module now).length +
          (withModule b.info.packageInfoV2Module new).length ≤ 1 := by
        intro b hb
        by_contra hmore
        refine hname ⟨b, hb, ?_⟩
        rw [hview, withModule_append, List.length_append]
        omega
      refine absurd ⟨?_, ?_, ?_⟩ hsep
      · refine List.nodup_iff_count_le_one.2 fun name => ?_
        by_cases hmem : name ∈ new.map fun item => item.info.packageInfoV2Module
        · obtain ⟨b, hb, rfl⟩ := List.mem_map.1 hmem
          have hone := hcount b hb
          rw [length_withModule _ new] at hone
          omega
        · rw [List.count_eq_zero_of_not_mem hmem]
          exact Nat.zero_le _
      · intro a ha b hb hsame
        have hone := hcount b hb
        have hnow := List.length_pos_of_mem (mem_withModule.2 ⟨ha, hsame⟩)
        have hself := List.length_pos_of_mem (mem_withModule.2 ⟨hb, rfl⟩)
        omega
      · intro b hb hb' a ha ha'
        exact hruntime ⟨b, hb, hb', a, ha, ha'⟩

theorem separate_setMarks {old new : List RepositoryCacheLayersItem} {names : List String}
    {deleted : Option Bool} : Separate (setMarks names deleted old) new ↔ Separate old new := by
  have hforall : ∀ P : String → Prop,
      (∀ a ∈ setMarks names deleted old, P a.info.packageInfoV2Module) ↔
        ∀ a ∈ old, P a.info.packageInfoV2Module := by
    intro P
    simp [setMarks]
  have hfresh := hforall fun name => ∀ b ∈ new, name ≠ b.info.packageInfoV2Module
  have hbinary := hforall fun name => name ≠ "binary"
  constructor
  · rintro ⟨hnodup, hnames, hruntime⟩
    exact ⟨hnodup, hfresh.1 hnames, fun b hb hb' => hbinary.1 (hruntime b hb hb')⟩
  · rintro ⟨hnodup, hnames, hruntime⟩
    exact ⟨hnodup, hfresh.2 hnames, fun b hb hb' => hbinary.2 (hruntime b hb hb')⟩

/-- The undo actions bring the layers back iff the pulled modules stand for
    the pulled layers, and the unmarked ones for layers that were marked. -/
theorem ownLayers_rollback_iff {old new : List RepositoryCacheLayersItem}
    {names asked pulled : List String} {s : Repo}
    (hview : s.view ref = setMarks names none old ++ new) (hnames : names ⊆ foundNames old asked)
    (hmodules : (new.map moduleName).Perm (pulled.map normModule))
    (hnew : ∀ b ∈ new, isNew ref old b = true)
    (hrefs : ∀ b ∈ new, (s.resolveRefspec (Repo.ostreeRefSpecFromLayerItem b)).isSome = true)
    (hwrite : s.NoFaults .writeCache) (hset : s.NoFaults .setRef) :
    ownLayers ref ((rollback (pulled.map (undoPull ref) ++ asked.map (undoUnmark ref)) s).view
        ref) = ownLayers ref old ↔
      Separate old new ∧ ∀ item ∈ old, item.arch = ref.arch.toString →
        item.info.packageInfoV2Module ∈ foundNames old asked → item.deleted = some true := by
  rw [rollback_append]
  by_cases hsep : Separate old new
  · obtain ⟨hpulls, hwrite'⟩ :=
      rollback_undoPull (separate_setMarks.2 hsep) hview hmodules hrefs hwrite hset
    rw [rollback_undoUnmark hwrite', hpulls, foundNames_setMarks, setMarks_setMarks hnames,
      ownLayers_setMarks_iff]
    exact (and_iff_right hsep).symm
  · refine iff_of_false (ownLayers_ne_of_isNew ?_) fun h => hsep h.1
    rw [rollback_undoUnmark_count]
    refine count_rollback_of_not_separate (mt separate_setMarks.1 hsep) ?_ hnew hview ?_
    · intro a ha
      obtain ⟨b, hb, rfl⟩ := List.mem_map.1 ha
      rw [isNew_setMark, isNew_of_mem hb]
    · simpa using hmodules.length_eq.symm

end Rollback

end Job

end Linglong
