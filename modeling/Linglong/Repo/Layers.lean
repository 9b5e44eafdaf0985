import Mathlib.Data.List.Nodup
import Linglong.Repo.Pull

/-! # The Layers of One Reference

    Most operations work on the layers of one reference: the cache items
    with its id, channel and version, called the view of the repository for
    this reference.

    The old name of the module `binary` is `runtime`, and the code treats
    the two as one. `normModule` picks one name; a repository is regular for
    a reference if no two of its layers have the same module in this sense.

    1. The layers of a reference, and what changing one item does to them.
    2. Which item `getLayerItem` finds.
-/

namespace Linglong

open Framework

/-! ## Section 1: Layers and modules -/

@[simp] theorem normModule_normModule (module : String) :
    normModule (normModule module) = normModule module := by
  unfold normModule
  split <;> simp_all

namespace RepositoryCacheLayersItem

/-- The module of a layer. -/
def moduleName (item : RepositoryCacheLayersItem) : String :=
  normModule item.info.packageInfoV2Module

/-- The item belongs to the reference; the architecture is not compared. -/
def isLayerOf (ref : Reference) (item : RepositoryCacheLayersItem) : Bool :=
  item.info.id == ref.id && item.info.channel == ref.channel &&
    item.info.version == ref.version.toString

theorem isLayerOf_iff {ref : Reference} {item : RepositoryCacheLayersItem} :
    item.isLayerOf ref = true ↔ item.info.id = ref.id ∧ item.info.channel = ref.channel ∧
      item.info.version = ref.version.toString := by
  simp [isLayerOf, and_assoc]

/-- Matching items agree on everything but the mark and the uuid. -/
theorem matchesItem_iff {item val : RepositoryCacheLayersItem} :
    item.matchesItem val = true ↔ item.commit = val.commit ∧ item.repo = val.repo ∧
      item.info.channel = val.info.channel ∧ item.info.id = val.info.id ∧
      item.info.version = val.info.version ∧ item.arch = val.arch ∧
      item.info.packageInfoV2Module = val.info.packageInfoV2Module := by
  simp [matchesItem, and_assoc]

theorem isLayerOf_of_matchesItem {ref : Reference} {item val : RepositoryCacheLayersItem}
    (h : item.matchesItem val = true) : val.isLayerOf ref = item.isLayerOf ref := by
  obtain ⟨-, -, hchannel, hid, hversion, -, -⟩ := matchesItem_iff.1 h
  simp [isLayerOf, hchannel, hid, hversion]

theorem moduleName_of_matchesItem {item val : RepositoryCacheLayersItem}
    (h : item.matchesItem val = true) : val.moduleName = item.moduleName := by
  obtain ⟨-, -, -, -, -, -, hmodule⟩ := matchesItem_iff.1 h
  simp [moduleName, hmodule]

end RepositoryCacheLayersItem

open RepositoryCacheLayersItem

/-- The layers of a reference, marked or not. -/
def layersOf (ref : Reference) (layers : List RepositoryCacheLayersItem) :
    List RepositoryCacheLayersItem :=
  layers.filter (isLayerOf ref)

/-- No two layers of the reference have the same module. -/
def UniqueModules (view : List RepositoryCacheLayersItem) : Prop :=
  (view.map moduleName).Nodup

theorem mem_layersOf {ref : Reference} {layers : List RepositoryCacheLayersItem}
    {item : RepositoryCacheLayersItem} :
    item ∈ layersOf ref layers ↔ item ∈ layers ∧ item.isLayerOf ref = true :=
  List.mem_filter

/-- Two layers with the same module are one. -/
theorem UniqueModules.eq {view : List RepositoryCacheLayersItem} (h : UniqueModules view)
    {a b : RepositoryCacheLayersItem} (ha : a ∈ view) (hb : b ∈ view)
    (hmodule : a.moduleName = b.moduleName) : a = b :=
  List.inj_on_of_nodup_map h ha hb hmodule

/-- Only the element itself has its key. -/
theorem filter_eq_singleton {α β : Type} {f : α → β} {l : List α} (hnodup : (l.map f).Nodup)
    {a : α} (ha : a ∈ l) {p : α → Bool} (hp : p a = true)
    (hkey : ∀ b ∈ l, p b = true → f b = f a) : l.filter p = [a] := by
  have hfilter : (l.filter p).Nodup := (List.Nodup.of_map _ hnodup).filter _
  refine List.perm_singleton.1 ((List.perm_ext_iff_of_nodup hfilter (List.nodup_singleton _)).2 ?_)
  intro b
  constructor
  · intro hb
    obtain ⟨hb, hpb⟩ := List.mem_filter.1 hb
    exact List.mem_singleton.2 (List.inj_on_of_nodup_map hnodup hb ha (hkey b hb hpb))
  · intro hb
    rw [List.mem_singleton.1 hb]
    exact List.mem_filter.2 ⟨ha, hp⟩

/-- Only the item itself has its module. -/
theorem UniqueModules.filter_eq {view : List RepositoryCacheLayersItem} (h : UniqueModules view)
    {item : RepositoryCacheLayersItem} (hitem : item ∈ view)
    {p : RepositoryCacheLayersItem → Bool} (hp : p item = true)
    (hmodule : ∀ b ∈ view, p b = true → b.moduleName = item.moduleName) :
    view.filter p = [item] :=
  filter_eq_singleton h hitem hp hmodule

/-! ### Changing one item -/

/-- Erasing the one element with a given key leaves none with it. -/
theorem ne_of_mem_eraseP {α β : Type} {f : α → β} {p : α → Bool} {c : β} {l : List α}
    (hnodup : (l.map f).Nodup) (hp : ∀ a ∈ l, p a = true ↔ f a = c) {b : α}
    (hb : b ∈ l.eraseP p) : f b ≠ c := by
  induction l with
  | nil => simp at hb
  | cons a l ih =>
    rw [List.map_cons, List.nodup_cons] at hnodup
    cases ha : p a with
    | true =>
      rw [List.eraseP_cons_of_pos ha] at hb
      intro heq
      refine hnodup.1 (List.mem_map.2 ⟨b, hb, ?_⟩)
      rw [heq, (hp a (by simp)).1 ha]
    | false =>
      rw [List.eraseP_cons_of_neg (by simp [ha]), List.mem_cons] at hb
      rcases hb with rfl | hb
      · intro heq
        rw [(hp b (by simp)).2 heq] at ha
        cases ha
      · exact ih hnodup.2 (fun d hd => hp d (by simp [hd])) hb

/-- The first match of a layer that is there, and what is left without it. -/
theorem exists_first_match {layers : List RepositoryCacheLayersItem}
    {item : RepositoryCacheLayersItem} (hitem : item ∈ layers) :
    ∃ b, layers.find? item.matchesItem = some b ∧ b ∈ layers ∧ item.matchesItem b = true ∧
      (b :: layers.eraseP item.matchesItem).Perm layers := by
  obtain ⟨b, pre, post, hpre, hmatch, hlayers, herase⟩ :=
    List.exists_of_eraseP hitem (matchesItem_self item)
  have hfind : layers.find? item.matchesItem = some b := by
    refine List.find?_eq_some_iff_append.2 ⟨hmatch, pre, post, hlayers, fun c hc => ?_⟩
    rw [Bool.not_eq_true', ← Bool.not_eq_true]
    exact hpre c hc
  refine ⟨b, hfind, List.mem_of_find?_eq_some hfind, hmatch, ?_⟩
  rw [herase, hlayers]
  exact List.perm_middle.symm

/-- Erasing the first match does not touch what cannot match. -/
theorem filter_eraseP_of_disjoint {α : Type} {p q : α → Bool} (h : ∀ a, p a = true → q a = false)
    (l : List α) : (l.eraseP p).filter q = l.filter q := by
  induction l with
  | nil => rfl
  | cons a l ih =>
    by_cases hp : p a = true
    · rw [List.eraseP_cons_of_pos hp, List.filter_cons_of_neg (by simp [h a hp])]
    · rw [List.eraseP_cons_of_neg hp, List.filter_cons, List.filter_cons, ih]

/-- Set the mark of the layers with the given module. -/
def markModule (name : String) (deleted : Option Bool)
    (view : List RepositoryCacheLayersItem) : List RepositoryCacheLayersItem :=
  view.map fun item => if item.moduleName = name then { item with deleted := deleted } else item

/-- Drop the layers with the given module. -/
def dropModule (name : String) (view : List RepositoryCacheLayersItem) :
    List RepositoryCacheLayersItem :=
  view.filter fun item => item.moduleName ≠ name

/-- The first match of a layer of another reference is none of `ref`. -/
theorem layersOf_eraseP_other {ref : Reference} {item : RepositoryCacheLayersItem}
    (h : item.isLayerOf ref = false) (layers : List RepositoryCacheLayersItem) :
    layersOf ref (layers.eraseP item.matchesItem) = layersOf ref layers := by
  induction layers with
  | nil => rfl
  | cons b layers ih =>
    cases hmatch : item.matchesItem b with
    | true =>
      have hb : ¬ b.isLayerOf ref = true := by rw [isLayerOf_of_matchesItem hmatch, h]; simp
      rw [List.eraseP_cons_of_pos hmatch, layersOf, layersOf, List.filter_cons_of_neg hb]
    | false =>
      rw [List.eraseP_cons_of_neg (by simp [hmatch])]
      unfold layersOf at ih ⊢
      rw [List.filter_cons, List.filter_cons, ih]

/-- Where the first match of a layer stands: before it there is no layer of
    the reference with its module, after it there is none either. -/
theorem UniqueModules.split {ref : Reference} {layers : List RepositoryCacheLayersItem}
    (hunique : UniqueModules (layersOf ref layers)) {item : RepositoryCacheLayersItem}
    (hitem : item ∈ layersOf ref layers) :
    ∃ pre post, layers = pre ++ item :: post ∧ (∀ b ∈ pre, item.matchesItem b = false) ∧
      (∀ b ∈ layersOf ref pre ++ layersOf ref post, b.moduleName ≠ item.moduleName) := by
  obtain ⟨hmem, hlayer⟩ := mem_layersOf.1 hitem
  obtain ⟨pre, post, rfl⟩ := List.append_of_mem hmem
  have hview : layersOf ref (pre ++ item :: post) =
      layersOf ref pre ++ item :: layersOf ref post := by
    simp [layersOf, List.filter_append, List.filter_cons_of_pos hlayer]
  rw [UniqueModules, hview] at hunique
  simp only [List.map_append, List.map_cons, List.nodup_middle, List.nodup_cons,
    List.mem_append, List.mem_map, not_or, not_exists, not_and] at hunique
  have hother : ∀ b ∈ layersOf ref pre ++ layersOf ref post, b.moduleName ≠ item.moduleName := by
    intro b hb
    rcases List.mem_append.1 hb with hb | hb
    · exact hunique.1.1 b hb
    · exact hunique.1.2 b hb
  refine ⟨pre, post, rfl, ?_, hother⟩
  intro b hb
  by_contra hmatch
  have hmatch' : item.matchesItem b = true := by simpa using hmatch
  have hb' : b ∈ layersOf ref pre :=
    mem_layersOf.2 ⟨hb, by rw [isLayerOf_of_matchesItem hmatch', hlayer]⟩
  exact hother b (List.mem_append_left _ hb') (moduleName_of_matchesItem hmatch')

theorem markModule_eq_self {name : String} {deleted : Option Bool}
    {view : List RepositoryCacheLayersItem} (h : ∀ b ∈ view, b.moduleName ≠ name) :
    markModule name deleted view = view := by
  unfold markModule
  conv_rhs => rw [← List.map_id view]
  refine List.map_congr_left fun b hb => ?_
  rw [if_neg (h b hb), id]

theorem dropModule_eq_self {name : String} {view : List RepositoryCacheLayersItem}
    (h : ∀ b ∈ view, b.moduleName ≠ name) : dropModule name view = view :=
  List.filter_eq_self.2 fun b hb => decide_eq_true (h b hb)

theorem setDeletedFirst_append {p : RepositoryCacheLayersItem → Bool} {deleted : Option Bool}
    {pre post : List RepositoryCacheLayersItem} {item : RepositoryCacheLayersItem}
    (hpre : ∀ b ∈ pre, p b = false) (hp : p item = true) :
    setDeletedFirst p deleted (pre ++ item :: post) =
      pre ++ { item with deleted := deleted } :: post := by
  induction pre with
  | nil => simp [setDeletedFirst, hp]
  | cons b pre ih =>
    simp only [List.cons_append, setDeletedFirst, hpre b (by simp), Bool.false_eq_true, if_false]
    rw [ih fun c hc => hpre c (by simp [hc])]

/-- Marking the first match of a layer marks its module. -/
theorem layersOf_setDeletedFirst {ref : Reference} {layers : List RepositoryCacheLayersItem}
    (hunique : UniqueModules (layersOf ref layers)) {item : RepositoryCacheLayersItem}
    (hitem : item ∈ layersOf ref layers) (deleted : Option Bool) :
    layersOf ref (setDeletedFirst item.matchesItem deleted layers) =
      markModule item.moduleName deleted (layersOf ref layers) := by
  have hlayer : item.isLayerOf ref = true := (mem_layersOf.1 hitem).2
  obtain ⟨pre, post, rfl, hpre, hother⟩ := hunique.split hitem
  rw [setDeletedFirst_append hpre (by simp)]
  have hmark : ∀ l, (∀ b ∈ layersOf ref l, b ∈ layersOf ref pre ++ layersOf ref post) →
      markModule item.moduleName deleted (layersOf ref l) = layersOf ref l :=
    fun l hl => markModule_eq_self fun b hb => hother b (hl b hb)
  have hpre' := hmark pre fun b hb => List.mem_append_left _ hb
  have hpost' := hmark post fun b hb => List.mem_append_right _ hb
  have hlayer' : isLayerOf ref { item with deleted := deleted } = true := hlayer
  unfold layersOf at hpre' hpost' ⊢
  rw [List.filter_append, List.filter_append, List.filter_cons_of_pos hlayer,
    List.filter_cons_of_pos hlayer']
  unfold markModule at hpre' hpost' ⊢
  rw [List.map_append, List.map_cons, hpre', hpost', if_pos rfl]

/-- Erasing the first match of a layer drops its module. -/
theorem layersOf_eraseP {ref : Reference} {layers : List RepositoryCacheLayersItem}
    (hunique : UniqueModules (layersOf ref layers)) {item : RepositoryCacheLayersItem}
    (hitem : item ∈ layersOf ref layers) :
    layersOf ref (layers.eraseP item.matchesItem) =
      dropModule item.moduleName (layersOf ref layers) := by
  have hlayer : item.isLayerOf ref = true := (mem_layersOf.1 hitem).2
  obtain ⟨pre, post, rfl, hpre, hother⟩ := hunique.split hitem
  rw [List.eraseP_append_right _ (by simpa using hpre), List.eraseP_cons_of_pos (by simp)]
  have hdrop : ∀ l, (∀ b ∈ layersOf ref l, b ∈ layersOf ref pre ++ layersOf ref post) →
      dropModule item.moduleName (layersOf ref l) = layersOf ref l :=
    fun l hl => dropModule_eq_self fun b hb => hother b (hl b hb)
  have hpre' := hdrop pre fun b hb => List.mem_append_left _ hb
  have hpost' := hdrop post fun b hb => List.mem_append_right _ hb
  unfold layersOf at hpre' hpost' ⊢
  rw [List.filter_append, List.filter_append, List.filter_cons_of_pos hlayer]
  unfold dropModule at hpre' hpost' ⊢
  rw [List.filter_append, List.filter_cons_of_neg (by simp), hpre', hpost']

/-! ## Section 2: Finding a layer -/

namespace Repo

/-- `layersOf` in a repository. -/
def view (s : Repo) (ref : Reference) : List RepositoryCacheLayersItem := layersOf ref s.layers

theorem layerQuery_accepts (ref : Reference) (module : String)
    (item : RepositoryCacheLayersItem) :
    (layerQuery ref (some module) none).accepts item =
      (item.isLayerOf ref && item.info.packageInfoV2Module == module) := by
  simp only [layerQuery, RepoCacheQuery.accepts, isLayerOf, Option.all_some, Option.all_none,
    Bool.and_true]
  rw [Bool.eq_iff_iff]
  simp only [Bool.and_eq_true, beq_iff_eq]
  constructor
  · rintro ⟨⟨⟨hid, hchannel⟩, hversion⟩, hmodule⟩
    exact ⟨⟨⟨hid.symm, hchannel.symm⟩, hversion.symm⟩, hmodule.symm⟩
  · rintro ⟨⟨⟨hid, hchannel⟩, hversion⟩, hmodule⟩
    exact ⟨⟨⟨hid.symm, hchannel.symm⟩, hversion.symm⟩, hmodule.symm⟩

/-- A query for a module of a reference only looks at its layers. -/
theorem queryLayerItem_layerQuery (s : Repo) (ref : Reference) (module : String) :
    s.queryLayerItem (layerQuery ref (some module) none) =
      s.outside.sort.byVersion
        ((s.view ref).filter fun item => item.info.packageInfoV2Module == module) := by
  unfold queryLayerItem queryItems view layersOf
  rw [List.filter_filter]
  congr 2
  funext item
  rw [layerQuery_accepts, Bool.and_comm]

/-- What `getLayerItem` finds is a layer of the reference and has the
    module. -/
theorem getLayerItem_mem {s : Repo} {ref : Reference} {module : String} {subRef : Option String}
    {item : RepositoryCacheLayersItem} (h : s.getLayerItem ref module subRef = .ok item) :
    item ∈ s.view ref ∧ item.moduleName = normModule module := by
  have hquery : ∀ m, item ∈ s.queryLayerItem (layerQuery ref (some m) subRef) →
      item ∈ s.view ref ∧ item.info.packageInfoV2Module = m := by
    intro m hmem
    obtain ⟨hmem, hacc⟩ := mem_queryItems.1 hmem
    simp only [layerQuery, RepoCacheQuery.accepts, Option.all_some, Option.all_none,
      Bool.and_eq_true, beq_iff_eq] at hacc
    obtain ⟨⟨⟨⟨⟨⟨hid, -⟩, hchannel⟩, hversion⟩, hmodule⟩, -⟩, -⟩ := hacc
    exact ⟨mem_layersOf.2 ⟨hmem, isLayerOf_iff.2 ⟨hid.symm, hchannel.symm, hversion.symm⟩⟩,
      hmodule.symm⟩
  unfold getLayerItem at h
  -- the first query has one answer, or the fallback to `runtime` has
  split at h
  · next item' heq =>
    cases h
    obtain ⟨hview, hmodule⟩ := hquery _ (by rw [heq]; simp)
    refine ⟨hview, ?_⟩
    rw [moduleName, hmodule]
    exact normModule_normModule module
  · cases h
  · split at h
    · cases h
    · next hbinary =>
      split at h
      · next item' heq =>
        cases h
        obtain ⟨hview, hmodule⟩ := hquery _ (by rw [heq]; simp)
        refine ⟨hview, ?_⟩
        have hnorm : normModule module = "binary" := not_not.1 hbinary
        rw [moduleName, hmodule, hnorm]
        rfl
      · cases h
      · cases h

/-- In a regular repository `getLayerItem` finds the layer with the given
    module. -/
theorem getLayerItem_eq {s : Repo} {ref : Reference} (hunique : UniqueModules (s.view ref))
    {item : RepositoryCacheLayersItem} (hitem : item ∈ s.view ref) {module : String}
    (hmodule : item.moduleName = normModule module) :
    s.getLayerItem ref module none = .ok item := by
  have hsingle : ∀ m, item.info.packageInfoV2Module = m → normModule m = normModule module →
      s.queryLayerItem (layerQuery ref (some m) none) = [item] := by
    intro m hm hnorm
    rw [queryLayerItem_layerQuery, hunique.filter_eq hitem (by simpa using hm),
      StdSort.byVersion_singleton]
    intro b _ hb
    rw [moduleName, moduleName, beq_iff_eq.1 hb, hm]
  unfold getLayerItem
  by_cases hruntime : item.info.packageInfoV2Module = "runtime"
  · -- stored under the old name: there is no layer with the new one
    have hnorm : normModule module = "binary" := by
      rw [← hmodule, moduleName, hruntime]
      rfl
    have hempty : s.queryLayerItem (layerQuery ref (some "binary") none) = [] := by
      have hfilter : (s.view ref).filter
          (fun b => b.info.packageInfoV2Module == "binary") = [] := by
        refine List.filter_eq_nil_iff.2 ?_
        intro b hb hbinary
        have hname : b.moduleName = item.moduleName := by
          rw [moduleName, moduleName, beq_iff_eq.1 hbinary, hruntime]
          rfl
        have hsame := hunique.eq hb hitem hname
        rw [hsame, hruntime] at hbinary
        exact absurd hbinary (by decide)
      rw [queryLayerItem_layerQuery, hfilter, StdSort.byVersion_nil]
    rw [hnorm, hempty]
    simp only [ne_eq, not_true_eq_false, if_false, hsingle "runtime" hruntime (hnorm ▸ rfl)]
  · have hname : item.info.packageInfoV2Module = normModule module := by
      rw [← hmodule, moduleName, normModule, if_neg hruntime]
    rw [hsingle _ hname (normModule_normModule module)]

/-- `getLayerItem` only looks at the layers of the reference. -/
theorem getLayerItem_of_view {s s' : Repo} {ref ref' : Reference}
    (houtside : s'.outside = s.outside) (hview : s'.view ref' = s.view ref) {module : String}
    {item : RepositoryCacheLayersItem} (h : s.getLayerItem ref module none = .ok item) :
    s'.getLayerItem ref' module none = .ok item := by
  unfold getLayerItem at h ⊢
  simp only [queryLayerItem_layerQuery, houtside, hview] at h ⊢
  split at h
  · exact h
  · cases h
  · split at h
    · cases h
    · next hbinary =>
      rw [if_neg hbinary]
      split at h
      · exact h
      · cases h
      · cases h

/-- The layers that a query of `getLayerItem` accepts. -/
def answers (ref : Reference) (module : String) (uuid : Option String)
    (layers : List RepositoryCacheLayersItem) : List RepositoryCacheLayersItem :=
  layers.filter (layerQuery ref (some module) uuid).accepts

theorem mem_answers {ref : Reference} {module : String} {uuid : Option String}
    {layers : List RepositoryCacheLayersItem} {item : RepositoryCacheLayersItem} :
    item ∈ answers ref module uuid layers ↔
      item ∈ layers ∧ item.isLayerOf ref = true ∧ item.info.packageInfoV2Module = module ∧
        (uuid = none ∨ item.info.uuid = uuid) := by
  unfold answers
  rw [List.mem_filter, isLayerOf_iff]
  simp only [layerQuery, RepoCacheQuery.accepts, Option.all_some, Option.all_none,
    Bool.and_eq_true, beq_iff_eq, Bool.and_true]
  cases uuid <;> grind

theorem byVersion_eq_singleton {sort : StdSort} {l : List RepositoryCacheLayersItem}
    {item : RepositoryCacheLayersItem} : sort.byVersion l = [item] ↔ l = [item] := by
  have hperm := sort.byVersion_perm l
  constructor
  · intro h
    rw [h] at hperm
    exact List.perm_singleton.1 hperm.symm
  · rintro rfl
    exact sort.byVersion_singleton item

theorem byVersion_eq_nil {sort : StdSort} {l : List RepositoryCacheLayersItem} :
    sort.byVersion l = [] ↔ l = [] := by
  have hperm := sort.byVersion_perm l
  constructor
  · intro h
    rw [h] at hperm
    exact List.perm_nil.1 hperm.symm
  · rintro rfl
    exact sort.byVersion_nil

/-- What `getLayerItem` finds: the only answer, under the new name of the
    module or else under the old one. -/
theorem getLayerItem_answers {s : Repo} {ref : Reference} {module : String}
    {uuid : Option String} {found : RepositoryCacheLayersItem} :
    s.getLayerItem ref module uuid = .ok found ↔
      answers ref (normModule module) uuid s.layers = [found] ∨
        (answers ref (normModule module) uuid s.layers = [] ∧ normModule module = "binary" ∧
          answers ref "runtime" uuid s.layers = [found]) := by
  have hone : ∀ m, answers ref m uuid s.layers = [found] ↔
      s.queryLayerItem (layerQuery ref (some m) uuid) = [found] :=
    fun _ => byVersion_eq_singleton.symm
  have hnone : ∀ m, answers ref m uuid s.layers = [] ↔
      s.queryLayerItem (layerQuery ref (some m) uuid) = [] :=
    fun _ => byVersion_eq_nil.symm
  unfold getLayerItem
  simp only [hone, hnone]
  split
  · next heq => simp [heq]
  · next heq => simp [heq]
  · next heq =>
    rw [heq]
    by_cases hbinary : normModule module = "binary"
    · rw [if_neg (not_not.2 hbinary)]
      split
      · next heq' => simp [heq', hbinary]
      · next heq' => simp [heq']
      · next heq' => simp [heq']
    · simp [hbinary]

/-- A directory is found iff its layer is found and it exists. -/
theorem getLayerDir_ok_iff {s : Repo} {ref : Reference} {module : String}
    {subRef : Option String} {dir : Option String} :
    s.getLayerDir ref module subRef = .ok dir ↔
      ∃ layer, s.getLayerItem ref module subRef = .ok layer ∧
        s.layerDirs.lookup layer.commit = some dir := by
  unfold getLayerDir
  rw [bind_eq_ok_iff]
  refine exists_congr fun layer => and_congr_right fun _ => ?_
  unfold layerDirOf
  cases s.layerDirs.lookup layer.commit <;> simp

/-- The query of `getModuleList`. -/
theorem layerQuery_accepts_none (ref : Reference) :
    (layerQuery ref none none).accepts = isLayerOf ref := by
  funext item
  rw [Bool.eq_iff_iff, isLayerOf_iff]
  simp only [layerQuery, RepoCacheQuery.accepts, Option.all_some, Option.all_none, Bool.and_true,
    Bool.and_eq_true, beq_iff_eq]
  constructor
  · rintro ⟨⟨hid, hchannel⟩, hversion⟩
    exact ⟨hid.symm, hchannel.symm, hversion.symm⟩
  · rintro ⟨hid, hchannel, hversion⟩
    exact ⟨⟨hid.symm, hchannel.symm⟩, hversion.symm⟩

/-- `getModuleList` has the modules of the layers of the reference. -/
theorem getModuleList_perm (s : Repo) (ref : Reference) :
    (s.getModuleList ref).Perm
      ((s.view ref).map fun item => item.info.packageInfoV2Module) := by
  unfold getModuleList queryLayerItem queryItems
  rw [layerQuery_accepts_none]
  exact ((s.outside.sort.byModule_perm _).trans (s.outside.sort.byVersion_perm _)).map _

end Repo

end Linglong
