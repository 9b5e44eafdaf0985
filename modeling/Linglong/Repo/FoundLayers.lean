import Linglong.Repo.Steps

/-! # Which Layer a Module Stands for

    A cache may hold several layers of one reference with the same module,
    layers named `binary` beside layers named `runtime`, and layers of
    several architectures. This module says what `getLayerItem` finds in any
    such cache, and what marking and removing the found layer does to the
    others: a layer that is found is the only one with its module name, so
    the name stands for the layer.

    1. What is found (`getLayerItem_eq_ok_iff`).
    2. Setting marks.
    3. Changing the found layer.
-/

namespace Linglong

open Framework RepositoryCacheLayersItem

/-! ## Section 1: What is found -/

/-- The layers with a module name. -/
def withModule (name : String) (view : List RepositoryCacheLayersItem) :
    List RepositoryCacheLayersItem :=
  view.filter fun item => item.info.packageInfoV2Module == name

/-- What `getLayerItem` finds among the layers of a reference: the only one
    with the name, or else the only one with the old name. -/
def findLayer (view : List RepositoryCacheLayersItem) (name : String) :
    Option RepositoryCacheLayersItem :=
  match withModule name view with
  | [item] => some item
  | _ :: _ :: _ => none
  | [] =>
      if name ≠ "binary" then none
      else
        match withModule "runtime" view with
        | [item] => some item
        | _ => none

theorem mem_withModule {name : String} {view : List RepositoryCacheLayersItem}
    {item : RepositoryCacheLayersItem} :
    item ∈ withModule name view ↔ item ∈ view ∧ item.info.packageInfoV2Module = name := by
  simp [withModule]

theorem withModule_append (name : String) (l l' : List RepositoryCacheLayersItem) :
    withModule name (l ++ l') = withModule name l ++ withModule name l' :=
  List.filter_append ..

theorem withModule_eq_nil {name : String} {view : List RepositoryCacheLayersItem} :
    withModule name view = [] ↔ ∀ b ∈ view, b.info.packageInfoV2Module ≠ name := by
  simp [withModule, List.filter_eq_nil_iff]

/-- How often a module name occurs. -/
theorem length_withModule (name : String) (view : List RepositoryCacheLayersItem) :
    (withModule name view).length =
      (view.map fun item => item.info.packageInfoV2Module).count name := by
  rw [List.count_eq_countP, List.countP_map, List.countP_eq_length_filter]
  rfl

theorem findLayer_eq_some {view : List RepositoryCacheLayersItem} {name : String}
    {item : RepositoryCacheLayersItem} :
    findLayer view name = some item ↔ withModule name view = [item] ∨
      withModule name view = [] ∧ name = "binary" ∧ withModule "runtime" view = [item] := by
  unfold findLayer
  split
  · next heq => simp [heq]
  · next heq => simp [heq]
  · next heq =>
    rw [heq]
    by_cases hbinary : name = "binary"
    · rw [if_neg (not_not.2 hbinary)]
      split
      · next heq' => simp [hbinary, heq']
      · next hne => simpa [hbinary] using hne item
    · simp [hbinary]

/-- The found layer is the only one with its module name. -/
theorem withModule_of_findLayer {view : List RepositoryCacheLayersItem} {name : String}
    {item : RepositoryCacheLayersItem} (h : findLayer view name = some item) :
    withModule item.info.packageInfoV2Module view = [item] := by
  have hname : ∀ m, withModule m view = [item] →
      withModule item.info.packageInfoV2Module view = [item] := by
    intro m hone
    have hmem : item ∈ withModule m view := by rw [hone]; exact List.mem_singleton.2 rfl
    rwa [(mem_withModule.1 hmem).2]
  rcases findLayer_eq_some.1 h with hone | ⟨-, -, hone⟩
  · exact hname _ hone
  · exact hname _ hone

theorem mem_of_findLayer {view : List RepositoryCacheLayersItem} {name : String}
    {item : RepositoryCacheLayersItem} (h : findLayer view name = some item) : item ∈ view := by
  have hmem : item ∈ withModule item.info.packageInfoV2Module view := by
    rw [withModule_of_findLayer h]
    exact List.mem_singleton.2 rfl
  exact (mem_withModule.1 hmem).1

/-- Any layer with the name of a found one is this one. -/
theorem eq_of_findLayer {view : List RepositoryCacheLayersItem} {name : String}
    {item b : RepositoryCacheLayersItem} (h : findLayer view name = some item) (hb : b ∈ view)
    (hname : b.info.packageInfoV2Module = item.info.packageInfoV2Module) : b = item := by
  have hmem : b ∈ withModule item.info.packageInfoV2Module view := mem_withModule.2 ⟨hb, hname⟩
  rw [withModule_of_findLayer h] at hmem
  exact List.mem_singleton.1 hmem

theorem answers_eq_withModule (ref : Reference) (name : String)
    (layers : List RepositoryCacheLayersItem) :
    Repo.answers ref name none layers = withModule name (layersOf ref layers) := by
  unfold Repo.answers withModule layersOf
  rw [List.filter_filter]
  congr 1
  funext item
  rw [Repo.layerQuery_accepts, Bool.and_comm]

/-- `getLayerItem` finds the layer that the module name stands for. -/
theorem Repo.getLayerItem_eq_ok_iff {s : Repo} {ref : Reference} {module : String}
    {item : RepositoryCacheLayersItem} :
    s.getLayerItem ref module none = .ok item ↔
      findLayer (s.view ref) (normModule module) = some item := by
  rw [getLayerItem_answers, findLayer_eq_some, answers_eq_withModule, answers_eq_withModule]
  exact Iff.rfl

/-! ## Section 2: Setting marks -/

/-- Set the mark of a layer if it has one of the module names. -/
def setMark (names : List String) (deleted : Option Bool) (item : RepositoryCacheLayersItem) :
    RepositoryCacheLayersItem :=
  if item.info.packageInfoV2Module ∈ names then { item with deleted := deleted } else item

/-- The same for all layers. -/
def setMarks (names : List String) (deleted : Option Bool)
    (view : List RepositoryCacheLayersItem) : List RepositoryCacheLayersItem :=
  view.map (setMark names deleted)

theorem setMark_of_mem {names : List String} {deleted : Option Bool}
    {item : RepositoryCacheLayersItem} (h : item.info.packageInfoV2Module ∈ names) :
    setMark names deleted item = { item with deleted := deleted } :=
  if_pos h

theorem setMark_of_not_mem {names : List String} {deleted : Option Bool}
    {item : RepositoryCacheLayersItem} (h : item.info.packageInfoV2Module ∉ names) :
    setMark names deleted item = item :=
  if_neg h

@[simp] theorem setMark_info (names : List String) (deleted : Option Bool)
    (item : RepositoryCacheLayersItem) : (setMark names deleted item).info = item.info := by
  unfold setMark
  split <;> rfl

@[simp] theorem setMark_arch (names : List String) (deleted : Option Bool)
    (item : RepositoryCacheLayersItem) : (setMark names deleted item).arch = item.arch := by
  rw [arch, arch, setMark_info]

/-- The mark is not compared. -/
@[simp] theorem matchesItem_setMark (names : List String) (deleted : Option Bool)
    (item val : RepositoryCacheLayersItem) :
    item.matchesItem (setMark names deleted val) = item.matchesItem val := by
  unfold setMark
  split <;> rfl

@[simp] theorem setMarks_nil (deleted : Option Bool) (view : List RepositoryCacheLayersItem) :
    setMarks [] deleted view = view := by
  unfold setMarks
  conv_rhs => rw [← List.map_id view]
  exact List.map_congr_left fun b _ => setMark_of_not_mem (List.not_mem_nil)

theorem setMarks_append (names : List String) (deleted : Option Bool)
    (l l' : List RepositoryCacheLayersItem) :
    setMarks names deleted (l ++ l') = setMarks names deleted l ++ setMarks names deleted l' :=
  List.map_append

theorem setMark_setMark {names names' : List String} (h : names ⊆ names')
    (deleted deleted' : Option Bool) (item : RepositoryCacheLayersItem) :
    setMark names' deleted' (setMark names deleted item) = setMark names' deleted' item := by
  by_cases hitem : item.info.packageInfoV2Module ∈ names
  · have hitem' : item.info.packageInfoV2Module ∈ names' := h hitem
    have hset : (setMark names deleted item).info.packageInfoV2Module ∈ names' := by
      rwa [setMark_info]
    rw [setMark_of_mem hset, setMark_of_mem hitem', setMark_of_mem hitem]
  · rw [setMark_of_not_mem hitem]

/-- The last mark counts. -/
theorem setMarks_setMarks {names names' : List String} (h : names ⊆ names')
    (deleted deleted' : Option Bool) (view : List RepositoryCacheLayersItem) :
    setMarks names' deleted' (setMarks names deleted view) = setMarks names' deleted' view := by
  unfold setMarks
  rw [List.map_map]
  exact List.map_congr_left fun b _ => setMark_setMark h deleted deleted' b

theorem setMark_append (names names' : List String) (deleted : Option Bool)
    (item : RepositoryCacheLayersItem) :
    setMark names deleted (setMark names' deleted item) =
      setMark (names ++ names') deleted item := by
  unfold setMark
  by_cases hnames : item.info.packageInfoV2Module ∈ names'
  · simp [hnames]
  · simp [hnames]

/-- The same mark for more names. -/
theorem setMarks_same (names names' : List String) (deleted : Option Bool)
    (view : List RepositoryCacheLayersItem) :
    setMarks names deleted (setMarks names' deleted view) =
      setMarks (names ++ names') deleted view := by
  unfold setMarks
  rw [List.map_map]
  exact List.map_congr_left fun b _ => setMark_append names names' deleted b

theorem setMarks_congr {names names' : List String} (h : ∀ name, name ∈ names ↔ name ∈ names')
    (deleted : Option Bool) (view : List RepositoryCacheLayersItem) :
    setMarks names deleted view = setMarks names' deleted view := by
  unfold setMarks setMark
  simp only [h]

theorem withModule_setMarks (name : String) (names : List String) (deleted : Option Bool)
    (view : List RepositoryCacheLayersItem) :
    withModule name (setMarks names deleted view) =
      setMarks names deleted (withModule name view) := by
  unfold withModule setMarks
  rw [List.filter_map]
  congr 1
  refine List.filter_congr fun b _ => ?_
  rw [Function.comp, setMark_info]

/-- Marks do not decide which layer is found. -/
theorem findLayer_setMarks (view : List RepositoryCacheLayersItem) (name : String)
    (names : List String) (deleted : Option Bool) :
    findLayer (setMarks names deleted view) name =
      (findLayer view name).map (setMark names deleted) := by
  unfold findLayer
  rw [withModule_setMarks, withModule_setMarks]
  unfold setMarks
  rcases withModule name view with _ | ⟨a, _ | ⟨b, l⟩⟩
  · rcases withModule "runtime" view with _ | ⟨a, _ | ⟨b, l⟩⟩ <;>
      by_cases hb : name = "binary" <;> simp [hb]
  · rfl
  · rfl

/-- Setting a mark that is there already. -/
theorem setMarks_eq_self {names : List String} {deleted : Option Bool}
    {view : List RepositoryCacheLayersItem}
    (h : ∀ b ∈ view, b.info.packageInfoV2Module ∈ names → b.deleted = deleted) :
    setMarks names deleted view = view := by
  unfold setMarks
  conv_rhs => rw [← List.map_id view]
  refine List.map_congr_left fun b hb => ?_
  by_cases hname : b.info.packageInfoV2Module ∈ names
  · rw [setMark_of_mem hname, ← h b hb hname, id]
  · rw [setMark_of_not_mem hname, id]

/-! ## Section 3: Changing the found layer -/

/-- The layers without those of a module name. -/
def withoutModule (name : String) (view : List RepositoryCacheLayersItem) :
    List RepositoryCacheLayersItem :=
  view.filter fun item => item.info.packageInfoV2Module != name

theorem mem_withoutModule {name : String} {view : List RepositoryCacheLayersItem}
    {item : RepositoryCacheLayersItem} :
    item ∈ withoutModule name view ↔ item ∈ view ∧ item.info.packageInfoV2Module ≠ name := by
  simp [withoutModule]

theorem withoutModule_append (name : String) (l l' : List RepositoryCacheLayersItem) :
    withoutModule name (l ++ l') = withoutModule name l ++ withoutModule name l' :=
  List.filter_append ..

theorem withoutModule_eq_self {name : String} {view : List RepositoryCacheLayersItem}
    (h : ∀ b ∈ view, b.info.packageInfoV2Module ≠ name) : withoutModule name view = view :=
  List.filter_eq_self.2 fun b hb => by simpa using h b hb

/-- Where a layer stands that is the only one with its module name. -/
theorem split_of_only {ref : Reference} {layers : List RepositoryCacheLayersItem}
    {item : RepositoryCacheLayersItem}
    (honly : withModule item.info.packageInfoV2Module (layersOf ref layers) = [item]) :
    ∃ pre post, layers = pre ++ item :: post ∧ item.isLayerOf ref = true ∧
      (∀ b ∈ pre, item.matchesItem b = false) ∧
      ∀ b ∈ layersOf ref pre ++ layersOf ref post,
        b.info.packageInfoV2Module ≠ item.info.packageInfoV2Module := by
  have hmem : item ∈ withModule item.info.packageInfoV2Module (layersOf ref layers) := by
    rw [honly]
    exact List.mem_singleton.2 rfl
  obtain ⟨hlayers, hlayer⟩ := mem_layersOf.1 (mem_withModule.1 hmem).1
  obtain ⟨pre, post, rfl⟩ := List.append_of_mem hlayers
  have hself : withModule item.info.packageInfoV2Module [item] = [item] := by simp [withModule]
  have hview : layersOf ref (pre ++ item :: post) =
      layersOf ref pre ++ ([item] ++ layersOf ref post) := by
    simp [layersOf, List.filter_append, List.filter_cons_of_pos hlayer]
  -- the list of those with the name has one element, and `item` is one
  rw [hview, withModule_append, withModule_append, hself] at honly
  have hlength := congrArg List.length honly
  simp only [List.length_append, List.length_cons, List.length_nil] at hlength
  have hpre : withModule item.info.packageInfoV2Module (layersOf ref pre) = [] :=
    List.length_eq_zero_iff.1 (by omega)
  have hpost : withModule item.info.packageInfoV2Module (layersOf ref post) = [] :=
    List.length_eq_zero_iff.1 (by omega)
  refine ⟨pre, post, rfl, hlayer, ?_, ?_⟩
  · intro b hb
    by_contra hmatch
    have hmatch' : item.matchesItem b = true := by simpa using hmatch
    obtain ⟨-, -, -, -, -, -, hmodule⟩ := matchesItem_iff.1 hmatch'
    have hb' : b ∈ layersOf ref pre :=
      mem_layersOf.2 ⟨hb, by rw [isLayerOf_of_matchesItem hmatch', hlayer]⟩
    exact withModule_eq_nil.1 hpre b hb' hmodule.symm
  · intro b hb
    rcases List.mem_append.1 hb with hb | hb
    · exact withModule_eq_nil.1 hpre b hb
    · exact withModule_eq_nil.1 hpost b hb

/-- Setting the mark of a layer that is the only one with its name. -/
theorem layersOf_setDeletedFirst_only {ref : Reference}
    {layers : List RepositoryCacheLayersItem} {item : RepositoryCacheLayersItem}
    (honly : withModule item.info.packageInfoV2Module (layersOf ref layers) = [item])
    (deleted : Option Bool) :
    layersOf ref (setDeletedFirst item.matchesItem deleted layers) =
      setMarks [item.info.packageInfoV2Module] deleted (layersOf ref layers) := by
  obtain ⟨pre, post, rfl, hlayer, hpre, hother⟩ := split_of_only honly
  rw [setDeletedFirst_append hpre (by simp)]
  have hkeep : ∀ l, (∀ b ∈ layersOf ref l, b ∈ layersOf ref pre ++ layersOf ref post) →
      setMarks [item.info.packageInfoV2Module] deleted (layersOf ref l) = layersOf ref l := by
    refine fun l hl => setMarks_eq_self fun b hb hname => ?_
    exact absurd (List.mem_singleton.1 hname) (hother b (hl b hb))
  have hpre' := hkeep pre fun b hb => List.mem_append_left _ hb
  have hpost' := hkeep post fun b hb => List.mem_append_right _ hb
  have hlayer' : isLayerOf ref { item with deleted := deleted } = true := hlayer
  unfold layersOf at hpre' hpost' ⊢
  rw [List.filter_append, List.filter_append, List.filter_cons_of_pos hlayer,
    List.filter_cons_of_pos hlayer', setMarks_append, hpre']
  unfold setMarks at hpost' ⊢
  rw [List.map_cons, hpost', setMark_of_mem (List.mem_singleton.2 rfl)]

/-- Removing a layer that is the only one with its name. -/
theorem layersOf_eraseP_only {ref : Reference} {layers : List RepositoryCacheLayersItem}
    {item : RepositoryCacheLayersItem}
    (honly : withModule item.info.packageInfoV2Module (layersOf ref layers) = [item]) :
    layersOf ref (layers.eraseP item.matchesItem) =
      withoutModule item.info.packageInfoV2Module (layersOf ref layers) := by
  obtain ⟨pre, post, rfl, hlayer, hpre, hother⟩ := split_of_only honly
  rw [List.eraseP_append_right _ (by simpa using hpre), List.eraseP_cons_of_pos (by simp)]
  have hpre' := withoutModule_eq_self fun b hb => hother b (List.mem_append_left _ hb)
  have hpost' := withoutModule_eq_self fun b hb => hother b (List.mem_append_right _ hb)
  unfold layersOf at hpre' hpost' ⊢
  rw [List.filter_append, List.filter_append, List.filter_cons_of_pos hlayer,
    withoutModule_append, hpre']
  congr 1
  unfold withoutModule at hpost' ⊢
  rw [List.filter_cons_of_neg (by simp), hpost']

/-- It is one layer that goes. -/
theorem countP_withoutModule_of_only {item : RepositoryCacheLayersItem}
    {view : List RepositoryCacheLayersItem}
    (honly : withModule item.info.packageInfoV2Module view = [item])
    (q : RepositoryCacheLayersItem → Bool) :
    view.countP q =
      (withoutModule item.info.packageInfoV2Module view).countP q + if q item then 1 else 0 := by
  have hsplit := List.countP_eq_countP_filter_add view q
    fun b => b.info.packageInfoV2Module == item.info.packageInfoV2Module
  have hone : (withModule item.info.packageInfoV2Module view).countP q = if q item then 1 else 0 := by
    rw [honly]
    cases hq : q item <;> simp [hq]
  unfold withModule at hone
  unfold withoutModule
  rw [hsplit, hone, Nat.add_comm]
  congr 2

end Linglong
