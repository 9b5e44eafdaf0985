import Linglong.Repo.Steps
import Linglong.PackageManager.UpdateJob
import Linglong.PackageManager.Frame

/-! # Safety of `Prune`

    `Prune` counts, for each base or runtime that is installed, the apps
    that need it, and removes those with count zero. An app that is marked
    deleted is not counted although it may still run, and neither is the
    base of an app whose runtime cannot be resolved.

    1. Which references `Prune` lists and which it counts.
    2. What it removes and what it leaves (`unpruned`).
    3. When a dependency still resolves to the same reference.
    4. `prune_safe_iff`.
-/

namespace Linglong

open Framework RepositoryCacheLayersItem

namespace Repo

/-! ## Section 1: Counting -/

/-- The module whose layer stands for its package. -/
def isMainModule (info : PackageInfoV2) : Bool :=
  info.packageInfoV2Module == "binary" || info.packageInfoV2Module == "runtime"

/-- The reference of a base or runtime. -/
def listsRef (info : PackageInfoV2) (ref : Reference) : Bool :=
  isMainModule info && info.kind != "app" &&
    (Reference.fromPackageInfo info).toOption == some ref

/-- How often an app is counted for the reference. -/
def countsRef (s : Repo) (info : PackageInfoV2) (ref : Reference) : Nat :=
  if isMainModule info && info.kind == "app" then (s.countedRefs info).count ref else 0

/-- `Prune` finds the reference installed. -/
def Listed (s : Repo) (ref : Reference) : Prop :=
  ∃ item ∈ s.layers, item.isDeleted = false ∧ listsRef item.info ref = true

/-- `Prune` finds an app that needs the reference. -/
def Counted (s : Repo) (ref : Reference) : Prop :=
  ∃ item ∈ s.layers, item.isDeleted = false ∧ s.countsRef item.info ref ≠ 0

/-- The keys of a map are different. -/
def Keyed (target : List (Reference × Nat)) : Prop := (target.map Prod.fst).Nodup

theorem map_fst_addCount (target : List (Reference × Nat)) (ref : Reference) (n : Nat) :
    (addCount target ref n).map Prod.fst =
      if ref ∈ target.map Prod.fst then target.map Prod.fst
      else target.map Prod.fst ++ [ref] := by
  induction target with
  | nil => rfl
  | cons e target ih =>
    obtain ⟨r, k⟩ := e
    unfold addCount
    by_cases hr : r = ref
    · simp [hr]
    · have hr' : ¬ ref = r := fun h => hr h.symm
      simp only [hr, if_false, List.map_cons, ih, List.mem_cons, hr', false_or]
      split <;> simp

theorem keyed_addCount {target : List (Reference × Nat)} (h : Keyed target) (ref : Reference)
    (n : Nat) : Keyed (addCount target ref n) := by
  unfold Keyed at h ⊢
  rw [map_fst_addCount]
  split
  · exact h
  · next hnot =>
    rw [List.nodup_append]
    refine ⟨h, by simp, ?_⟩
    intro a ha b hb heq
    rw [List.mem_singleton.1 hb] at heq
    exact hnot (heq ▸ ha)

/-- Counting is an update of one entry. -/
theorem lookup_addCount (target : List (Reference × Nat)) (ref r : Reference) (n : Nat) :
    (addCount target ref n).lookup r =
      if r = ref then some ((target.lookup ref).getD 0 + n) else target.lookup r := by
  induction target with
  | nil =>
    by_cases h : r = ref
    · simp [addCount, h]
    · have hne : (r == ref) = false := by simpa using h
      simp [addCount, h, List.lookup_cons, hne]
  | cons e target ih =>
    obtain ⟨k, m⟩ := e
    unfold addCount
    by_cases hk : k = ref
    · subst hk
      by_cases h : r = k
      · simp [h]
      · have hne : (r == k) = false := by simpa using h
        simp [h, List.lookup_cons, hne]
    · have hne : (ref == k) = false := by simpa using fun h => hk h.symm
      simp only [if_neg hk, List.lookup_cons, ih, hne]
      by_cases h : r = k
      · subst h
        simp [hk]
      · have hne' : (r == k) = false := by simpa using h
        simp [hne']

theorem lookup_foldl_addCount (refs : List Reference) (r : Reference) :
    ∀ target : List (Reference × Nat),
      (refs.foldl (fun target ref => addCount target ref 1) target).lookup r =
        if r ∈ refs then some ((target.lookup r).getD 0 + refs.count r) else target.lookup r := by
  induction refs with
  | nil => simp
  | cons ref refs ih =>
    intro target
    rw [List.foldl_cons, ih, lookup_addCount]
    by_cases h : r = ref
    · subst h
      simp only [List.mem_cons, true_or, if_true, List.count_cons_self, Option.getD_some]
      by_cases hmem : r ∈ refs
      · simp [hmem]
        omega
      · simp [hmem, List.count_eq_zero_of_not_mem hmem]
    · have hcount : (ref :: refs).count r = refs.count r :=
        List.count_cons_of_ne fun heq => h heq.symm
      simp [h, hcount]

theorem keyed_countInfo (s : Repo) {target : List (Reference × Nat)} (h : Keyed target)
    (info : PackageInfoV2) : Keyed (s.countInfo target info) := by
  unfold countInfo
  split
  · exact h
  split
  · split
    · exact h
    · exact keyed_addCount h _ _
  · -- an app counts for its dependencies, one after the other
    generalize s.countedRefs info = refs
    induction refs generalizing target with
    | nil => exact h
    | cons ref refs ih => exact ih (keyed_addCount h ref 1)

/-- **Step**: what one layer does to the entry of a reference. -/
theorem lookup_countInfo (s : Repo) (target : List (Reference × Nat)) (info : PackageInfoV2)
    (ref : Reference) :
    (s.countInfo target info).lookup ref =
      if listsRef info ref = true ∨ s.countsRef info ref ≠ 0 then
        some ((target.lookup ref).getD 0 + s.countsRef info ref)
      else target.lookup ref := by
  unfold countInfo
  by_cases hmain : isMainModule info = true
  · have hmodule :
        ¬ (info.packageInfoV2Module ≠ "binary" ∧ info.packageInfoV2Module ≠ "runtime") := by
      unfold isMainModule at hmain
      simp only [Bool.or_eq_true, beq_iff_eq] at hmain
      tauto
    rw [if_neg hmodule]
    -- apps count their base and runtime, the others are listed with zero
    by_cases happ : info.kind = "app"
    · rw [if_neg (not_not.2 happ), lookup_foldl_addCount]
      simp [listsRef, countsRef, hmain, happ, List.count_eq_zero]
    · rw [if_pos happ]
      cases hinfo : Reference.fromPackageInfo info with
      | error e => simp [listsRef, countsRef, happ, hinfo, Except.toOption]
      | ok r =>
        simp only [lookup_addCount]
        by_cases h : ref = r
        · simp [listsRef, countsRef, hmain, happ, hinfo, h, Except.toOption]
        · have h' : ¬ r = ref := fun heq => h heq.symm
          simp [listsRef, countsRef, happ, hinfo, h, h', Except.toOption]
  · have hmodule : info.packageInfoV2Module ≠ "binary" ∧ info.packageInfoV2Module ≠ "runtime" := by
      unfold isMainModule at hmain
      simp only [Bool.or_eq_true, beq_iff_eq] at hmain
      tauto
    rw [if_pos hmodule]
    simp [listsRef, countsRef, hmain]

/-- **Run**: an entry is zero at the end iff the reference was listed and
    never counted. -/
theorem lookup_foldl_countInfo (s : Repo) (ref : Reference) (infos : List PackageInfoV2) :
    ∀ target : List (Reference × Nat),
      (infos.foldl s.countInfo target).lookup ref = some 0 ↔
        (∀ info ∈ infos, s.countsRef info ref = 0) ∧
          (target.lookup ref = some 0 ∨
            target.lookup ref = none ∧ ∃ info ∈ infos, listsRef info ref = true) := by
  induction infos with
  | nil => simp
  | cons info infos ih =>
    intro target
    rw [List.foldl_cons, ih, lookup_countInfo]
    simp only [List.mem_cons, forall_eq_or_imp, exists_eq_or_imp]
    by_cases hcount : s.countsRef info ref = 0
    · by_cases hlist : listsRef info ref = true
      · cases target.lookup ref <;> simp [hcount, hlist]
      · simp [hcount, hlist]
    · simp [hcount]

theorem lookup_eq_some_iff {target : List (Reference × Nat)} (h : Keyed target)
    {ref : Reference} {n : Nat} : target.lookup ref = some n ↔ (ref, n) ∈ target := by
  unfold Keyed at h
  induction target with
  | nil => simp
  | cons e target ih =>
    obtain ⟨r, k⟩ := e
    rw [List.map_cons, List.nodup_cons] at h
    rw [List.lookup_cons]
    by_cases hr : ref = r
    · subst hr
      have hnot : (ref, n) ∉ target := fun hmem => h.1 (List.mem_map.2 ⟨_, hmem, rfl⟩)
      simp [hnot, eq_comm]
    · have hne : (ref == r) = false := by simpa using hr
      simp [hne, hr, ih h.2]

/-- `Prune` removes the references that are listed and not counted. -/
theorem mem_pruneTarget (s : Repo) (ref : Reference) :
    (ref, 0) ∈ s.pruneTarget ↔ Listed s ref ∧ ¬ Counted s ref := by
  have hkeyed : ∀ (infos : List PackageInfoV2) (target : List (Reference × Nat)), Keyed target →
      Keyed (infos.foldl s.countInfo target) := by
    intro infos
    induction infos with
    | nil => exact fun _ h => h
    | cons info infos ih => exact fun target h => ih _ (keyed_countInfo s h info)
  rw [pruneTarget, ← lookup_eq_some_iff (hkeyed s.listLocal [] (by simp [Keyed])),
    lookup_foldl_countInfo]
  unfold Listed Counted listLocal queryExistingLayerItem
  simp only [List.lookup_nil, reduceCtorEq, true_and, false_or, List.mem_map, List.mem_filter,
    Bool.not_eq_eq_eq_not, Bool.not_true, forall_exists_index, and_imp, not_exists, not_and,
    not_not, ne_eq]
  constructor
  · rintro ⟨hcount, info, ⟨item, ⟨hmem, hdeleted⟩, rfl⟩, hlist⟩
    exact ⟨⟨item, hmem, hdeleted, hlist⟩, fun b hb hb' => hcount _ b hb hb' rfl⟩
  · rintro ⟨⟨item, hmem, hdeleted, hlist⟩, hcount⟩
    refine ⟨?_, item.info, ⟨item, ⟨hmem, hdeleted⟩, rfl⟩, hlist⟩
    rintro info b hb hb' rfl
    exact hcount b hb hb'

/-! ## Section 2: Removing -/

/-- Some layers of the given references are gone, and no others. -/
structure Thinned (refs : Reference → Prop) (s s' : Repo) : Prop where
  outside : s'.outside = s.outside
  sublist : s'.layers.Sublist s.layers
  kept : ∀ item ∈ s.layers, (∀ ref, refs ref → item.isLayerOf ref = false) → item ∈ s'.layers

section Thinned

variable {refs : Reference → Prop}

theorem Thinned.of_layers_eq {s s' : Repo} (houtside : s'.outside = s.outside)
    (hlayers : s'.layers = s.layers) : Thinned refs s s' where
  outside := houtside
  sublist := by rw [hlayers]
  kept := fun item hitem _ => by rwa [hlayers]

theorem Thinned.refl (s : Repo) : Thinned refs s s := .of_layers_eq rfl rfl

theorem Thinned.trans {s₁ s₂ s₃ : Repo} (h : Thinned refs s₁ s₂) (h' : Thinned refs s₂ s₃) :
    Thinned refs s₁ s₃ where
  outside := h'.outside.trans h.outside
  sublist := h'.sublist.trans h.sublist
  kept := fun item hitem hother => h'.kept item (h.kept item hitem hother) hother

/-- Erasing the first match of a layer keeps all that do not match. -/
theorem mem_eraseP_of_not {p : RepositoryCacheLayersItem → Bool}
    {layers : List RepositoryCacheLayersItem} {item : RepositoryCacheLayersItem}
    (hitem : item ∈ layers) (hp : p item = false) : item ∈ layers.eraseP p := by
  rw [List.mem_eraseP_of_neg (by simp [hp])]
  exact hitem

theorem thinned_remove {ref : Reference} (href : refs ref) (module : String)
    (subRef : Option String) (s : Repo) :
    Thinned refs s (after (remove ref module subRef) s) := by
  rcases remove_cases ref module subRef s with ⟨e, faults, -, hrun, -⟩ |
    ⟨layer, faults, json, dirs, -, hlayer, hrun, -, -⟩
  · rw [after_of_error hrun]
    exact .of_layers_eq rfl rfl
  · rw [hrun]
    refine ⟨rfl, List.eraseP_sublist, ?_⟩
    intro item hitem hother
    refine mem_eraseP_of_not hitem ?_
    -- a match would be a layer of `ref`
    by_contra hmatch
    have hmatch' : layer.matchesItem item = true := by simpa using hmatch
    have hlayer' := (mem_layersOf.1 (getLayerItem_mem hlayer).1).2
    rw [← isLayerOf_of_matchesItem hmatch', hother ref href] at hlayer'
    cases hlayer'

/-- Removing layers of these references keeps all others. -/
theorem removalFrame_thinned : RemovalFrame (Thinned refs) refs where
  refl := .refl
  trans := .trans
  popFault := fun _ _ => .of_layers_eq rfl rfl
  remove := fun s _ module subRef href => thinned_remove href module subRef s

end Thinned

/-- `Prune` removes no layers but those of references that it lists and does
    not count. -/
theorem thinned_prune (s : Repo) :
    Thinned (fun ref => Listed s ref ∧ ¬ Counted s ref) s s.prune.1 := by
  refine removalFrame_thinned.prune_rel (fun ref href => (s.mem_pruneTarget ref).1 href) ?_
  intro _ _ s'
  have hmerge := mergeFrame_mergeModules s'
  exact .of_layers_eq hmerge.outside hmerge.layers

/-- The layers of no reference that has the count zero. -/
def unpruned (s : Repo) : List RepositoryCacheLayersItem :=
  s.layers.filter fun item => s.pruneTarget.all fun e => e.2 != 0 || !item.isLayerOf e.1

theorem mem_unpruned {s : Repo} {item : RepositoryCacheLayersItem} :
    item ∈ s.unpruned ↔ item ∈ s.layers ∧
      ∀ ref, Listed s ref → ¬ Counted s ref → item.isLayerOf ref = false := by
  unfold unpruned
  rw [List.mem_filter, List.all_eq_true]
  refine and_congr_right fun _ => ⟨fun h ref hlisted hnot => ?_, fun h e he => ?_⟩
  · simpa using h (ref, 0) ((s.mem_pruneTarget ref).2 ⟨hlisted, hnot⟩)
  · obtain ⟨ref, count⟩ := e
    cases count with
    | zero =>
      obtain ⟨hlisted, hnot⟩ := (s.mem_pruneTarget ref).1 he
      simp [h ref hlisted hnot]
    | succ n => simp

/-! ## Section 3: Resolving -/

/-- A layer that `clearReferenceLocal` may choose. -/
def Compatible (wanted : Option Version) (item : RepositoryCacheLayersItem) : Prop :=
  item.isDeleted = false ∧
    ∃ version, Version.parse item.info.version = .ok version ∧
      versionMatches wanted version = true

/-- A layer whose version cannot be read; it stops the search. -/
def Broken (item : RepositoryCacheLayersItem) : Prop :=
  item.isDeleted = false ∧ ∃ e, Version.parse item.info.version = .error e

/-- Greatest version text first. -/
def Descending (items : List RepositoryCacheLayersItem) : Prop :=
  items.Pairwise fun a b => ¬ a.info.version < b.info.version

section Search

variable {wanted : Option Version} {items : List RepositoryCacheLayersItem}
  {item : RepositoryCacheLayersItem}

/-- The layer that is found is a greatest compatible one, and all broken
    layers are smaller. -/
theorem findCompatible_ok (h : findCompatible wanted items = .ok item)
    (hsorted : Descending items) :
    item ∈ items ∧ Compatible wanted item ∧
      (∀ b ∈ items, Compatible wanted b → ¬ item.info.version < b.info.version) ∧
      ∀ b ∈ items, Broken b → b.info.version < item.info.version := by
  induction items with
  | nil => cases h
  | cons a items ih =>
    rw [Descending, List.pairwise_cons] at hsorted
    obtain ⟨hfirst, hsorted⟩ := hsorted
    unfold findCompatible at h
    simp only [List.forall_mem_cons]
    by_cases hdeleted : a.isDeleted = true
    · rw [if_pos hdeleted] at h
      obtain ⟨hmem, hcompatible, hmax, hbroken⟩ := ih h hsorted
      refine ⟨List.mem_cons_of_mem _ hmem, hcompatible, ⟨fun hcomp => ?_, hmax⟩,
        ⟨fun hbr => ?_, hbroken⟩⟩
      · exact absurd (hcomp.1.symm.trans hdeleted) (by decide)
      · exact absurd (hbr.1.symm.trans hdeleted) (by decide)
    · rw [if_neg hdeleted] at h
      cases hparse : Version.parse a.info.version with
      | error e =>
        -- a version that cannot be read ends the search
        simp [hparse] at h
      | ok version =>
        simp only [hparse] at h
        have hread : ¬ Broken a := by
          rintro ⟨-, e, he⟩
          rw [hparse] at he
          cases he
        by_cases hmatch : versionMatches wanted version = true
        · rw [if_pos hmatch] at h
          cases h
          refine ⟨List.mem_cons_self, ⟨by simpa using hdeleted, version, hparse, hmatch⟩,
            ⟨fun _ => String.lt_irrefl _, fun b hb _ => hfirst b hb⟩,
            ⟨fun hbr => absurd hbr hread, fun b hb hbr => ?_⟩⟩
          -- not greater, and not equal, since its text cannot be read
          obtain ⟨-, e, he⟩ := hbr
          by_contra hlt
          have heq : b.info.version = item.info.version :=
            String.le_antisymm (hfirst b hb) hlt
          rw [heq, hparse] at he
          cases he
        · rw [if_neg hmatch] at h
          obtain ⟨hmem, hcompatible, hmax, hbroken⟩ := ih h hsorted
          refine ⟨List.mem_cons_of_mem _ hmem, hcompatible, ⟨fun hcomp => ?_, hmax⟩,
            ⟨fun hbr => absurd hbr hread, hbroken⟩⟩
          obtain ⟨-, v, hv, hvm⟩ := hcomp
          rw [hparse] at hv
          cases hv
          exact absurd hvm hmatch

/-- If there is a compatible layer and all broken ones are smaller, one is
    found that is not smaller. -/
theorem exists_findCompatible (hsorted : Descending items) (hitem : item ∈ items)
    (hcompatible : Compatible wanted item)
    (hbroken : ∀ b ∈ items, Broken b → b.info.version < item.info.version) :
    ∃ found, findCompatible wanted items = .ok found ∧
      ¬ found.info.version < item.info.version := by
  induction items with
  | nil => simp at hitem
  | cons a items ih =>
    rw [Descending, List.pairwise_cons] at hsorted
    obtain ⟨hfirst, hsorted⟩ := hsorted
    -- wherever the loop goes on, the layer is still to come
    have hrest : a ≠ item → ∃ found, findCompatible wanted items = .ok found ∧
        ¬ found.info.version < item.info.version := by
      intro hne
      rcases List.mem_cons.1 hitem with rfl | hitem
      · exact absurd rfl hne
      · exact ih hsorted hitem fun b hb => hbroken b (by simp [hb])
    unfold findCompatible
    by_cases hdeleted : a.isDeleted = true
    · rw [if_pos hdeleted]
      refine hrest ?_
      rintro rfl
      exact absurd (hcompatible.1.symm.trans hdeleted) (by decide)
    · rw [if_neg hdeleted]
      obtain ⟨-, version, hversion, hmatch⟩ := hcompatible
      cases hparse : Version.parse a.info.version with
      | error e =>
        -- a broken layer comes first, so it is not smaller
        have hlt := hbroken a (by simp) ⟨by simpa using hdeleted, e, hparse⟩
        rcases List.mem_cons.1 hitem with rfl | hitem
        · rw [hversion] at hparse
          cases hparse
        · exact absurd hlt (hfirst item hitem)
      | ok v =>
        simp only
        by_cases hv : versionMatches wanted v = true
        · rw [if_pos hv]
          refine ⟨a, rfl, ?_⟩
          rcases List.mem_cons.1 hitem with rfl | hitem
          · exact String.lt_irrefl _
          · exact hfirst item hitem
        · rw [if_neg hv]
          refine hrest ?_
          rintro rfl
          rw [hversion] at hparse
          cases hparse
          exact hv hmatch

end Search

theorem referenceOf_ok {item : RepositoryCacheLayersItem} {ref : Reference}
    (h : referenceOf item = .ok ref) :
    Version.parse item.info.version = .ok ref.version ∧ ref.channel = item.info.channel ∧
      ref.id = item.info.id := by
  unfold referenceOf at h
  simp only [bind_eq_ok_iff, Reference.create_eq_ok_iff] at h
  obtain ⟨version, hversion, arch, -, hchannel, hid, hver, -⟩ := h
  rw [hver]
  exact ⟨hversion, hchannel, hid⟩

theorem searchLocal_ok_iff {s : Repo} {fuzzy : FuzzyReference} {ref : Reference} :
    s.searchLocal fuzzy = .ok ref ↔
      ∃ item, findCompatible fuzzy.version (s.queryLayerItem { id := some fuzzy.id }) = .ok item ∧
        referenceOf item = .ok ref := by
  unfold searchLocal
  cases s.queryLayerItem { id := some fuzzy.id } with
  | nil => simp [findCompatible]
  | cons a items => exact bind_eq_ok_iff

theorem clearReferenceLocal_ok_iff {s : Repo} {fuzzy : FuzzyReference} {ref : Reference} :
    s.clearReferenceLocal fuzzy = .ok ref ↔
      s.checkLocalArch fuzzy = .ok () ∧ s.searchLocal fuzzy = .ok ref := by
  unfold clearReferenceLocal
  rw [bind_eq_ok_iff]
  exact ⟨fun ⟨_, hcheck, hsearch⟩ => ⟨hcheck, hsearch⟩,
    fun ⟨hcheck, hsearch⟩ => ⟨(), hcheck, hsearch⟩⟩

theorem resolveDependency_ok_iff {s : Repo} {text : String} {ref : Reference} :
    s.resolveDependency text = .ok ref ↔
      ∃ fuzzy, FuzzyReference.parse text = .ok fuzzy ∧ s.clearReferenceLocal fuzzy = .ok ref :=
  bind_eq_ok_iff

theorem mem_query_id {s : Repo} {id : String} {item : RepositoryCacheLayersItem} :
    item ∈ s.queryLayerItem { id := some id } ↔ item ∈ s.layers ∧ item.info.id = id := by
  unfold queryLayerItem
  rw [mem_queryItems]
  simp only [RepoCacheQuery.accepts, Option.all_some, Option.all_none, Bool.and_true, beq_iff_eq]
  rw [eq_comm]

theorem descending_query (s : Repo) (query : RepoCacheQuery) :
    Descending (s.queryLayerItem query) :=
  s.outside.sort.byVersion_sorted _

/-- If the layer that was found stays and others go, a layer with the same
    version text is found. -/
theorem findCompatible_of_sublist {s s' : Repo} (hsub : s'.layers.Sublist s.layers) {id : String}
    {wanted : Option Version} {item : RepositoryCacheLayersItem}
    (hfind : findCompatible wanted (s.queryLayerItem { id := some id }) = .ok item)
    (hstays : item ∈ s'.layers) :
    ∃ found, findCompatible wanted (s'.queryLayerItem { id := some id }) = .ok found ∧
      found ∈ s.layers ∧ found.isDeleted = false ∧ found.info.id = item.info.id ∧
      found.info.version = item.info.version := by
  obtain ⟨hmem, hcompatible, hmax, hbroken⟩ := findCompatible_ok hfind (s.descending_query _)
  obtain ⟨hlayer, hid⟩ := mem_query_id.1 hmem
  -- what is there afterwards was there before
  have hback : ∀ b ∈ s'.queryLayerItem { id := some id },
      b ∈ s.queryLayerItem { id := some id } := by
    intro b hb
    obtain ⟨hb, hbid⟩ := mem_query_id.1 hb
    exact mem_query_id.2 ⟨hsub.subset hb, hbid⟩
  obtain ⟨found, hfound, hnot⟩ := exists_findCompatible (s'.descending_query _)
    (mem_query_id.2 ⟨hstays, hid⟩) hcompatible fun b hb => hbroken b (hback b hb)
  obtain ⟨hfoundmem, hfoundcomp, -, -⟩ := findCompatible_ok hfound (s'.descending_query _)
  obtain ⟨hfoundlayer, hfoundid⟩ := mem_query_id.1 (hback found hfoundmem)
  -- both texts are greatest, so they are equal
  exact ⟨found, hfound, hfoundlayer, hfoundcomp.1, hfoundid.trans hid.symm,
    String.le_antisymm (hmax found (hback found hfoundmem) hfoundcomp) hnot⟩

/-! ## Section 4: Safety -/

/-- The texts of an app's dependencies. -/
def dependencies (info : PackageInfoV2) : List String := info.runtime.toList ++ [info.base]

/-- Every app that could resolve a dependency before `Prune` resolves it to
    the same reference afterwards. -/
def PruneSafe (s : Repo) : Prop :=
  ∀ item ∈ s.layers, item.info.kind = "app" → ∀ text ∈ dependencies item.info, ∀ ref,
    s.resolveDependency text = .ok ref → s.prune.1.resolveDependency text = .ok ref

/-- A dependency of an app that is there resolves to the layer. -/
structure Resolved (s : Repo) (app : RepositoryCacheLayersItem) (text : String)
    (fuzzy : FuzzyReference) (item : RepositoryCacheLayersItem) (ref : Reference) : Prop where
  mem : app ∈ s.layers
  isApp : app.info.kind = "app"
  dependency : text ∈ dependencies app.info
  parse : FuzzyReference.parse text = .ok fuzzy
  arch : s.checkLocalArch fuzzy = .ok ()
  found : findCompatible fuzzy.version (s.queryLayerItem { id := some fuzzy.id }) = .ok item
  ref : referenceOf item = .ok ref

theorem Resolved.resolveDependency {s : Repo} {app item : RepositoryCacheLayersItem}
    {text : String} {fuzzy : FuzzyReference} {ref : Reference}
    (h : Resolved s app text fuzzy item ref) : s.resolveDependency text = .ok ref :=
  resolveDependency_ok_iff.2 ⟨fuzzy, h.parse, clearReferenceLocal_ok_iff.2
    ⟨h.arch, searchLocal_ok_iff.2 ⟨item, h.found, h.ref⟩⟩⟩

/-- No dependency of an app resolves to a layer of a reference that is
    listed and not counted. -/
def Spared (s : Repo) : Prop :=
  ∀ app text fuzzy item ref, Resolved s app text fuzzy item ref → item ∈ s.unpruned

/-- Among the layers that are left, the search comes first to one of the
    reference that the dependency resolves to. -/
def SameFirst (s : Repo) : Prop :=
  ∀ app text fuzzy item ref, Resolved s app text fuzzy item ref → ∀ first,
    findCompatible fuzzy.version
        (queryItems s.outside.sort s.unpruned { id := some fuzzy.id }) = .ok first →
      referenceOf first = .ok ref

/-- Whatever order the search takes, it comes first to one of this
    reference: no other reference has a layer of this id and version. -/
def OneRef (s : Repo) : Prop :=
  ∀ app text fuzzy item ref, Resolved s app text fuzzy item ref →
    ∀ b ∈ s.layers, b.isDeleted = false → b.info.id = item.info.id →
      b.info.version = item.info.version → referenceOf b = .ok ref

theorem resolved_of_ok {s : Repo} {app : RepositoryCacheLayersItem} (happ : app ∈ s.layers)
    (hkind : app.info.kind = "app") {text : String} (htext : text ∈ dependencies app.info)
    {ref : Reference} (h : s.resolveDependency text = .ok ref) :
    ∃ fuzzy item, Resolved s app text fuzzy item ref := by
  obtain ⟨fuzzy, hparse, hclear⟩ := resolveDependency_ok_iff.1 h
  obtain ⟨harch, hsearch⟩ := clearReferenceLocal_ok_iff.1 hclear
  obtain ⟨item, hfind, href⟩ := searchLocal_ok_iff.1 hsearch
  exact ⟨fuzzy, item, happ, hkind, htext, hparse, harch, hfind, href⟩

/-- Whichever removals fail, it is enough that no layer a dependency
    resolves to goes and that its reference is the only one there is. -/
theorem pruneSafe_of_oneRef {s : Repo} (hspared : Spared s) (hone : OneRef s) : PruneSafe s := by
  intro app happ hkind text htext ref hresolve
  obtain ⟨fuzzy, item, h⟩ := resolved_of_ok happ hkind htext hresolve
  have hthinned := s.thinned_prune
  obtain ⟨hlayer, hkept⟩ := mem_unpruned.1 (hspared _ _ _ _ _ h)
  have hstays : item ∈ s.prune.1.layers :=
    hthinned.kept item hlayer fun ref href => hkept ref href.1 href.2
  obtain ⟨found, hfound, hmem, hdeleted, hid, hversion⟩ :=
    findCompatible_of_sublist hthinned.sublist h.found hstays
  refine resolveDependency_ok_iff.2 ⟨fuzzy, h.parse, clearReferenceLocal_ok_iff.2 ⟨?_,
    searchLocal_ok_iff.2 ⟨found, hfound, hone _ _ _ _ _ h found hmem hdeleted hid hversion⟩⟩⟩
  have harch := h.arch
  unfold checkLocalArch at harch ⊢
  rw [hthinned.outside]
  exact harch

/-- A repository in which every layer can be removed: it has a directory and
    a ref of its own, and neither deleting a ref nor writing the cache
    fails. Version texts are as `Version::toString` writes them. -/
structure Removable (s : Repo) : Prop where
  unique : ∀ ref, UniqueModules (s.view ref)
  commits : (s.layers.map RepositoryCacheLayersItem.commit).Nodup
  dirs : ∀ item ∈ s.layers, ∃ content info, s.layerDirs.lookup item.commit = some content ∧
    s.layerDirInfo content = .ok info
  refs : ∀ item ∈ s.layers,
    (s.resolveRefspec (ostreeRefSpecFromLayerItem item)).isSome = true
  setRef : s.NoFaults .setRef
  writeCache : s.NoFaults .writeCache
  canonical : ∀ item ∈ s.layers, ∀ ref, referenceOf item = .ok ref →
    item.info.version = ref.version.toString

section Removable

variable {s : Repo} {ref : Reference}

/-- Another layer has another ref. -/
theorem Removable.refSpec_ne (h : Removable s) {a b : RepositoryCacheLayersItem}
    (ha : a ∈ s.view ref) (hb : b ∈ s.layers) (hne : b.commit ≠ a.commit) :
    ostreeRefSpecFromLayerItem b ≠ ostreeRefSpecFromLayerItem a := by
  intro heq
  have hchannel : b.info.channel = a.info.channel := congrArg (fun x => x.ref.channel) heq
  have hid : b.info.id = a.info.id := congrArg (fun x => x.ref.id) heq
  have hversion : b.info.version = a.info.version := congrArg (fun x => x.ref.version) heq
  have hmodule : b.info.packageInfoV2Module = a.info.packageInfoV2Module :=
    congrArg (fun x => x.ref.module) heq
  obtain ⟨haid, hachannel, haversion⟩ := isLayerOf_iff.1 (mem_layersOf.1 ha).2
  have hb' : b ∈ s.view ref := mem_layersOf.2 ⟨hb, isLayerOf_iff.2
    ⟨hid.trans haid, hchannel.trans hachannel, hversion.trans haversion⟩⟩
  have hsame := (h.unique ref).eq hb' ha (by rw [moduleName, moduleName, hmodule])
  exact hne (by rw [hsame])

/-- **Step**: removing one module works and leaves a repository of the same
    kind. -/
theorem Removable.remove (h : Removable s) {item : RepositoryCacheLayersItem}
    (hitem : item ∈ s.view ref) {module : String} (hmodule : item.moduleName = normModule module) :
    ∃ s', Repo.remove ref module none s = .ok () s' ∧ Removable s' ∧
      s'.view ref = dropModule item.moduleName (s.view ref) := by
  have hfound := getLayerItem_eq (h.unique ref) hitem hmodule
  have hlayer : item ∈ s.layers := (mem_layersOf.1 hitem).1
  rcases remove_cases ref module none s with ⟨e, faults, -, -, hfail⟩ |
    ⟨layer, faults, json, dirs, hpops, hget, hafter, hdirs, hok⟩
  · -- the ref is there, so only deleting it could fail
    exact absurd h.setRef (hfail item hfound (h.refs item hlayer))
  cases hfound.symm.trans hget
  obtain ⟨s', hrun⟩ := hok h.writeCache
  rw [after_of_ok hrun] at hafter
  subst hafter
  refine ⟨_, hrun, ?_, layersOf_eraseP (h.unique ref) hitem⟩
  -- the erased layer is the only one with its commit
  have hother : ∀ b ∈ s.layers.eraseP item.matchesItem,
      b ∈ s.layers ∧ b.commit ≠ item.commit := by
    intro b hb
    refine ⟨List.mem_of_mem_eraseP hb, ne_of_mem_eraseP h.commits (fun a ha => ?_) hb⟩
    constructor
    · intro hmatch
      exact (matchesItem_iff.1 hmatch).1.symm
    · intro heq
      rw [List.inj_on_of_nodup_map h.commits ha hlayer heq]
      simp
  refine ⟨fun x => ?_, ?_, ?_, ?_, h.setRef.of_pops hpops, h.writeCache.of_pops hpops, ?_⟩
  · exact (h.unique x).sublist ((List.eraseP_sublist.filter _).map _)
  · exact h.commits.sublist (List.eraseP_sublist.map _)
  · intro b hb
    obtain ⟨hmem, hne⟩ := hother b hb
    obtain ⟨content, info, hlookup, hinfo⟩ := h.dirs b hmem
    refine ⟨content, info, ?_, hinfo⟩
    show dirs.lookup b.commit = some content
    rcases hdirs with rfl | rfl
    · exact hlookup
    · exact (lookup_filter_ne hne s.layerDirs).trans hlookup
  · intro b hb
    obtain ⟨hmem, hne⟩ := hother b hb
    show ((s.dropRef _).resolveRefspec _).isSome = true
    rw [resolveRefspec_dropRef (h.refSpec_ne hitem hmem hne)]
    exact h.refs b hmem
  · exact fun b hb => h.canonical b (hother b hb).1

/-- **Run**: the modules of a list go, one after the other. -/
theorem Removable.pruneModules (ref : Reference) (modules : List String) :
    ∀ s : Repo, Removable s → (modules.map normModule).Nodup →
      (∀ m ∈ modules, ∃ item ∈ s.view ref, item.moduleName = normModule m) →
      ∃ s' removed, Repo.pruneModules ref modules s = (s', removed, .ok ()) ∧ Removable s' ∧
        ∀ item ∈ s'.view ref, item ∈ s.view ref ∧ item.moduleName ∉ modules.map normModule := by
  induction modules with
  | nil =>
    intro s h _ _
    exact ⟨s, [], rfl, h, fun item hitem => ⟨hitem, by simp⟩⟩
  | cons module modules ih =>
    intro s h hnodup hitems
    rw [List.map_cons, List.nodup_cons] at hnodup
    obtain ⟨item, hitem, hmodule⟩ := hitems module (by simp)
    obtain ⟨content, info, hlookup, hinfo⟩ := h.dirs item (mem_layersOf.1 hitem).1
    have hdir : s.getLayerDir ref module none = .ok content :=
      getLayerDir_ok_iff.2 ⟨item, getLayerItem_eq (h.unique ref) hitem hmodule, hlookup⟩
    obtain ⟨s₁, hrun, hs₁, hview⟩ := h.remove hitem hmodule
    have hmem : ∀ b, b ∈ s₁.view ref ↔ b ∈ s.view ref ∧ b.moduleName ≠ normModule module := by
      intro b
      rw [hview, dropModule, List.mem_filter, hmodule]
      simp
    -- the other modules of the list still have their layers
    obtain ⟨s', removed, hrest, hs', hleft⟩ := ih s₁ hs₁ hnodup.2 (by
      intro m hm
      obtain ⟨b, hb, hname⟩ := hitems m (by simp [hm])
      refine ⟨b, (hmem b).2 ⟨hb, ?_⟩, hname⟩
      rw [hname]
      intro heq
      exact hnodup.1 (List.mem_map.2 ⟨m, hm, heq⟩))
    refine ⟨s', info :: removed, ?_, hs', ?_⟩
    · unfold Repo.pruneModules
      simp only [hdir, hinfo, hrun, hrest]
    · intro b hb
      obtain ⟨hb₁, hname⟩ := hleft b hb
      obtain ⟨hbs, hne⟩ := (hmem b).1 hb₁
      exact ⟨hbs, by simp [hne, hname]⟩

/-- All layers of a reference go. -/
theorem Removable.pruneModules_all (h : Removable s) (ref : Reference) :
    ∃ s' removed, Repo.pruneModules ref (s.getModuleList ref) s = (s', removed, .ok ()) ∧
      Removable s' ∧ s'.view ref = [] := by
  have hperm := s.getModuleList_perm ref
  have hnames : ((s.getModuleList ref).map normModule).Perm ((s.view ref).map moduleName) := by
    have hmap := hperm.map normModule
    rwa [List.map_map] at hmap
  obtain ⟨s', removed, hrun, hs', hleft⟩ := Removable.pruneModules ref
    (s.getModuleList ref) s h (hnames.nodup_iff.2 (h.unique ref)) (by
      intro m hm
      obtain ⟨item, hitem, rfl⟩ := List.mem_map.1 (hperm.mem_iff.1 hm)
      exact ⟨item, hitem, rfl⟩)
  refine ⟨s', removed, hrun, hs', List.eq_nil_iff_forall_not_mem.2 fun item hitem => ?_⟩
  obtain ⟨hmem, hname⟩ := hleft item hitem
  exact hname (hnames.mem_iff.2 (List.mem_map.2 ⟨item, hmem, rfl⟩))

theorem Thinned.view_eq_nil {refs : Reference → Prop} {s s' : Repo} (h : Thinned refs s s')
    (hview : s.view ref = []) : s'.view ref = [] := by
  have hsub : (s'.view ref).Sublist (s.view ref) := h.sublist.filter _
  rw [hview] at hsub
  exact List.sublist_nil.1 hsub

/-- **Run**: all targets with count zero go. -/
theorem Removable.pruneRefs (targets : List (Reference × Nat)) :
    ∀ s : Repo, Removable s →
      ∃ s' removed, Repo.pruneRefs targets s = (s', removed, .ok ()) ∧
        ∀ ref, (ref, 0) ∈ targets → s'.view ref = [] := by
  induction targets with
  | nil =>
    intro s _
    exact ⟨s, [], rfl, by simp⟩
  | cons e targets ih =>
    obtain ⟨ref, count⟩ := e
    intro s h
    by_cases hcount : count = 0
    · obtain ⟨s₁, removed₁, hrun₁, hs₁, hview₁⟩ := h.pruneModules_all ref
      obtain ⟨s', removed, hrun, hview⟩ := ih s₁ hs₁
      -- later targets do not bring the layers back
      have hthinned : Thinned (fun _ => True) s₁ (Repo.pruneRefs targets s₁).1 :=
        removalFrame_thinned.pruneRefs_rel targets (fun _ _ => trivial) s₁
      rw [hrun] at hthinned
      refine ⟨s', removed₁ ++ removed, ?_, ?_⟩
      · unfold Repo.pruneRefs
        simp only [hcount, ne_eq, not_true_eq_false, if_false, hrun₁, hrun]
      · intro r hr
        rcases List.mem_cons.1 hr with heq | hr
        · cases heq
          exact hthinned.view_eq_nil hview₁
        · exact hview r hr
    · obtain ⟨s', removed, hrun, hview⟩ := ih s h
      refine ⟨s', removed, ?_, ?_⟩
      · unfold Repo.pruneRefs
        simp only [ne_eq, hcount, not_false_eq_true, if_true, hrun]
      · intro r hr
        rcases List.mem_cons.1 hr with heq | hr
        · cases heq
          exact absurd rfl hcount
        · exact hview r hr

/-- In such a repository all layers of a reference that is listed and not
    counted are gone after `Prune`. -/
theorem Removable.view_prune (h : Removable s) (hlisted : Listed s ref) (hnot : ¬ Counted s ref) :
    s.prune.1.view ref = [] := by
  obtain ⟨s', removed, hrun, hview⟩ := Removable.pruneRefs (s.outside.map.refs s.pruneTarget) s h
  have hgone : s'.view ref = [] := by
    refine hview ref ((s.outside.map.refs_perm _).mem_iff.2 ?_)
    exact (s.mem_pruneTarget ref).2 ⟨hlisted, hnot⟩
  unfold prune
  rw [hrun]
  simp only
  split
  · exact hgone
  · rcases fallible_cases .pruneObjects "ostree_repo_prune" s' with ⟨hfall, -⟩ | ⟨hfall, -⟩
    · rw [hfall]
      have hmerge := mergeFrame_mergeModules (s'.popFault .pruneObjects)
      show layersOf ref (after mergeModules (s'.popFault .pruneObjects)).layers = []
      rw [hmerge.layers]
      exact hgone
    · rw [hfall]
      exact hgone

/-- In such a repository `Prune` leaves exactly these layers. -/
theorem Removable.layers_prune (h : Removable s) : s.prune.1.layers = s.unpruned := by
  have hnodup : s.layers.Nodup := .of_map _ h.commits
  have hthinned := s.thinned_prune
  have hunpruned : s.unpruned.Sublist s.layers := List.filter_sublist
  refine (hnodup.perm_iff_eq_of_sublist hthinned.sublist hunpruned).1 ?_
  refine (List.perm_ext_iff_of_nodup (hnodup.sublist hthinned.sublist)
    (hnodup.sublist hunpruned)).2 fun item => ?_
  rw [mem_unpruned]
  constructor
  · refine fun hitem => ⟨hthinned.sublist.subset hitem, fun ref hlisted hnot => ?_⟩
    by_contra hof
    have hview : item ∈ s.prune.1.view ref := mem_layersOf.2 ⟨hitem, by simpa using hof⟩
    rw [h.view_prune hlisted hnot] at hview
    cases hview
  · rintro ⟨hitem, hkept⟩
    exact hthinned.kept item hitem fun ref href => hkept ref href.1 href.2

/-- What is found afterwards. -/
theorem Removable.resolveDependency_prune (h : Removable s) {text : String} :
    s.prune.1.resolveDependency text = .ok ref ↔
      ∃ fuzzy, FuzzyReference.parse text = .ok fuzzy ∧ s.checkLocalArch fuzzy = .ok () ∧
        ∃ first, findCompatible fuzzy.version
            (queryItems s.outside.sort s.unpruned { id := some fuzzy.id }) = .ok first ∧
          referenceOf first = .ok ref := by
  have hquery : ∀ query, s.prune.1.queryLayerItem query =
      queryItems s.outside.sort s.unpruned query := by
    intro query
    unfold queryLayerItem
    rw [s.thinned_prune.outside, h.layers_prune]
  have harch : ∀ fuzzy, s.prune.1.checkLocalArch fuzzy = s.checkLocalArch fuzzy := by
    intro fuzzy
    unfold checkLocalArch
    rw [s.thinned_prune.outside]
  simp only [resolveDependency_ok_iff, clearReferenceLocal_ok_iff, searchLocal_ok_iff, hquery,
    harch]

theorem Removable.pruneSafe_iff (h : Removable s) : PruneSafe s ↔ Spared s ∧ SameFirst s := by
  constructor
  · intro hsafe
    have hafter : ∀ app text fuzzy item ref, Resolved s app text fuzzy item ref →
        ∃ first, findCompatible fuzzy.version
            (queryItems s.outside.sort s.unpruned { id := some fuzzy.id }) = .ok first ∧
          referenceOf first = .ok ref := by
      intro app text fuzzy item ref hres
      obtain ⟨fuzzy', hparse, -, hfirst⟩ := h.resolveDependency_prune.1
        (hsafe app hres.mem hres.isApp text hres.dependency ref hres.resolveDependency)
      obtain rfl : fuzzy = fuzzy' := Except.ok.inj (hres.parse.symm.trans hparse)
      exact hfirst
    refine ⟨fun app text fuzzy item ref hres => ?_, fun app text fuzzy item ref hres first hfirst =>
      ?_⟩
    · -- the layer that is found afterwards has the same id, channel and version
      obtain ⟨first, hfirst, href⟩ := hafter app text fuzzy item ref hres
      have hmem := (findCompatible_ok hfirst (s.outside.sort.byVersion_sorted _)).1
      obtain ⟨hfirstlayer, hkept⟩ := mem_unpruned.1 (mem_queryItems.1 hmem).1
      have hitem := (mem_query_id.1
        (findCompatible_ok hres.found (s.descending_query _)).1).1
      refine mem_unpruned.2 ⟨hitem, fun x hlisted hnot => ?_⟩
      obtain ⟨-, hchannel, hid⟩ := referenceOf_ok hres.ref
      obtain ⟨-, hchannel', hid'⟩ := referenceOf_ok href
      have hversion : item.info.version = first.info.version :=
        (h.canonical item hitem ref hres.ref).trans
          (h.canonical first hfirstlayer ref href).symm
      have hsame : item.isLayerOf x = first.isLayerOf x := by
        unfold isLayerOf
        rw [← hid, ← hchannel, hversion, hid', hchannel']
      rw [hsame]
      exact hkept x hlisted hnot
    · obtain ⟨first', hfirst', href⟩ := hafter app text fuzzy item ref hres
      cases hfirst.symm.trans hfirst'
      exact href
  · rintro ⟨hspared, hfirst⟩ app happ hkind text htext ref hresolve
    obtain ⟨fuzzy, item, hres⟩ := resolved_of_ok happ hkind htext hresolve
    have hstays := hspared _ _ _ _ _ hres
    have hsub : s.unpruned.Sublist s.layers := List.filter_sublist
    obtain ⟨first, hfound, -⟩ := @findCompatible_of_sublist s { s with layers := s.unpruned }
      hsub _ _ _ hres.found hstays
    exact h.resolveDependency_prune.2 ⟨fuzzy, hres.parse, hres.arch, first, hfound,
      hfirst _ _ _ _ _ hres first hfound⟩

end Removable

/-- A layer of an app, a base or a runtime. -/
def pruneLayer (commit id kind : String) (deleted : Option Bool) : RepositoryCacheLayersItem where
  commit := commit
  deleted := deleted
  info := { Job.packageInfo id "1.0.0.0" with base := "org.base/1.0.0.0", kind := kind }
  repo := "stable"

/-- An app, marked or not, with its base and a runtime that nobody needs. -/
def pruneRepo (deleted : Option Bool) : Repo :=
  let layers := [pruneLayer "a" "org.app" "app" deleted, pruneLayer "b" "org.base" "base" none,
    pruneLayer "r" "org.runtime" "runtime" none]
  .ofLayers (.ofCommits (layers.map fun item => (item.commit, item.info))) layers [] []

/-- The app is there from two channels. -/
def sharedRepo : Repo :=
  let app := pruneLayer "a" "org.app" "app" none
  let layers := [app, { app with commit := "c", info := { app.info with channel := "beta" } },
    pruneLayer "b" "org.base" "base" none, pruneLayer "r" "org.runtime" "runtime" none]
  .ofLayers (.ofCommits (layers.map fun item => (item.commit, item.info))) layers [] []

end Repo

end Linglong
