import Linglong.Framework.Removal
import Linglong.PackageManager.Frame
import Linglong.PackageManager.PruneSafety

/-! # What `deferredUninstall` Removes

    `deferredUninstall` should remove the layers that are marked deleted and
    not used by a running container, and no others. Two things are in the
    way, even if no removal fails.

    After a group of layers the code looks for the latest version of the
    package, to export it. If there is none, an error message is written and
    the missing value is used all the same.

    A layer is not removed as such: `remove` looks one up by reference,
    module and uuid. For the module `runtime` it looks for `binary` first,
    marked or not.

    1. What should hold, and when it does.
    2. Lookups (`getLayerItem_ok_iff`).
    3. The groups of marked layers.
    4. The removals of a call as requests (`removes_uninstallGroups`).
    5. Layers that stay.
    6. The latest version.
    7. The exact condition (`uninstallsExactly_iff`).
-/

namespace Linglong

open Framework RepositoryCacheLayersItem

/-! ## Section 1: Property and condition -/

/-- The package in any version, as `deferredUninstall` asks for it. -/
def Reference.latest (ref : Reference) : FuzzyReference where
  channel := some ref.channel
  id := ref.id
  version := none
  arch := some ref.arch
  channel_ne := by simpa using ref.channel_ne
  id_ne := ref.id_ne

theorem Reference.create_latest (ref : Reference) :
    FuzzyReference.create (some ref.channel) ref.id none (some ref.arch) = .ok ref.latest := by
  have hchannel : some ref.channel ≠ some "" := by simpa using ref.channel_ne
  rw [FuzzyReference.create, dif_neg hchannel, dif_neg ref.id_ne]
  rfl

theorem RepositoryCacheLayersItem.matchesItem_comm (a b : RepositoryCacheLayersItem) :
    a.matchesItem b = b.matchesItem a := by
  rw [Bool.eq_iff_iff, matchesItem_iff, matchesItem_iff]
  simp only [eq_comm]

/-- No two items match, so `findMatchingItem` finds the item itself. -/
def Distinct (layers : List RepositoryCacheLayersItem) : Prop :=
  layers.Pairwise fun a b => a.matchesItem b = false

theorem Distinct.nodup {layers : List RepositoryCacheLayersItem} (h : Distinct layers) :
    layers.Nodup := by
  refine h.imp fun {a b} hmatch heq => ?_
  rw [heq, matchesItem_self] at hmatch
  cases hmatch

/-- The layer has the id, the channel and the version of the other one, it is
    a `binary` or `runtime`, and a lookup with the uuid of the other one
    accepts it. -/
def RepositoryCacheLayersItem.AnswersFor (item other : RepositoryCacheLayersItem) : Prop :=
  item.info.id = other.info.id ∧ item.info.channel = other.info.channel ∧
    item.info.version = other.info.version ∧ item.moduleName = "binary" ∧
    (other.info.uuid = none ∨ item.info.uuid = other.info.uuid)

theorem RepositoryCacheLayersItem.AnswersFor.trans {a b c : RepositoryCacheLayersItem}
    (h : a.AnswersFor b) (h' : b.AnswersFor c) : a.AnswersFor c := by
  obtain ⟨hid, hchannel, hversion, hmodule, huuid⟩ := h
  obtain ⟨hid', hchannel', hversion', -, huuid'⟩ := h'
  refine ⟨hid.trans hid', hchannel.trans hchannel', hversion.trans hversion', hmodule, ?_⟩
  rcases huuid with hnone | hsame
  · rcases huuid' with hnone' | hsame'
    · exact .inl hnone'
    · exact .inl (hsame'.symm.trans hnone)
  · rw [hsame]
    exact huuid'

namespace Repo

/-- The layer is marked deleted, and no running container uses its
    reference. -/
def isReleased (running : List String) (item : RepositoryCacheLayersItem) : Bool :=
  item.isDeleted &&
    match Reference.fromPackageInfo item.info with
    | .ok ref => !running.contains ref.toString
    | .error _ => false

/-- The references in the last loop of `deferredUninstall`, each with the
    repository after the removals for it. -/
def uninstallStages : List (String × List RepositoryCacheLayersItem) → Repo →
    List (Reference × Repo)
  | [], _ => []
  | (text, items) :: rest, s =>
      match Reference.parse text with
      | .error _ => []
      | .ok ref =>
          (ref, uninstallGroup ref items s) :: uninstallStages rest (uninstallGroup ref items s)

/-- `latestRef`, which the code uses without a test. -/
def latestRef (s : Repo) (ref : Reference) : Except String Reference := do
  let fuzzy ← FuzzyReference.create (some ref.channel) ref.id none (some ref.arch)
  s.clearReferenceLocal fuzzy

/-- The groups in the order of the loop. -/
def uninstallOrder (running : List String) (s : Repo) :
    List (String × List RepositoryCacheLayersItem) :=
  s.outside.map.groups (s.removableGroups (.ok running))

/-- All removals of a group return without error. -/
def RemovesItems (ref : Reference) : List RepositoryCacheLayersItem → Repo → Prop
  | [], _ => True
  | item :: rest, s =>
      (∃ s', remove ref item.info.packageInfoV2Module item.info.uuid s = .ok () s') ∧
        RemovesItems ref rest (after (remove ref item.info.packageInfoV2Module item.info.uuid) s)

/-- All removals of the loop return without error. -/
def RemovesGroups : List (String × List RepositoryCacheLayersItem) → Repo → Prop
  | [], _ => True
  | (text, items) :: rest, s =>
      ∀ ref, Reference.parse text = .ok ref →
        RemovesItems ref items s ∧ RemovesGroups rest (uninstallGroup ref items s)

/-- **What should hold.** Every `latestRef` that is used is a reference, and
    the released layers are gone, no others. -/
structure UninstallsExactly (running : List String) (s : Repo) : Prop where
  latest : ∀ p ∈ uninstallStages (s.uninstallOrder running) s, ∃ ref, latestRef p.2 p.1 = .ok ref
  layers : (s.deferredUninstall (.ok running)).layers =
    s.layers.filter fun item => !isReleased running item

/-- A latest layer of the package: there is no greater version text. -/
def IsLatest (s : Repo) (id : String) (item : RepositoryCacheLayersItem) : Prop :=
  item ∈ s.layers ∧ item.info.id = id ∧ item.isDeleted = false ∧
    ∀ other ∈ s.layers, other.info.id = id → other.isDeleted = false →
      ¬ item.info.version < other.info.version

/-- **When it holds.** Every marked layer has a reference. For a released one
    this reference can be read back from its text and has the layer's version
    text; if it is a `runtime`, all layers that answer for it are released as
    well; and there is a layer of the package that is not marked, for the
    architecture of the host, and the latest of these have references. -/
structure CanUninstall (running : List String) (s : Repo) : Prop where
  referenced : ∀ item ∈ s.layers, item.isDeleted = true →
    ∃ ref, Reference.fromPackageInfo item.info = .ok ref
  readBack : ∀ item ∈ s.layers, isReleased running item = true → ∀ ref,
    Reference.fromPackageInfo item.info = .ok ref →
      Reference.parse ref.toString = .ok ref ∧ ref.version.toString = item.info.version
  runtime : ∀ item ∈ s.layers, isReleased running item = true →
    item.info.packageInfoV2Module = "runtime" →
    ∀ other ∈ s.layers, other.AnswersFor item → isReleased running other = true
  latest : ∀ item ∈ s.layers, isReleased running item = true → ∀ ref,
    Reference.fromPackageInfo item.info = .ok ref →
      s.checkLocalArch ref.latest = .ok () ∧ (∃ other, s.IsLatest ref.id other) ∧
        ∀ other, s.IsLatest ref.id other → ∃ ref', referenceOf other = .ok ref'

/-- The same repository where `std::sort` orders equal elements in another
    way. -/
def withSort (s : Repo) (sort : StdSort) : Repo :=
  { s with outside := { s.outside with sort := sort } }

/-! ## Section 2: Lookups -/

/-- A request to remove a layer: the reference in use and the layer's item. -/
abbrev Request := Reference × RepositoryCacheLayersItem

/-- What a request finds: the only answer, under the new name of the module
    or else under the old one. -/
def Finds (r : Request) (layers : List RepositoryCacheLayersItem)
    (found : RepositoryCacheLayersItem) : Prop :=
  answers r.1 r.2.moduleName r.2.info.uuid layers = [found] ∨
    (answers r.1 r.2.moduleName r.2.info.uuid layers = [] ∧ r.2.moduleName = "binary" ∧
      answers r.1 "runtime" r.2.info.uuid layers = [found])

theorem Finds.mem {r : Request} {layers : List RepositoryCacheLayersItem}
    {found : RepositoryCacheLayersItem} (h : Finds r layers found) :
    found ∈ layers ∧ found.isLayerOf r.1 = true ∧
      (r.2.info.uuid = none ∨ found.info.uuid = r.2.info.uuid) ∧
      (found.info.packageInfoV2Module = r.2.moduleName ∨
        r.2.moduleName = "binary" ∧ found.info.packageInfoV2Module = "runtime") := by
  rcases h with h | ⟨-, hbinary, h⟩
  · have hmem : found ∈ answers r.1 r.2.moduleName r.2.info.uuid layers := by rw [h]; simp
    obtain ⟨hlayer, hof, hmodule, huuid⟩ := mem_answers.1 hmem
    exact ⟨hlayer, hof, huuid, .inl hmodule⟩
  · have hmem : found ∈ answers r.1 "runtime" r.2.info.uuid layers := by rw [h]; simp
    obtain ⟨hlayer, hof, hmodule, huuid⟩ := mem_answers.1 hmem
    exact ⟨hlayer, hof, huuid, .inr ⟨hbinary, hmodule⟩⟩

/-- What a request finds is the only layer there with its module that answers. -/
theorem Finds.only {r : Request} {layers : List RepositoryCacheLayersItem}
    {found item : RepositoryCacheLayersItem} (h : Finds r layers found) (hitem : item ∈ layers)
    (hof : item.isLayerOf r.1 = true) (huuid : r.2.info.uuid = none ∨ item.info.uuid = r.2.info.uuid)
    (hmodule : item.info.packageInfoV2Module = found.info.packageInfoV2Module) : item = found := by
  have hsame : ∀ m, answers r.1 m r.2.info.uuid layers = [found] → item = found := by
    intro m hm
    have hfound : found ∈ answers r.1 m r.2.info.uuid layers := by rw [hm]; simp
    have hmem : item ∈ answers r.1 m r.2.info.uuid layers :=
      mem_answers.2 ⟨hitem, hof, hmodule.trans (mem_answers.1 hfound).2.2.1, huuid⟩
    rw [hm] at hmem
    exact List.mem_singleton.1 hmem
  rcases h with h | ⟨-, -, h⟩
  · exact hsame _ h
  · exact hsame _ h

/-- A layer under the new name of the module is found before all others. -/
theorem Finds.eq_of_newName {r : Request} {layers : List RepositoryCacheLayersItem}
    {found item : RepositoryCacheLayersItem} (h : Finds r layers found) (hitem : item ∈ layers)
    (hof : item.isLayerOf r.1 = true) (huuid : r.2.info.uuid = none ∨ item.info.uuid = r.2.info.uuid)
    (hmodule : item.info.packageInfoV2Module = r.2.moduleName) : item = found := by
  have hmem : item ∈ answers r.1 r.2.moduleName r.2.info.uuid layers :=
    mem_answers.2 ⟨hitem, hof, hmodule, huuid⟩
  rcases h with h | ⟨h, -, -⟩
  · rw [h] at hmem
    exact List.mem_singleton.1 hmem
  · rw [h] at hmem
    cases hmem

/-- A request finds one layer. -/
theorem Finds.unique {r : Request} {layers : List RepositoryCacheLayersItem}
    {a b : RepositoryCacheLayersItem} (ha : Finds r layers a) (hb : Finds r layers b) : a = b := by
  rcases ha with ha | ⟨ha, -, ha'⟩ <;> rcases hb with hb | ⟨hb, -, hb'⟩
  · exact List.singleton_inj.1 (ha.symm.trans hb)
  · exact absurd (ha.symm.trans hb) (by simp)
  · exact absurd (hb.symm.trans ha) (by simp)
  · exact List.singleton_inj.1 (ha'.symm.trans hb')

theorem getLayerItem_ok_iff {s : Repo} {ref : Reference} {item found : RepositoryCacheLayersItem} :
    s.getLayerItem ref item.info.packageInfoV2Module item.info.uuid = .ok found ↔
      Finds (ref, item) s.layers found :=
  getLayerItem_answers

/-! ## Section 3: Groups -/

/-- Every group has items, and its text is that of their reference. -/
def Grouped (groups : List (String × List RepositoryCacheLayersItem)) : Prop :=
  ∀ g ∈ groups, g.2 ≠ [] ∧
    ∀ item ∈ g.2, ∃ ref, Reference.fromPackageInfo item.info = .ok ref ∧ ref.toString = g.1

theorem addToGroup_perm (groups : List (String × List RepositoryCacheLayersItem)) (text : String)
    (item : RepositoryCacheLayersItem) :
    ((addToGroup groups text item).flatMap Prod.snd).Perm (groups.flatMap Prod.snd ++ [item]) := by
  induction groups with
  | nil => simp [addToGroup]
  | cons g groups ih =>
    unfold addToGroup
    split
    · simp only [List.flatMap_cons, List.append_assoc]
      exact List.Perm.append_left _ List.perm_append_comm
    · simp only [List.flatMap_cons, List.append_assoc]
      exact List.Perm.append_left _ ih

theorem Grouped.addToGroup {groups : List (String × List RepositoryCacheLayersItem)}
    (h : Grouped groups) {item : RepositoryCacheLayersItem} {ref : Reference}
    (href : Reference.fromPackageInfo item.info = .ok ref) :
    Grouped (addToGroup groups ref.toString item) := by
  induction groups with
  | nil =>
    intro g hg
    rw [List.mem_singleton.1 hg]
    refine ⟨by simp, fun other hother => ?_⟩
    rw [List.mem_singleton.1 hother]
    exact ⟨ref, href, rfl⟩
  | cons g groups ih =>
    have hrest : Grouped groups := fun g' hg' => h g' (by simp [hg'])
    obtain ⟨hne, htext⟩ := h g (by simp)
    -- the item goes into the group of its text, or on to the next group
    unfold Repo.addToGroup
    split
    · next heq =>
      intro g' hg'
      rcases List.mem_cons.1 hg' with rfl | hg'
      · refine ⟨by simp, fun other hother => ?_⟩
        rcases List.mem_append.1 hother with hother | hother
        · exact htext other hother
        · rw [List.mem_singleton.1 hother]
          exact ⟨ref, href, heq.symm⟩
      · exact hrest g' hg'
    · intro g' hg'
      rcases List.mem_cons.1 hg' with rfl | hg'
      · exact ⟨hne, htext⟩
      · exact ih hrest g' hg'

/-- All items are put into groups. -/
theorem deletedGroups_ok {items : List RepositoryCacheLayersItem}
    {groups result : List (String × List RepositoryCacheLayersItem)} (hgroups : Grouped groups)
    (h : deletedGroups items groups = .ok result) :
    Grouped result ∧ (result.flatMap Prod.snd).Perm (groups.flatMap Prod.snd ++ items) ∧
      ∀ item ∈ items, ∃ ref, Reference.fromPackageInfo item.info = .ok ref := by
  induction items generalizing groups with
  | nil =>
    cases h
    exact ⟨hgroups, by simp, by simp⟩
  | cons item items ih =>
    obtain ⟨ref, href, hrest⟩ := deletedGroups_cons_eq_ok_iff.1 h
    obtain ⟨hresult, hperm, hrefs⟩ := ih (hgroups.addToGroup href) hrest
    refine ⟨hresult, hperm.trans ?_, ?_⟩
    · have hadd := (addToGroup_perm groups ref.toString item).append_right items
      rwa [List.append_assoc] at hadd
    · intro other hother
      rcases List.mem_cons.1 hother with rfl | hother
      · exact ⟨ref, href⟩
      · exact hrefs other hother

theorem exists_deletedGroups {items : List RepositoryCacheLayersItem}
    (h : ∀ item ∈ items, ∃ ref, Reference.fromPackageInfo item.info = .ok ref)
    (groups : List (String × List RepositoryCacheLayersItem)) :
    ∃ result, deletedGroups items groups = .ok result := by
  induction items generalizing groups with
  | nil => exact ⟨groups, rfl⟩
  | cons item items ih =>
    obtain ⟨ref, href⟩ := h item (by simp)
    obtain ⟨result, hresult⟩ := ih (fun other hother => h other (by simp [hother]))
      (addToGroup groups ref.toString item)
    exact ⟨result, deletedGroups_cons_eq_ok_iff.2 ⟨ref, href, hresult⟩⟩

theorem mem_query_deleted {s : Repo} {item : RepositoryCacheLayersItem} :
    item ∈ s.queryLayerItem { deleted := some true } ↔ item ∈ s.layers ∧ item.isDeleted = true := by
  unfold queryLayerItem
  rw [mem_queryItems]
  simp only [RepoCacheQuery.accepts, Option.all_some, Option.all_none, Bool.and_true,
    Bool.true_and, beq_iff_eq, isDeleted]
  cases item.deleted <;> simp

theorem isReleased_iff {running : List String} {item : RepositoryCacheLayersItem} :
    isReleased running item = true ↔ item.isDeleted = true ∧
      ∃ ref, Reference.fromPackageInfo item.info = .ok ref ∧ ref.toString ∉ running := by
  unfold isReleased
  cases Reference.fromPackageInfo item.info <;> simp

/-- Leaving out groups leaves out their items. -/
theorem flatMap_filter_groups {groups : List (String × List RepositoryCacheLayersItem)}
    (h : Grouped groups) (hdeleted : ∀ item ∈ groups.flatMap Prod.snd, item.isDeleted = true)
    (running : List String) :
    (groups.filter fun g => !running.contains g.1).flatMap Prod.snd =
      (groups.flatMap Prod.snd).filter (isReleased running) := by
  induction groups with
  | nil => rfl
  | cons g groups ih =>
    have hrest := ih (fun g' hg' => h g' (by simp [hg'])) fun item hitem =>
      hdeleted item (by rw [List.flatMap_cons]; exact List.mem_append_right _ hitem)
    have hitems : ∀ item ∈ g.2, isReleased running item = !running.contains g.1 := by
      intro item hitem
      obtain ⟨ref, href, htext⟩ := (h g (by simp)).2 item hitem
      have hmark : item.isDeleted = true :=
        hdeleted item (by rw [List.flatMap_cons]; exact List.mem_append_left _ hitem)
      simp only [isReleased, href, htext, hmark, Bool.true_and]
    rw [List.flatMap_cons, List.filter_append]
    by_cases hfree : (!running.contains g.1) = true
    · rw [List.filter_cons, if_pos hfree, List.flatMap_cons, hrest]
      congr 1
      refine (List.filter_eq_self.2 fun item hitem => ?_).symm
      rw [hitems item hitem, hfree]
    · rw [List.filter_cons, if_neg hfree, hrest]
      have hnone : g.2.filter (isReleased running) = [] := by
        refine List.filter_eq_nil_iff.2 fun item hitem => ?_
        rwa [hitems item hitem]
      rw [hnone, List.nil_append]

/-- If all marked layers have references, the groups have the released
    layers. -/
theorem removableGroups_spec {s : Repo}
    (h : ∀ item ∈ s.layers, item.isDeleted = true →
      ∃ ref, Reference.fromPackageInfo item.info = .ok ref) (running : List String) :
    Grouped (s.removableGroups (.ok running)) ∧
      ((s.removableGroups (.ok running)).flatMap Prod.snd).Perm
        (s.layers.filter (isReleased running)) := by
  have hrefs : ∀ item ∈ s.queryLayerItem { deleted := some true },
      ∃ ref, Reference.fromPackageInfo item.info = .ok ref :=
    fun item hitem => (mem_query_deleted.1 hitem).elim (h item)
  obtain ⟨groups, hgroups⟩ := exists_deletedGroups hrefs []
  have hnil : Grouped [] := fun g hg => by cases hg
  obtain ⟨hgrouped, hperm, -⟩ := deletedGroups_ok hnil hgroups
  rw [List.flatMap_nil, List.nil_append] at hperm
  have hremovable : s.removableGroups (.ok running) =
      groups.filter fun g => !running.contains g.1 := by
    unfold removableGroups
    rw [hgroups]
  have hdeleted : ∀ item ∈ groups.flatMap Prod.snd, item.isDeleted = true := by
    intro item hitem
    exact (mem_query_deleted.1 (hperm.mem_iff.1 hitem)).2
  rw [hremovable]
  refine ⟨fun g hg => hgrouped g (List.mem_of_mem_filter hg), ?_⟩
  rw [flatMap_filter_groups hgrouped hdeleted]
  refine (hperm.filter _).trans ?_
  -- the query has the marked layers in another order
  have hquery : (s.queryLayerItem { deleted := some true }).Perm
      (s.layers.filter isDeleted) := by
    refine (s.outside.sort.byVersion_perm _).trans (List.Perm.of_eq ?_)
    refine List.filter_congr fun item hitem => ?_
    rw [Bool.eq_iff_iff]
    have hmem : item ∈ s.queryLayerItem { deleted := some true } ↔ _ := mem_query_deleted
    unfold queryLayerItem at hmem
    rw [mem_queryItems] at hmem
    simpa [hitem] using hmem
  refine (hquery.filter _).trans (List.Perm.of_eq ?_)
  rw [List.filter_filter]
  refine List.filter_congr fun item _ => ?_
  unfold isReleased
  cases item.isDeleted <;> simp

/-- If one has none, there are no groups. -/
theorem removableGroups_of_broken {s : Repo} {item : RepositoryCacheLayersItem}
    (hitem : item ∈ s.layers) (hdeleted : item.isDeleted = true)
    (hbroken : ∀ ref, Reference.fromPackageInfo item.info ≠ .ok ref) (running : List String) :
    s.removableGroups (.ok running) = [] := by
  unfold removableGroups
  cases hgroups : deletedGroups (s.queryLayerItem { deleted := some true }) [] with
  | error e => rfl
  | ok groups =>
    have hnil : Grouped [] := fun g hg => by cases hg
    obtain ⟨ref, href⟩ := (deletedGroups_ok hnil hgroups).2.2 item
      (mem_query_deleted.2 ⟨hitem, hdeleted⟩)
    exact absurd href (hbroken ref)

/-! ## Section 4: Removals -/

/-- The first match of a layer is the layer itself. -/
theorem eraseP_matchesItem {layers : List RepositoryCacheLayersItem} (h : Distinct layers)
    {item : RepositoryCacheLayersItem} (hitem : item ∈ layers) :
    layers.eraseP item.matchesItem = layers.erase item := by
  induction layers with
  | nil => cases hitem
  | cons a layers ih =>
    obtain ⟨hfirst, hrest⟩ := List.pairwise_cons.1 h
    by_cases heq : a = item
    · subst heq
      rw [List.eraseP_cons_of_pos (by simp), List.erase_cons_head]
    · have hmem : item ∈ layers := by
        rcases List.mem_cons.1 hitem with heq' | hmem
        · exact absurd heq'.symm heq
        · exact hmem
      have hother : ¬ item.matchesItem a = true := by
        rw [matchesItem_comm, hfirst item hmem]
        exact Bool.false_ne_true
      rw [List.eraseP_cons_of_neg hother, List.erase_cons_tail (by simpa using heq), ih hrest hmem]

/-- `addLayerItem` refuses an item that matches one that is there. -/
theorem distinct_addLayerItem (item : RepositoryCacheLayersItem) {s : Repo}
    (h : Distinct s.layers) : Distinct (after (addLayerItem item) s).layers := by
  by_cases hany : s.layers.any item.matchesItem = true
  · have hrun : addLayerItem item s = .error "item already exist" s :=
      bind_of_error (demand_of_error (if_pos hany))
    rwa [after_of_error hrun]
  · rcases addLayerItem_cases item s with ⟨e, hrun⟩ | ⟨-, faults, json, hafter⟩
    · rwa [after_of_error hrun]
    · rw [hafter]
      refine List.pairwise_append.2 ⟨h, List.pairwise_singleton _ _, fun a ha b hb => ?_⟩
      rw [List.mem_singleton.1 hb, matchesItem_comm]
      by_contra hmatch
      exact hany (List.any_eq_true.2 ⟨a, ha, by simpa using hmatch⟩)

/-- A removal that succeeds takes out what its request finds. -/
theorem remove_ok {s s' : Repo} {ref : Reference} {item : RepositoryCacheLayersItem}
    (hdistinct : Distinct s.layers)
    (h : remove ref item.info.packageInfoV2Module item.info.uuid s = .ok () s') :
    ∃ found, Finds (ref, item) s.layers found ∧ s'.layers = s.layers.erase found ∧
      s'.outside = s.outside := by
  rcases remove_cases ref item.info.packageInfoV2Module item.info.uuid s with
    ⟨e, faults, -, hrun, -⟩ | ⟨found, faults, json, dirs, -, hfound, hafter, -, -⟩
  · rw [h] at hrun
    cases hrun
  · rw [after_of_ok h] at hafter
    have hfinds := getLayerItem_ok_iff.1 hfound
    refine ⟨found, hfinds, ?_, by rw [hafter]; rfl⟩
    rw [hafter, ← eraseP_matchesItem hdistinct hfinds.mem.1]
    rfl

/-- The requests of the loop: up to the first text that cannot be read. -/
def requests : List (String × List RepositoryCacheLayersItem) → List Request
  | [] => []
  | (text, items) :: rest =>
      match Reference.parse text with
      | .error _ => []
      | .ok ref => items.map (fun item => (ref, item)) ++ requests rest

/-- **Run**: the removals of one group. -/
theorem removes_items {ref : Reference} {items : List RepositoryCacheLayersItem} {s : Repo}
    (hdistinct : Distinct s.layers) (h : RemovesItems ref items s) :
    Removes Finds (items.map fun item => (ref, item)) s.layers (items.foldl (fun s item =>
      after (remove ref item.info.packageInfoV2Module item.info.uuid) s) s).layers ∧
    (items.foldl (fun s item =>
      after (remove ref item.info.packageInfoV2Module item.info.uuid) s) s).outside = s.outside := by
  induction items generalizing s with
  | nil => exact ⟨.nil _, rfl⟩
  | cons item items ih =>
    obtain ⟨⟨s₁, hrun⟩, hrest⟩ := h
    rw [after_of_ok hrun] at hrest
    obtain ⟨found, hfinds, hlayers, houtside⟩ := remove_ok hdistinct hrun
    rw [List.foldl_cons, after_of_ok hrun]
    have hdistinct₁ : Distinct s₁.layers := by
      rw [hlayers]
      exact hdistinct.sublist List.erase_sublist
    obtain ⟨hremoves, houtside'⟩ := ih hdistinct₁ hrest
    rw [hlayers] at hremoves
    exact ⟨.cons hfinds hremoves, houtside'.trans houtside⟩

theorem removes_uninstallGroup {ref : Reference} {items : List RepositoryCacheLayersItem}
    {s : Repo} (hdistinct : Distinct s.layers) (h : RemovesItems ref items s) :
    Removes Finds (items.map fun item => (ref, item)) s.layers
      (uninstallGroup ref items s).layers ∧ (uninstallGroup ref items s).outside = s.outside := by
  obtain ⟨hremoves, houtside⟩ := removes_items hdistinct h
  have hmerge := mergeFrame_mergeModules (items.foldl (fun s item =>
    after (remove ref item.info.packageInfoV2Module item.info.uuid) s) s)
  unfold uninstallGroup
  rw [hmerge.layers]
  exact ⟨hremoves, hmerge.outside.trans houtside⟩

/-- **Run**: the removals of the loop. -/
theorem removes_uninstallGroups {groups : List (String × List RepositoryCacheLayersItem)}
    {s : Repo} (hdistinct : Distinct s.layers) (h : RemovesGroups groups s) :
    Removes Finds (requests groups) s.layers (uninstallGroups groups s).layers := by
  induction groups generalizing s with
  | nil => exact .nil _
  | cons g groups ih =>
    obtain ⟨text, items⟩ := g
    unfold requests uninstallGroups
    cases hparse : Reference.parse text with
    | error e => exact .nil _
    | ok ref =>
      obtain ⟨hitems, hgroups⟩ := h ref hparse
      obtain ⟨hremoves, -⟩ := removes_uninstallGroup hdistinct hitems
      exact hremoves.append (ih (hdistinct.sublist hremoves.sublist) hgroups)

/-- The state at each `latestRef` lies between the first and the last. -/
theorem uninstallStages_spec {groups : List (String × List RepositoryCacheLayersItem)}
    {s : Repo} (hdistinct : Distinct s.layers) (h : RemovesGroups groups s)
    {p : Reference × Repo} (hp : p ∈ uninstallStages groups s) :
    p.2.outside = s.outside ∧ (∃ g ∈ groups, Reference.parse g.1 = .ok p.1) ∧
      ∃ before later, requests groups = before ++ later ∧
        Removes Finds before s.layers p.2.layers ∧
        Removes Finds later p.2.layers (uninstallGroups groups s).layers := by
  induction groups generalizing s with
  | nil => cases hp
  | cons g groups ih =>
    obtain ⟨text, items⟩ := g
    unfold uninstallStages at hp
    unfold requests uninstallGroups
    cases hparse : Reference.parse text with
    | error e =>
      rw [hparse] at hp
      cases hp
    | ok ref =>
      rw [hparse] at hp
      obtain ⟨hitems, hgroups⟩ := h ref hparse
      obtain ⟨hremoves, houtside⟩ := removes_uninstallGroup hdistinct hitems
      have hdistinct₁ := hdistinct.sublist hremoves.sublist
      -- the stage of this group, or one behind the removals of this group
      rcases List.mem_cons.1 hp with rfl | hp
      · exact ⟨houtside, ⟨(text, items), List.mem_cons_self, hparse⟩, _, _, rfl, hremoves,
          removes_uninstallGroups hdistinct₁ hgroups⟩
      · obtain ⟨houtside', ⟨g, hg, hgparse⟩, before, later, hsplit, hbefore, hlater⟩ :=
          ih hdistinct₁ hgroups hp
        refine ⟨houtside'.trans houtside, ⟨g, by simp [hg], hgparse⟩, _, later, ?_,
          hremoves.append hbefore, hlater⟩
        simp only [hsplit, List.append_assoc]

/-! ## Section 5: Layers that stay -/

/-- What a request for a `binary` or `runtime` finds answers for its layer. -/
theorem Finds.answersFor {r : Request} {layers : List RepositoryCacheLayersItem}
    {found : RepositoryCacheLayersItem} (h : Finds r layers found)
    (hof : r.2.isLayerOf r.1 = true) (hbinary : r.2.moduleName = "binary") :
    found.AnswersFor r.2 := by
  obtain ⟨-, hfound, huuid, hmodule⟩ := h.mem
  obtain ⟨hid, hchannel, hversion⟩ := isLayerOf_iff.1 hof
  obtain ⟨hid', hchannel', hversion'⟩ := isLayerOf_iff.1 hfound
  refine ⟨hid'.trans hid.symm, hchannel'.trans hchannel.symm, hversion'.trans hversion.symm,
    ?_, huuid⟩
  rcases hmodule with hmodule | ⟨-, hmodule⟩
  · rw [moduleName, hmodule, hbinary]
    rfl
  · rw [moduleName, hmodule]
    rfl

section Stay

variable {goes : RepositoryCacheLayersItem → Bool} {all : List Request}
  {layers : List RepositoryCacheLayersItem}

/-- Between the removals: the layers that should stay are there, and so is
    every layer that is still to be removed, unless it answered for a
    `runtime`. -/
structure Removing (goes : RepositoryCacheLayersItem → Bool) (all : List Request)
    (layers : List RepositoryCacheLayersItem) (todo : List Request)
    (rest : List RepositoryCacheLayersItem) : Prop where
  pending : todo <:+ all
  sublist : rest.Sublist layers
  stay : rest.filter (fun item => !goes item) = layers.filter fun item => !goes item
  there : ∀ r ∈ todo, r.2.info.packageInfoV2Module ≠ "runtime" → r.2 ∈ rest ∨
    ∃ z ∈ all, z.2.info.packageInfoV2Module = "runtime" ∧ r.2.AnswersFor z.2

variable (hnodup : layers.Nodup) (hperm : (all.map Prod.snd).Perm (layers.filter goes))
  (hof : ∀ r ∈ all, r.2.isLayerOf r.1 = true)
  (hruntime : ∀ r ∈ all, r.2.info.packageInfoV2Module = "runtime" →
    ∀ other ∈ layers, other.AnswersFor r.2 → goes other = true)

include hnodup hperm hof hruntime

/-- **Step**: a request finds its own layer, or one that answers for a
    `runtime`; both should go. -/
theorem Removing.step {r : Request} {todo : List Request}
    {rest : List RepositoryCacheLayersItem} {found : RepositoryCacheLayersItem}
    (h : Removing goes all layers (r :: todo) rest) (hfinds : Finds r rest found) :
    Removing goes all layers todo (rest.erase found) := by
  have hr : r ∈ all := h.pending.subset (by simp)
  have hfoundLayer : found ∈ layers := h.sublist.subset hfinds.mem.1
  -- which of the two it is
  have hwhich : found = r.2 ∨
      ∃ z ∈ all, z.2.info.packageInfoV2Module = "runtime" ∧ found.AnswersFor z.2 := by
    by_cases hold : r.2.info.packageInfoV2Module = "runtime"
    · have hbinary : r.2.moduleName = "binary" := by
        rw [moduleName, hold]
        rfl
      exact .inr ⟨r, hr, hold, hfinds.answersFor (hof r hr) hbinary⟩
    · rcases h.there r (by simp) hold with hthere | ⟨z, hz, hzold, hanswers⟩
      · have hname : r.2.info.packageInfoV2Module = r.2.moduleName := by
          rw [moduleName, normModule, if_neg hold]
        exact .inl (hfinds.eq_of_newName hthere (hof r hr) (.inr rfl) hname).symm
      · exact .inr ⟨z, hz, hzold,
          (hfinds.answersFor (hof r hr) hanswers.2.2.2.1).trans hanswers⟩
  have hgoes : goes found = true := by
    rcases hwhich with rfl | ⟨z, hz, hzold, hanswers⟩
    · have hmem : r.2 ∈ layers.filter goes := hperm.subset (List.mem_map_of_mem hr)
      exact (List.mem_filter.1 hmem).2
    · exact hruntime z hz hzold found hfoundLayer hanswers
  refine ⟨(List.suffix_cons r todo).trans h.pending, List.erase_sublist.trans h.sublist, ?_, ?_⟩
  · rw [← h.stay, (hnodup.sublist h.sublist).erase_eq_filter, List.filter_filter]
    refine List.filter_congr fun item _ => ?_
    by_cases heq : item = found
    · rw [heq, hgoes]
      rfl
    · simp [heq]
  · intro r' hr' hnew
    rcases h.there r' (by simp [hr']) hnew with hthere | hanswers
    · by_cases heq : r'.2 = found
      · right
        rcases hwhich with hown | hanswers
        · -- it would be requested twice
          have hnodup' : ((r :: todo).map Prod.snd).Nodup :=
            ((hperm.nodup_iff.2 (hnodup.filter _)).sublist (h.pending.sublist.map _))
          rw [List.map_cons, List.nodup_cons] at hnodup'
          refine absurd ?_ hnodup'.1
          rw [← hown, ← heq]
          exact List.mem_map_of_mem hr'
        · rwa [heq]
      · exact .inl ((List.mem_erase_of_ne heq).2 hthere)
    · exact .inr hanswers

/-- **Run**: the layers that should stay do so. -/
theorem stay_of_removes {before later : List Request} (hsplit : all = before ++ later)
    {rest : List RepositoryCacheLayersItem} (h : Removes Finds before layers rest) :
    rest.filter (fun item => !goes item) = layers.filter fun item => !goes item := by
  have hstart : Removing goes all layers (before ++ later) layers := by
    refine ⟨⟨[], hsplit.symm⟩, List.Sublist.refl _, rfl, ?_⟩
    intro r hr _
    rw [← hsplit] at hr
    exact .inl (List.mem_filter.1 (hperm.subset (List.mem_map_of_mem hr))).1
  have hend := h.invariant (I := Removing goes all layers)
    (fun _ _ _ _ hI hfinds => hI.step hnodup hperm hof hruntime hfinds) hstart
  exact hend.stay

/-- All requests together remove exactly the layers that should go. -/
theorem eq_filter_of_removes {rest : List RepositoryCacheLayersItem}
    (h : Removes Finds all layers rest) : rest = layers.filter fun item => !goes item := by
  refine h.eq_filter (fun r l a hfinds => hfinds.mem.1) ?_
    (stay_of_removes hnodup hperm hof hruntime (List.append_nil all).symm h)
  rw [← hperm.length_eq, List.length_map]

end Stay

/-- A layer that stays does not answer for a `runtime` that goes. -/
theorem goes_of_answersFor {goes : RepositoryCacheLayersItem → Bool} {all : List Request}
    {layers : List RepositoryCacheLayersItem} (hnodup : layers.Nodup)
    (h : Removes Finds all layers (layers.filter fun item => !goes item)) {r : Request}
    (hr : r ∈ all) (hof : r.2.isLayerOf r.1 = true) (hmem : r.2 ∈ layers) (hgoes : goes r.2 = true)
    (hold : r.2.info.packageInfoV2Module = "runtime") {other : RepositoryCacheLayersItem}
    (hother : other ∈ layers) (hanswers : other.AnswersFor r.2) : goes other = true := by
  by_contra hnot
  have hstays : other ∈ layers.filter fun item => !goes item :=
    List.mem_filter.2 ⟨hother, by simpa using hnot⟩
  obtain ⟨hid, hchannel, hversion, hbinary, huuid⟩ := hanswers
  have hsame : ∀ ref, r.2.isLayerOf ref = true → other.isLayerOf ref = true := by
    intro ref href
    obtain ⟨hid', hchannel', hversion'⟩ := isLayerOf_iff.1 href
    exact isLayerOf_iff.2 ⟨hid.trans hid', hchannel.trans hchannel', hversion.trans hversion'⟩
  by_cases hother' : other.info.packageInfoV2Module = "runtime"
  · -- whatever removed the `runtime` also matched the other layer
    have hgone : r.2 ∉ layers.filter fun item => !goes item := by
      intro hin
      simpa [hgoes] using (List.mem_filter.1 hin).2
    obtain ⟨r', -, l₁, hsub, hfinds, hleft⟩ := h.taken hmem hgone
    obtain ⟨-, hof', huuid', -⟩ := hfinds.mem
    have hin := hleft.subset hstays
    have heq : other = r.2 := by
      refine hfinds.only (List.mem_of_mem_erase hin) (hsame _ hof') ?_ (hother'.trans hold.symm)
      rcases huuid' with hnone | heq'
      · exact .inl hnone
      · rcases huuid with hnone | heq''
        · exact .inl (heq'.symm.trans hnone)
        · exact .inr (heq''.trans heq')
    rw [heq] at hin
    exact (hnodup.sublist hsub).not_mem_erase hin
  · -- the request for the `runtime` found the `binary`
    have hname : other.info.packageInfoV2Module = "binary" := by
      rwa [moduleName, normModule, if_neg hother'] at hbinary
    obtain ⟨l₁, found, hsub, hfinds, hleft⟩ := h.turn hr
    have hin := hleft.subset hstays
    have heq : other = found := by
      refine hfinds.eq_of_newName (List.mem_of_mem_erase hin) (hsame _ hof) huuid ?_
      rw [hname, moduleName, hold]
      rfl
    rw [heq] at hin
    exact (hnodup.sublist hsub).not_mem_erase hin

/-! ## Section 6: The latest version -/

/-- The same layers that are not marked. -/
def SameUnmarked (s s' : Repo) : Prop :=
  ∀ item, item.isDeleted = false → (item ∈ s'.layers ↔ item ∈ s.layers)

theorem latestRef_eq (s : Repo) (ref : Reference) :
    latestRef s ref = s.clearReferenceLocal ref.latest := by
  unfold latestRef
  rw [ref.create_latest]
  rfl

/-- Without a wanted version the first layer that is not marked is taken. -/
theorem findCompatible_none_ok {items : List RepositoryCacheLayersItem}
    {item : RepositoryCacheLayersItem} (h : findCompatible none items = .ok item) :
    ∃ before later, items = before ++ item :: later ∧ ∀ other ∈ before, other.isDeleted = true := by
  induction items with
  | nil => cases h
  | cons a items ih =>
    unfold findCompatible at h
    by_cases hdeleted : a.isDeleted = true
    · rw [if_pos hdeleted] at h
      obtain ⟨before, later, rfl, hbefore⟩ := ih h
      refine ⟨a :: before, later, rfl, fun other hother => ?_⟩
      rcases List.mem_cons.1 hother with rfl | hother
      · exact hdeleted
      · exact hbefore other hother
    · rw [if_neg hdeleted] at h
      cases hversion : Version.parse a.info.version with
      | error e => rw [hversion] at h; cases h
      | ok version =>
        rw [hversion] at h
        cases h
        exact ⟨[], items, rfl, by simp⟩

section Latest

variable {s s' : Repo} (hsame : s.SameUnmarked s') {ref : Reference}

include hsame

/-- A latest layer is there and all of them have references: `latestRef` is
    found. -/
theorem exists_latestRef (harch : s'.checkLocalArch ref.latest = .ok ())
    (hthere : ∃ other, s.IsLatest ref.id other)
    (hrefs : ∀ other, s.IsLatest ref.id other → ∃ ref', referenceOf other = .ok ref') :
    ∃ ref', latestRef s' ref = .ok ref' := by
  obtain ⟨other, hlatest⟩ := hthere
  obtain ⟨ref', href'⟩ := hrefs other hlatest
  obtain ⟨hmem, hid, hunmarked, hmax⟩ := hlatest
  have hversion := (referenceOf_ok href').1
  -- a broken layer has another version text
  have hbroken : ∀ b ∈ s'.queryLayerItem { id := some ref.id }, Broken b →
      b.info.version < other.info.version := by
    intro b hb hbroken
    obtain ⟨hb, hbid⟩ := mem_query_id.1 hb
    obtain ⟨hbunmarked, e, he⟩ := hbroken
    have hnot := hmax b ((hsame b hbunmarked).1 hb) hbid hbunmarked
    by_contra hlt
    have heq : b.info.version = other.info.version := String.le_antisymm hnot hlt
    rw [heq, hversion] at he
    cases he
  have hcompatible : Compatible none other := ⟨hunmarked, _, hversion, rfl⟩
  obtain ⟨found, hfound, hnot⟩ := exists_findCompatible
    (s'.descending_query { id := some ref.id })
    (mem_query_id.2 ⟨(hsame other hunmarked).2 hmem, hid⟩) hcompatible hbroken
  obtain ⟨hfoundMem, hcompatible, -, -⟩ := findCompatible_ok hfound
    (s'.descending_query { id := some ref.id })
  obtain ⟨hfoundLayer, hfoundId⟩ := mem_query_id.1 hfoundMem
  have hfoundLatest : s.IsLatest ref.id found := by
    refine ⟨(hsame found hcompatible.1).1 hfoundLayer, hfoundId, hcompatible.1, ?_⟩
    have heq : found.info.version = other.info.version := String.le_antisymm
      (hmax found ((hsame found hcompatible.1).1 hfoundLayer) hfoundId hcompatible.1) hnot
    rw [heq]
    exact hmax
  obtain ⟨ref'', href''⟩ := hrefs found hfoundLatest
  refine ⟨ref'', ?_⟩
  rw [latestRef_eq]
  exact clearReferenceLocal_ok_iff.2 ⟨harch, searchLocal_ok_iff.2 ⟨found, hfound, href''⟩⟩

/-- If `latestRef` is found, it is that of a latest layer. -/
theorem latestRef_ok {ref' : Reference} (h : latestRef s' ref = .ok ref') :
    s'.checkLocalArch ref.latest = .ok () ∧ ∃ other, s.IsLatest ref.id other ∧
      referenceOf other = .ok ref' ∧ ∃ before later,
        s'.queryLayerItem { id := some ref.id } = before ++ other :: later ∧
          ∀ b ∈ before, b.isDeleted = true := by
  rw [latestRef_eq] at h
  obtain ⟨harch, hsearch⟩ := clearReferenceLocal_ok_iff.1 h
  obtain ⟨found, hfound, href⟩ := searchLocal_ok_iff.1 hsearch
  obtain ⟨before, later, hquery, hbefore⟩ := findCompatible_none_ok hfound
  have hsorted : Descending (s'.queryLayerItem { id := some ref.latest.id }) :=
    s'.descending_query _
  obtain ⟨hmem, hcompatible, -, -⟩ := findCompatible_ok hfound hsorted
  obtain ⟨hlayer, hid⟩ := mem_query_id.1 hmem
  refine ⟨harch, found, ⟨(hsame found hcompatible.1).1 hlayer, hid, hcompatible.1, ?_⟩, href,
    before, later, hquery, hbefore⟩
  intro b hb hbid hbunmarked
  have hb' : b ∈ s'.queryLayerItem { id := some ref.latest.id } :=
    mem_query_id.2 ⟨(hsame b hbunmarked).2 hb, hbid⟩
  rw [Descending, hquery] at hsorted
  rw [hquery] at hb'
  obtain ⟨-, hafter, -⟩ := List.pairwise_append.1 hsorted
  rcases List.mem_append.1 hb' with hb' | hb'
  · exact absurd (hbunmarked.symm.trans (hbefore b hb')) (by decide)
  · rcases List.mem_cons.1 hb' with rfl | hb'
    · exact String.lt_irrefl _
    · exact (List.pairwise_cons.1 hafter).1 b hb'

end Latest

/-- Greatest version text first, and one layer before its equals. -/
def Prefers (item a b : RepositoryCacheLayersItem) : Prop :=
  b.info.version < a.info.version ∨ (a.info.version = b.info.version ∧ (a = item ∨ b ≠ item))

instance (item : RepositoryCacheLayersItem) : DecidableRel (Prefers item) :=
  fun a b => inferInstanceAs (Decidable (b.info.version < a.info.version ∨
    (a.info.version = b.info.version ∧ (a = item ∨ b ≠ item))))

theorem prefers_sorted (item : RepositoryCacheLayersItem) (l : List RepositoryCacheLayersItem) :
    (l.insertionSort (Prefers item)).Pairwise (Prefers item) := by
  have htotal : Std.Total (Prefers item) := by
    refine ⟨fun a b => ?_⟩
    by_cases hlt : a.info.version < b.info.version
    · exact .inr (.inl hlt)
    by_cases hgt : b.info.version < a.info.version
    · exact .inl (.inl hgt)
    have heq : a.info.version = b.info.version := String.le_antisymm hgt hlt
    by_cases ha : a = item
    · exact .inl (.inr ⟨heq, .inl ha⟩)
    · exact .inr (.inr ⟨heq.symm, .inr ha⟩)
  have htrans : IsTrans RepositoryCacheLayersItem (Prefers item) := by
    refine ⟨fun a b c hab hbc => ?_⟩
    rcases hab with hab | ⟨hab, hab'⟩
    · rcases hbc with hbc | ⟨hbc, -⟩
      · exact .inl (String.lt_trans hbc hab)
      · exact .inl (hbc ▸ hab)
    · rcases hbc with hbc | ⟨hbc, hbc'⟩
      · exact .inl (hab ▸ hbc)
      · refine .inr ⟨hab.trans hbc, ?_⟩
        rcases hab' with ha | hb
        · exact .inl ha
        · exact hbc'.elim (fun h => absurd h hb) .inr
  exact List.pairwise_insertionSort _ l

/-- An order of equal versions that `std::sort` may choose. -/
def preferring (item : RepositoryCacheLayersItem) : StdSort where
  byVersion := List.insertionSort (Prefers item)
  byVersion_perm := List.perm_insertionSort _
  byVersion_sorted := by
    intro l
    refine (prefers_sorted item l).imp fun hprefers hlt => ?_
    rcases hprefers with hgt | ⟨heq, -⟩
    · exact String.lt_irrefl _ (String.lt_trans hlt hgt)
    · rw [heq] at hlt
      exact String.lt_irrefl _ hlt
  byModule := StdSort.stable.byModule
  byModule_perm := StdSort.stable.byModule_perm
  byModule_sorted := StdSort.stable.byModule_sorted

/-- With this order the preferred layer is the first of its version. -/
theorem eq_of_preferring {item other : RepositoryCacheLayersItem}
    {l before later : List RepositoryCacheLayersItem}
    (h : (preferring item).byVersion l = before ++ other :: later) (hmem : item ∈ other :: later)
    (hversion : other.info.version = item.info.version) : other = item := by
  have hsorted : (before ++ other :: later).Pairwise (Prefers item) := by
    rw [← h]
    exact prefers_sorted item l
  rcases List.mem_cons.1 hmem with heq | hmem
  · exact heq.symm
  · obtain ⟨-, hafter, -⟩ := List.pairwise_append.1 hsorted
    rcases (List.pairwise_cons.1 hafter).1 item hmem with hlt | ⟨-, heq | hne⟩
    · rw [hversion] at hlt
      exact absurd hlt (String.lt_irrefl _)
    · exact heq
    · exact absurd rfl hne

/-! ## Section 7: The exact condition -/

theorem requests_of_parse {groups : List (String × List RepositoryCacheLayersItem)}
    (h : ∀ g ∈ groups, ∃ ref, Reference.parse g.1 = .ok ref) :
    (requests groups).map Prod.snd = groups.flatMap Prod.snd := by
  induction groups with
  | nil => rfl
  | cons g groups ih =>
    obtain ⟨text, items⟩ := g
    obtain ⟨ref, href⟩ := h (text, items) (by simp)
    have hrest := ih fun g hg => h g (by simp [hg])
    unfold requests
    simp only [href, List.map_append, List.flatMap_cons, hrest, List.map_map]
    congr 1
    exact List.map_id items

/-- If there are as many requests as items, every text could be read. -/
theorem parse_of_length {groups : List (String × List RepositoryCacheLayersItem)}
    (hgrouped : Grouped groups)
    (h : (requests groups).length = (groups.flatMap Prod.snd).length) :
    ∀ g ∈ groups, ∃ ref, Reference.parse g.1 = .ok ref := by
  induction groups with
  | nil => simp
  | cons g groups ih =>
    obtain ⟨text, items⟩ := g
    have hne : items ≠ [] := (hgrouped (text, items) (by simp)).1
    unfold requests at h
    cases hparse : Reference.parse text with
    | error e =>
      -- the items of this group are not requested
      have hpos := List.length_pos_iff.2 hne
      rw [hparse] at h
      simp only [List.length_nil, List.flatMap_cons, List.length_append] at h
      omega
    | ok ref =>
      rw [hparse] at h
      simp only [List.length_append, List.length_map, List.flatMap_cons] at h
      have hrest := ih (fun g hg => hgrouped g (by simp [hg])) (by omega)
      intro g hg
      rcases List.mem_cons.1 hg with rfl | hg
      · exact ⟨ref, hparse⟩
      · exact hrest g hg

theorem mem_requests {groups : List (String × List RepositoryCacheLayersItem)} {r : Request}
    (h : r ∈ requests groups) : ∃ g ∈ groups, r.2 ∈ g.2 ∧ Reference.parse g.1 = .ok r.1 := by
  induction groups with
  | nil => cases h
  | cons g groups ih =>
    obtain ⟨text, items⟩ := g
    unfold requests at h
    split at h
    · cases h
    · next ref hparse =>
      rcases List.mem_append.1 h with h | h
      · obtain ⟨item, hitem, rfl⟩ := List.mem_map.1 h
        exact ⟨(text, items), by simp, hitem, hparse⟩
      · obtain ⟨g, hg, hitem⟩ := ih h
        exact ⟨g, by simp [hg], hitem⟩

theorem mem_uninstallStages {groups : List (String × List RepositoryCacheLayersItem)}
    (h : ∀ g ∈ groups, ∃ ref, Reference.parse g.1 = .ok ref)
    {g : String × List RepositoryCacheLayersItem} (hg : g ∈ groups) {ref : Reference}
    (href : Reference.parse g.1 = .ok ref) (s : Repo) :
    ∃ s', (ref, s') ∈ uninstallStages groups s := by
  induction groups generalizing s with
  | nil => cases hg
  | cons g' groups ih =>
    obtain ⟨text, items⟩ := g'
    obtain ⟨ref', href'⟩ := h (text, items) (by simp)
    unfold uninstallStages
    rw [href']
    rcases List.mem_cons.1 hg with rfl | hg
    · rw [href] at href'
      cases href'
      exact ⟨_, List.mem_cons_self⟩
    · obtain ⟨s', hs'⟩ := ih (fun g hg => h g (by simp [hg])) hg (uninstallGroup ref' items s)
      exact ⟨s', List.mem_cons_of_mem _ hs'⟩

theorem uninstallOrder_spec {s : Repo}
    (h : ∀ item ∈ s.layers, item.isDeleted = true →
      ∃ ref, Reference.fromPackageInfo item.info = .ok ref) (running : List String) :
    Grouped (s.uninstallOrder running) ∧
      ((s.uninstallOrder running).flatMap Prod.snd).Perm
        (s.layers.filter (isReleased running)) := by
  obtain ⟨hgrouped, hperm⟩ := removableGroups_spec h running
  have horder := s.outside.map.groups_perm (s.removableGroups (.ok running))
  exact ⟨fun g hg => hgrouped g (horder.subset hg), (horder.flatMap_right _).trans hperm⟩

/-- The reference that is read back has the layer. -/
theorem isLayerOf_of_fromPackageInfo {item : RepositoryCacheLayersItem} {ref : Reference}
    (h : Reference.fromPackageInfo item.info = .ok ref)
    (hversion : ref.version.toString = item.info.version) : item.isLayerOf ref = true := by
  obtain ⟨-, -, hchannel, hid⟩ := Reference.fromPackageInfo_ok h
  exact isLayerOf_iff.2 ⟨hid.symm, hchannel.symm, hversion.symm⟩

section Exact

variable {running : List String} {s : Repo} (hdistinct : Distinct s.layers)
  (hremoves : RemovesGroups (s.uninstallOrder running) s)

/-- Nothing is removed and nothing is looked for. -/
theorem uninstallsExactly_of_none (h : ∀ item ∈ s.layers, isReleased running item = false) :
    UninstallsExactly running s := by
  have horder : s.uninstallOrder running = [] := by
    -- a marked item without a reference leaves no groups at all
    by_cases href : ∀ item ∈ s.layers, item.isDeleted = true →
        ∃ ref, Reference.fromPackageInfo item.info = .ok ref
    · obtain ⟨hgrouped, hperm⟩ := uninstallOrder_spec href running
      have hnone : s.layers.filter (isReleased running) = [] :=
        List.filter_eq_nil_iff.2 fun item hitem => by simp [h item hitem]
      rw [hnone] at hperm
      have hnil := List.flatMap_eq_nil_iff.1 hperm.eq_nil
      refine List.eq_nil_iff_forall_not_mem.2 fun g hg => ?_
      exact (hgrouped g hg).1 (hnil g hg)
    · push Not at href
      obtain ⟨item, hitem, hdeleted, hbroken⟩ := href
      unfold uninstallOrder
      rw [removableGroups_of_broken hitem hdeleted hbroken]
      exact (s.outside.map.groups_perm []).eq_nil
  refine ⟨?_, ?_⟩
  · rw [horder]
    simp [uninstallStages]
  · have hall : s.deferredUninstall (.ok running) = s := by
      rw [deferredUninstall_eq]
      show uninstallGroups (s.uninstallOrder running) s = s
      rw [horder]
      rfl
    rw [hall]
    refine (List.filter_eq_self.2 fun item hitem => ?_).symm
    rw [h item hitem]
    rfl

/-- Layers that are not marked stay, so between the removals they are the
    same. -/
theorem sameUnmarked_of_filter {s' : Repo} (hsub : s'.layers.Sublist s.layers)
    (hstay : s'.layers.filter (fun item => !isReleased running item) =
      s.layers.filter fun item => !isReleased running item) : s.SameUnmarked s' := by
  intro item hunmarked
  refine ⟨fun hitem => hsub.subset hitem, fun hitem => ?_⟩
  have hkept : item ∈ s.layers.filter fun item => !isReleased running item := by
    refine List.mem_filter.2 ⟨hitem, ?_⟩
    simp [isReleased, hunmarked]
  rw [← hstay] at hkept
  exact (List.mem_filter.1 hkept).1

include hdistinct hremoves

theorem removes_deferredUninstall : Removes Finds (requests (s.uninstallOrder running)) s.layers
    (s.deferredUninstall (.ok running)).layers := by
  rw [deferredUninstall_eq]
  exact removes_uninstallGroups hdistinct hremoves

/-- **The condition is enough.** -/
theorem uninstallsExactly_of_canUninstall (h : CanUninstall running s) :
    UninstallsExactly running s := by
  obtain ⟨hgrouped, hperm⟩ := uninstallOrder_spec h.referenced running
  have hreleased : ∀ g ∈ s.uninstallOrder running, ∀ item ∈ g.2,
      item ∈ s.layers ∧ isReleased running item = true := by
    intro g hg item hitem
    exact List.mem_filter.1 (hperm.subset (List.mem_flatMap.2 ⟨g, hg, hitem⟩))
  -- the reference of a group is that of its layers
  have hparse : ∀ g ∈ s.uninstallOrder running, ∀ item ∈ g.2, ∃ ref,
      Reference.fromPackageInfo item.info = .ok ref ∧ Reference.parse g.1 = .ok ref ∧
        ref.version.toString = item.info.version := by
    intro g hg item hitem
    obtain ⟨ref, href, htext⟩ := (hgrouped g hg).2 item hitem
    obtain ⟨hlayer, hgoes⟩ := hreleased g hg item hitem
    obtain ⟨hback, hversion⟩ := h.readBack item hlayer hgoes ref href
    exact ⟨ref, href, by rw [← htext, hback], hversion⟩
  have hall : ∀ g ∈ s.uninstallOrder running, ∃ ref, Reference.parse g.1 = .ok ref := by
    intro g hg
    obtain ⟨item, hitem⟩ := List.exists_mem_of_ne_nil _ (hgrouped g hg).1
    obtain ⟨ref, -, hback, -⟩ := hparse g hg item hitem
    exact ⟨ref, hback⟩
  have hrequest : ∀ r ∈ requests (s.uninstallOrder running), r.2 ∈ s.layers ∧
      isReleased running r.2 = true ∧ r.2.isLayerOf r.1 = true := by
    intro r hr
    obtain ⟨g, hg, hitem, hback⟩ := mem_requests hr
    obtain ⟨ref, href, hback', hversion⟩ := hparse g hg r.2 hitem
    rw [hback] at hback'
    cases hback'
    obtain ⟨hlayer, hgoes⟩ := hreleased g hg r.2 hitem
    exact ⟨hlayer, hgoes, isLayerOf_of_fromPackageInfo href hversion⟩
  have hperm' : ((requests (s.uninstallOrder running)).map Prod.snd).Perm
      (s.layers.filter (isReleased running)) := by
    rw [requests_of_parse hall]
    exact hperm
  have hof := fun r hr => (hrequest r hr).2.2
  have hruntime : ∀ r ∈ requests (s.uninstallOrder running),
      r.2.info.packageInfoV2Module = "runtime" → ∀ other ∈ s.layers, other.AnswersFor r.2 →
        isReleased running other = true :=
    fun r hr => h.runtime r.2 (hrequest r hr).1 (hrequest r hr).2.1
  refine ⟨?_, eq_filter_of_removes hdistinct.nodup hperm' hof hruntime
    (removes_deferredUninstall hdistinct hremoves)⟩
  intro p hp
  obtain ⟨houtside, ⟨g, hg, hback⟩, before, later, hsplit, hbefore, -⟩ :=
    uninstallStages_spec hdistinct hremoves hp
  have hstay := stay_of_removes hdistinct.nodup hperm' hof hruntime hsplit hbefore
  obtain ⟨item, hitem⟩ := List.exists_mem_of_ne_nil _ (hgrouped g hg).1
  obtain ⟨ref, href, hback', -⟩ := hparse g hg item hitem
  rw [hback] at hback'
  cases hback'
  obtain ⟨hlayer, hgoes⟩ := hreleased g hg item hitem
  obtain ⟨harch, hthere, hrefs⟩ := h.latest item hlayer hgoes p.1 href
  refine exists_latestRef (sameUnmarked_of_filter hbefore.sublist hstay) ?_ hthere hrefs
  unfold checkLocalArch at harch ⊢
  rwa [houtside]

variable (hexact : UninstallsExactly running s) {item : RepositoryCacheLayersItem}
  (hitem : item ∈ s.layers) (hgoes : isReleased running item = true)

include hexact hitem hgoes

/-- Every marked layer has a reference, or nothing is removed. -/
theorem referenced_of_exact : ∀ other ∈ s.layers, other.isDeleted = true →
    ∃ ref, Reference.fromPackageInfo other.info = .ok ref := by
  by_contra hbroken
  push Not at hbroken
  obtain ⟨other, hother, hdeleted, hnone⟩ := hbroken
  have horder : s.uninstallOrder running = [] := by
    unfold uninstallOrder
    rw [removableGroups_of_broken hother hdeleted hnone]
    exact (s.outside.map.groups_perm []).eq_nil
  have hremoved := removes_deferredUninstall hdistinct hremoves
  rw [horder, hexact.layers] at hremoved
  have hlength := hremoved.length fun r l a hfinds => hfinds.mem.1
  have hall := List.length_eq_length_filter_add (l := s.layers) (isReleased running)
  have hpos := List.length_pos_of_mem (List.mem_filter.2 ⟨hitem, hgoes⟩)
  simp only [requests, List.length_nil] at hlength
  omega

/-- Every text could be read, since as many layers are gone as there are
    items. -/
theorem parse_of_exact : ∀ g ∈ s.uninstallOrder running, ∃ ref, Reference.parse g.1 = .ok ref := by
  obtain ⟨hgrouped, hperm⟩ := uninstallOrder_spec
    (referenced_of_exact hdistinct hremoves hexact hitem hgoes) running
  refine parse_of_length hgrouped ?_
  have hremoved := removes_deferredUninstall hdistinct hremoves
  rw [hexact.layers] at hremoved
  have hlength := hremoved.length fun r l a hfinds => hfinds.mem.1
  have hall := List.length_eq_length_filter_add (l := s.layers) (isReleased running)
  rw [hperm.length_eq]
  omega

/-- A layer that is gone was found under its own reference. -/
theorem readBack_of_exact {ref : Reference}
    (href : Reference.fromPackageInfo item.info = .ok ref) :
    Reference.parse ref.toString = .ok ref ∧ ref.version.toString = item.info.version := by
  have hgone : item ∉ (s.deferredUninstall (.ok running)).layers := by
    rw [hexact.layers]
    intro hin
    simpa [hgoes] using (List.mem_filter.1 hin).2
  obtain ⟨r, hr, l, -, hfinds, -⟩ :=
    (removes_deferredUninstall hdistinct hremoves).taken hitem hgone
  obtain ⟨g, -, -, hparse⟩ := mem_requests hr
  obtain ⟨hcolon, hslash⟩ := Reference.parse_spec hparse
  obtain ⟨hid, hchannel, hversion⟩ := isLayerOf_iff.1 hfinds.mem.2.1
  obtain ⟨hversion', harch, hchannel', hid'⟩ := Reference.fromPackageInfo_ok href
  have htext : ref.version.toString = item.info.version := by
    refine (Version.toString_eq_iff hversion').2 ?_
    rw [hversion]
    exact Version.getLast_toString _
  refine ⟨Reference.parse_toString ?_ ?_ ?_ ?_, htext⟩
  · rwa [hchannel', hchannel]
  · rwa [hid', hid]
  · rw [htext, hversion']
  · rw [Architecture.toString_of_parse harch, harch]

/-- A released layer has a request under its own reference, and its group has
    a stage. -/
theorem request_of_exact {ref : Reference}
    (href : Reference.fromPackageInfo item.info = .ok ref) :
    (ref, item) ∈ requests (s.uninstallOrder running) ∧
      ∃ s', (ref, s') ∈ uninstallStages (s.uninstallOrder running) s := by
  obtain ⟨hgrouped, hperm⟩ := uninstallOrder_spec
    (referenced_of_exact hdistinct hremoves hexact hitem hgoes) running
  have hparse := parse_of_exact hdistinct hremoves hexact hitem hgoes
  have hmem : item ∈ (requests (s.uninstallOrder running)).map Prod.snd := by
    rw [requests_of_parse hparse]
    exact hperm.mem_iff.2 (List.mem_filter.2 ⟨hitem, hgoes⟩)
  obtain ⟨⟨ref', item'⟩, hr, rfl⟩ := List.mem_map.1 hmem
  obtain ⟨g, hg, hin, hback⟩ := mem_requests hr
  obtain ⟨ref'', href'', htext⟩ := (hgrouped g hg).2 _ hin
  rw [href] at href''
  cases href''
  have hback' := (readBack_of_exact hdistinct hremoves hexact hitem hgoes href).1
  rw [htext, hback] at hback'
  cases hback'
  exact ⟨hr, mem_uninstallStages hparse hg hback s⟩

/-- `latestRef` was found for the reference. -/
theorem latest_of_exact {ref : Reference}
    (href : Reference.fromPackageInfo item.info = .ok ref) :
    s.checkLocalArch ref.latest = .ok () ∧ ∃ other, s.IsLatest ref.id other ∧
      (∃ ref', referenceOf other = .ok ref') ∧ ∃ l before later,
        s.outside.sort.byVersion l = before ++ other :: later ∧
          ∀ b, s.IsLatest ref.id b → b ∈ other :: later := by
  obtain ⟨-, s', hstage⟩ := request_of_exact hdistinct hremoves hexact hitem hgoes href
  obtain ⟨ref', hlatest⟩ := hexact.latest _ hstage
  obtain ⟨houtside, -, before, later, -, hbefore, hlater⟩ :=
    uninstallStages_spec hdistinct hremoves hstage
  -- what is not marked is still there at the end, so it was there at the stage
  have hkept : ∀ b ∈ s.layers, b.isDeleted = false → b ∈ s'.layers := by
    intro b hb hunmarked
    refine hlater.sublist.subset ?_
    have hlast := hexact.layers
    rw [deferredUninstall_eq] at hlast
    show b ∈ (uninstallGroups (s.outside.map.groups (s.removableGroups (.ok running))) s).layers
    rw [hlast]
    exact List.mem_filter.2 ⟨hb, by simp [isReleased, hunmarked]⟩
  have hsame : s.SameUnmarked s' := fun b hunmarked =>
    ⟨fun hb => hbefore.sublist.subset hb, fun hb => hkept b hb hunmarked⟩
  obtain ⟨harch, other, hother, hother', pre, post, hquery, hpre⟩ := latestRef_ok hsame hlatest
  have harch' : s.checkLocalArch ref.latest = .ok () := by
    unfold checkLocalArch at harch ⊢
    rwa [← houtside]
  unfold queryLayerItem queryItems at hquery
  simp only at houtside
  rw [houtside] at hquery
  refine ⟨harch', other, hother, ⟨ref', hother'⟩, _, pre, post, hquery, ?_⟩
  intro b hb
  obtain ⟨hb, hbid, hunmarked, -⟩ := hb
  have hin : b ∈ s'.queryLayerItem { id := some ref.id } :=
    mem_query_id.2 ⟨hkept b hb hunmarked, hbid⟩
  unfold queryLayerItem queryItems at hin
  rw [houtside, hquery] at hin
  -- what comes before the answer was passed over as marked
  rcases List.mem_append.1 hin with hin | hin
  · exact absurd (hunmarked.symm.trans (hpre b hin)) (by decide)
  · exact hin

end Exact

/-- Latest layers of one package have the same version text. -/
theorem IsLatest.version_eq {s : Repo} {id : String} {a b : RepositoryCacheLayersItem}
    (ha : s.IsLatest id a) (hb : s.IsLatest id b) : a.info.version = b.info.version :=
  String.le_antisymm (hb.2.2.2 a ha.1 ha.2.1 ha.2.2.1) (ha.2.2.2 b hb.1 hb.2.1 hb.2.2.1)

/-- **`deferredUninstall`.** If all removals succeed, it removes exactly the
    released layers and uses no missing value, however `std::sort` orders
    equal elements, under exactly this condition. -/
theorem uninstallsExactly_iff {running : List String} {s : Repo} (hdistinct : Distinct s.layers)
    (hremoves : ∀ sort,
      RemovesGroups ((s.withSort sort).uninstallOrder running) (s.withSort sort)) :
    (∀ sort, UninstallsExactly running (s.withSort sort)) ↔
      (∀ item ∈ s.layers, isReleased running item = false) ∨ CanUninstall running s := by
  constructor
  · intro hexact
    by_cases hnone : ∀ item ∈ s.layers, isReleased running item = false
    · exact .inl hnone
    right
    push Not at hnone
    have hs : s.withSort s.outside.sort = s := rfl
    have hremoves' := hremoves s.outside.sort
    have hexact' := hexact s.outside.sort
    rw [hs] at hremoves' hexact'
    obtain ⟨first, hfirst, hgoes⟩ := hnone
    have hgoes : isReleased running first = true := by simpa using hgoes
    refine ⟨referenced_of_exact hdistinct hremoves' hexact' hfirst hgoes, ?_, ?_, ?_⟩
    · intro item hitem hgoes ref href
      exact readBack_of_exact hdistinct hremoves' hexact' hitem hgoes href
    · intro item hitem hgoes hold other hother hanswers
      obtain ⟨-, ref, href, -⟩ := isReleased_iff.1 hgoes
      have hversion := (readBack_of_exact hdistinct hremoves' hexact' hitem hgoes href).2
      have hremoved := removes_deferredUninstall hdistinct hremoves'
      rw [hexact'.layers] at hremoved
      exact goes_of_answersFor hdistinct.nodup hremoved
        (request_of_exact hdistinct hremoves' hexact' hitem hgoes href).1
        (isLayerOf_of_fromPackageInfo href hversion) hitem hgoes hold hother hanswers
    · intro item hitem hgoes ref href
      obtain ⟨harch, other, hother, -⟩ :=
        latest_of_exact hdistinct hremoves' hexact' hitem hgoes href
      refine ⟨harch, ⟨other, hother⟩, ?_⟩
      -- every latest layer may come first
      intro b hb
      obtain ⟨-, other', hother', hread, l, before, later, hsort, hin⟩ :=
        latest_of_exact (s := s.withSort (preferring b)) hdistinct (hremoves _) (hexact _) hitem
          hgoes href
      have heq : other' = b := eq_of_preferring hsort (hin b hb) (IsLatest.version_eq hother' hb)
      rwa [heq] at hread
  · intro h sort
    rcases h with hnone | hcan
    · exact uninstallsExactly_of_none (s := s.withSort sort) hnone
    · exact uninstallsExactly_of_canUninstall (s := s.withSort sort) hdistinct (hremoves sort)
        ⟨hcan.referenced, hcan.readBack, hcan.runtime, hcan.latest⟩

/-! ### One marked layer -/

section Single

variable {s : Repo} {item found : RepositoryCacheLayersItem} {ref : Reference}

theorem uninstallOrder_single
    (h : s.layers.filter (RepoCacheQuery.accepts { deleted := some true }) = [item])
    (href : Reference.fromPackageInfo item.info = .ok ref) :
    s.uninstallOrder [] = [(ref.toString, [item])] := by
  have hquery : s.queryLayerItem { deleted := some true } = [item] := by
    unfold queryLayerItem queryItems
    rw [h, StdSort.byVersion_singleton]
  have hgroups : s.removableGroups (.ok []) = [(ref.toString, [item])] := by
    unfold removableGroups
    rw [hquery, deletedGroups, href]
    rfl
  unfold uninstallOrder
  rw [hgroups]
  exact List.perm_singleton.1 (s.outside.map.groups_perm _)

theorem removesGroups_single
    (h : s.layers.filter (RepoCacheQuery.accepts { deleted := some true }) = [item])
    (href : Reference.fromPackageInfo item.info = .ok ref)
    (hback : Reference.parse ref.toString = .ok ref) (hfinds : Finds (ref, item) s.layers found)
    (hspec : (s.resolveRefspec (ostreeRefSpecFromLayerItem found)).isSome = true)
    (hset : s.NoFaults .setRef) (hwrite : s.NoFaults .writeCache) :
    RemovesGroups (s.uninstallOrder []) s := by
  rw [uninstallOrder_single h href]
  intro ref' href'
  rw [hback] at href'
  cases href'
  refine ⟨⟨?_, trivial⟩, trivial⟩
  have hfound := getLayerItem_ok_iff.2 hfinds
  rcases remove_cases ref item.info.packageInfoV2Module item.info.uuid s with
    ⟨e, faults, -, -, hfault⟩ | ⟨layer, faults, json, dirs, -, -, -, -, hok⟩
  · exact absurd hset (hfault found hfound hspec)
  · exact hok hwrite

/-- What a single request finds is gone. -/
theorem layers_single (hdistinct : Distinct s.layers)
    (h : s.layers.filter (RepoCacheQuery.accepts { deleted := some true }) = [item])
    (href : Reference.fromPackageInfo item.info = .ok ref)
    (hback : Reference.parse ref.toString = .ok ref) (hfinds : Finds (ref, item) s.layers found)
    (hremoves : RemovesGroups (s.uninstallOrder []) s) :
    (s.deferredUninstall (.ok [])).layers = s.layers.erase found := by
  have hremoved := removes_deferredUninstall hdistinct hremoves
  have hrequests : requests (s.uninstallOrder []) = [(ref, item)] := by
    rw [uninstallOrder_single h href]
    simp [requests, hback]
  rw [hrequests] at hremoved
  cases hremoved with
  | cons hfound rest =>
    rw [hfinds.unique hfound]
    exact rest.eq_of_nil

/-- If all layers are marked, no latest version is found. -/
theorem latestRef_of_allMarked (hdistinct : Distinct s.layers) {running : List String}
    (hremoves : RemovesGroups (s.uninstallOrder running) s)
    (hmarked : ∀ layer ∈ s.layers, layer.isDeleted = true) {p : Reference × Repo}
    (hp : p ∈ uninstallStages (s.uninstallOrder running) s) :
    ∀ ref', latestRef p.2 p.1 ≠ .ok ref' := by
  intro ref' hlatest
  obtain ⟨-, -, before, later, -, hbefore, -⟩ := uninstallStages_spec hdistinct hremoves hp
  have hnone : ∀ layer ∈ s.layers, layer.isDeleted ≠ false := by
    intro layer hlayer hunmarked
    rw [hmarked layer hlayer] at hunmarked
    cases hunmarked
  have hsame : s.SameUnmarked p.2 := fun layer hunmarked =>
    ⟨fun hlayer => hbefore.sublist.subset hlayer,
      fun hlayer => absurd hunmarked (hnone layer hlayer)⟩
  obtain ⟨-, other, hother, -⟩ := latestRef_ok hsame hlatest
  exact hnone other hother.1 hother.2.2.1

end Single

/-- A layer of a viewer. -/
def viewerLayer (version module : String) (deleted : Option Bool) : RepositoryCacheLayersItem where
  commit := version ++ module
  deleted := deleted
  info := .onMain "org.viewer" version module
  repo := "stable"

def oldViewer : RepositoryCacheLayersItem := viewerLayer "1.0.0.0" "binary" (some true)

def oldViewerRef : Reference := Reference.onMain "org.viewer" 0 (by decide)

theorem reference_oldViewer : Reference.fromPackageInfo oldViewer.info = .ok oldViewerRef := by
  decide

/-- The old version is marked, the new one is not. -/
def markedViewer : Repo :=
  .ofLayers (.ofCommits []) [oldViewer, viewerLayer "1.0.1.0" "binary" none] [] []

theorem canUninstall_markedViewer : CanUninstall [] markedViewer := by
  have hone : ∀ item ∈ markedViewer.layers, item.isDeleted = true → item = oldViewer := by decide
  have hreleased : ∀ item ∈ markedViewer.layers, isReleased [] item = true → item = oldViewer :=
    fun item hitem hgoes => hone item hitem (isReleased_iff.1 hgoes).1
  have hnew : ∀ item ∈ markedViewer.layers, item.isDeleted = false →
      item = viewerLayer "1.0.1.0" "binary" none := by decide
  refine ⟨fun item hitem hdeleted => ?_, fun item hitem hgoes ref href => ?_,
    fun item hitem hgoes hold => ?_, fun item hitem hgoes ref href => ?_⟩
  · rw [hone item hitem hdeleted]
    exact ⟨_, reference_oldViewer⟩
  · rw [hreleased item hitem hgoes] at href ⊢
    rw [reference_oldViewer] at href
    cases href
    decide
  · rw [hreleased item hitem hgoes] at hold
    exact absurd hold (by decide)
  · rw [hreleased item hitem hgoes, reference_oldViewer] at href
    cases href
    refine ⟨by decide, ⟨viewerLayer "1.0.1.0" "binary" none, by unfold IsLatest; decide⟩, ?_⟩
    intro other hother
    rw [hnew other hother.1 hother.2.2.1]
    exact ⟨Reference.onMain "org.viewer" 1 (by decide), by decide⟩

theorem uninstallsExactly_markedViewer : UninstallsExactly [] markedViewer := by
  have hmarked : markedViewer.layers.filter (RepoCacheQuery.accepts { deleted := some true }) =
      [oldViewer] := by decide
  have hanswers : answers oldViewerRef oldViewer.moduleName oldViewer.info.uuid
      markedViewer.layers = [oldViewer] := by decide
  have hspec : (markedViewer.resolveRefspec (ostreeRefSpecFromLayerItem oldViewer)).isSome =
      true := by decide
  have hremoves : ∀ sort, RemovesGroups ((markedViewer.withSort sort).uninstallOrder [])
      (markedViewer.withSort sort) := fun sort =>
    removesGroups_single (s := markedViewer.withSort sort) hmarked reference_oldViewer
      (by decide) (.inl hanswers) hspec (fun b hb => by cases hb) fun b hb => by cases hb
  exact (uninstallsExactly_iff (by unfold Distinct; decide) hremoves).2
    (.inr canUninstall_markedViewer) .stable

/-- There is no other version: the missing reference is used. -/
def lastViewer : Repo := .ofLayers (.ofCommits []) [oldViewer] [] []

/-- A marked `runtime` beside a `binary` that is not marked: this one is
    removed. -/
def mixedViewer : Repo :=
  .ofLayers (.ofCommits []) [viewerLayer "1.0.0.0" "runtime" (some true),
    viewerLayer "1.0.0.0" "binary" none] [] []

theorem not_uninstallsExactly :
    (¬ ∀ (running : List String) (s : Repo), Distinct s.layers →
      RemovesGroups (s.uninstallOrder running) s →
        ∀ p ∈ uninstallStages (s.uninstallOrder running) s, ∃ ref, latestRef p.2 p.1 = .ok ref) ∧
    ¬ ∀ (running : List String) (s : Repo), Distinct s.layers →
      RemovesGroups (s.uninstallOrder running) s →
        (s.deferredUninstall (.ok running)).layers =
          s.layers.filter fun item => !isReleased running item := by
  constructor
  · -- all items are marked: `latestRef` finds nothing
    intro h
    have hmarked : lastViewer.layers.filter (RepoCacheQuery.accepts { deleted := some true }) =
        [oldViewer] := by decide
    have hfinds : Finds (oldViewerRef, oldViewer) lastViewer.layers oldViewer := .inl (by decide)
    have hremoves : RemovesGroups (lastViewer.uninstallOrder []) lastViewer :=
      removesGroups_single hmarked reference_oldViewer (by decide) hfinds (by decide)
        (fun b hb => by cases hb) fun b hb => by cases hb
    have hdistinct : Distinct lastViewer.layers := by unfold Distinct; decide
    have hstage : (oldViewerRef, uninstallGroup oldViewerRef [oldViewer] lastViewer) ∈
        uninstallStages (lastViewer.uninstallOrder []) lastViewer := by
      rw [uninstallOrder_single hmarked reference_oldViewer]
      exact List.mem_cons_self
    obtain ⟨ref, href⟩ := h [] lastViewer hdistinct hremoves _ hstage
    exact latestRef_of_allMarked hdistinct hremoves (by decide) hstage ref href
  · -- the runtime is marked, and the binary of the same version goes
    intro h
    have hmarked : mixedViewer.layers.filter (RepoCacheQuery.accepts { deleted := some true }) =
        [viewerLayer "1.0.0.0" "runtime" (some true)] := by decide
    have href : Reference.fromPackageInfo (viewerLayer "1.0.0.0" "runtime" (some true)).info =
        .ok oldViewerRef := by decide
    have hfinds : Finds (oldViewerRef, viewerLayer "1.0.0.0" "runtime" (some true))
        mixedViewer.layers (viewerLayer "1.0.0.0" "binary" none) := .inl (by decide)
    have hdistinct : Distinct mixedViewer.layers := by unfold Distinct; decide
    have hremoves : RemovesGroups (mixedViewer.uninstallOrder []) mixedViewer :=
      removesGroups_single hmarked href (by decide) hfinds (by decide)
        (fun b hb => by cases hb) fun b hb => by cases hb
    have hlayers := h [] mixedViewer hdistinct hremoves
    rw [layers_single hdistinct hmarked href (by decide) hfinds hremoves] at hlayers
    exact absurd hlayers (by decide)

end Repo

end Linglong
