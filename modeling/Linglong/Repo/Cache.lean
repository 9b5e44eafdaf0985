import Mathlib.Data.List.Sort
import Linglong.Package.Reference

/-! # The Layer Cache

    `RepoCache` (`repo_cache.h`, `repo_cache.cpp`) keeps one item for each
    layer of the repository, in the order in which the layers were added.
    The file `states.json` holds a copy.

    Two uses of the standard library leave something open, and the model
    keeps it open: `std::sort` may order equal elements in any way, and an
    `unordered_map` may be iterated in any order. So sorted lists come from
    a `StdSort` and entries of a map from a `MapOrder`, of which only the
    documented behaviour is known.
-/

namespace Linglong

/-! ## Section 1: Items and queries -/

/-- `api::types::v1::RepositoryCacheLayersItem`. -/
structure RepositoryCacheLayersItem where
  commit : String
  deleted : Option Bool
  info : PackageInfoV2
  repo : String
  deriving DecidableEq

/-- `api::types::v1::RepositoryCacheMergedItem`. -/
structure RepositoryCacheMergedItem where
  binaryCommit : String
  commits : List String
  id : String
  modules : List String
  name : String
  deriving DecidableEq

namespace RepositoryCacheLayersItem

/-- The test `item.deleted && item.deleted.value()`. -/
def isDeleted (item : RepositoryCacheLayersItem) : Bool := item.deleted.getD false

/-- `info.arch.front()`. -/
def arch (item : RepositoryCacheLayersItem) : String := item.info.arch.headD ""

/-- The comparison of `findMatchingItem`; it looks neither at the mark nor
    at the uuid. -/
def matchesItem (item val : RepositoryCacheLayersItem) : Bool :=
  item.commit == val.commit && item.repo == val.repo && item.info.channel == val.info.channel &&
    item.info.id == val.info.id && item.info.version == val.info.version &&
    item.arch == val.arch && item.info.packageInfoV2Module == val.info.packageInfoV2Module

@[simp] theorem matchesItem_self (item : RepositoryCacheLayersItem) :
    item.matchesItem item = true := by
  simp [matchesItem]

end RepositoryCacheLayersItem

/-- `repoCacheQuery`: absent fields are not compared. -/
structure RepoCacheQuery where
  id : Option String := none
  repo : Option String := none
  channel : Option String := none
  version : Option String := none
  module : Option String := none
  uuid : Option String := none
  deleted : Option Bool := none

/-- The `continue` tests of `queryLayerItem`: a queried uuid or mark must be
    present in the layer and equal. -/
def RepoCacheQuery.accepts (query : RepoCacheQuery) (layer : RepositoryCacheLayersItem) : Bool :=
  query.id.all (· == layer.info.id) && query.repo.all (· == layer.repo) &&
    query.channel.all (· == layer.info.channel) && query.version.all (· == layer.info.version) &&
    query.module.all (· == layer.info.packageInfoV2Module) &&
    query.deleted.all (fun d => layer.deleted == some d) &&
    query.uuid.all (fun u => layer.info.uuid == some u)

/-! ## Section 2: Sorting -/

/-- What is known of the two calls of `std::sort` on items: by version text,
    greatest first, and by module name. -/
structure StdSort where
  byVersion : List RepositoryCacheLayersItem → List RepositoryCacheLayersItem
  byVersion_perm : ∀ l, (byVersion l).Perm l
  byVersion_sorted : ∀ l, (byVersion l).Pairwise fun a b => ¬ a.info.version < b.info.version
  byModule : List RepositoryCacheLayersItem → List RepositoryCacheLayersItem
  byModule_perm : ∀ l, (byModule l).Perm l
  byModule_sorted : ∀ l, (byModule l).Pairwise fun a b =>
    ¬ b.info.packageInfoV2Module < a.info.packageInfoV2Module

namespace StdSort

/-- A sort that keeps the order of equal elements. -/
def stable : StdSort where
  byVersion := List.insertionSort fun a b => ¬ a.info.version < b.info.version
  byVersion_perm := List.perm_insertionSort _
  byVersion_sorted := by
    intro l
    have : Std.Total fun a b : RepositoryCacheLayersItem => ¬ a.info.version < b.info.version :=
      ⟨fun a b => String.le_total b.info.version a.info.version⟩
    have : IsTrans RepositoryCacheLayersItem fun a b => ¬ a.info.version < b.info.version :=
      ⟨fun a b c hab hbc => String.le_trans hbc hab⟩
    exact List.pairwise_insertionSort _ l
  byModule := List.insertionSort fun a b =>
    ¬ b.info.packageInfoV2Module < a.info.packageInfoV2Module
  byModule_perm := List.perm_insertionSort _
  byModule_sorted := by
    intro l
    have : Std.Total fun a b : RepositoryCacheLayersItem =>
        ¬ b.info.packageInfoV2Module < a.info.packageInfoV2Module :=
      ⟨fun a b => String.le_total a.info.packageInfoV2Module b.info.packageInfoV2Module⟩
    have : IsTrans RepositoryCacheLayersItem fun a b =>
        ¬ b.info.packageInfoV2Module < a.info.packageInfoV2Module :=
      ⟨fun a b c hab hbc => String.le_trans hab hbc⟩
    exact List.pairwise_insertionSort _ l

@[simp] theorem mem_byVersion (sort : StdSort) {l : List RepositoryCacheLayersItem}
    {item : RepositoryCacheLayersItem} : item ∈ sort.byVersion l ↔ item ∈ l :=
  (sort.byVersion_perm l).mem_iff

@[simp] theorem mem_byModule (sort : StdSort) {l : List RepositoryCacheLayersItem}
    {item : RepositoryCacheLayersItem} : item ∈ sort.byModule l ↔ item ∈ l :=
  (sort.byModule_perm l).mem_iff

theorem byVersion_singleton (sort : StdSort) (item : RepositoryCacheLayersItem) :
    sort.byVersion [item] = [item] :=
  List.perm_singleton.1 (sort.byVersion_perm [item])

theorem byVersion_nil (sort : StdSort) : sort.byVersion [] = [] :=
  List.perm_nil.1 (sort.byVersion_perm [])

end StdSort

/-- What is known of the iteration over the two `unordered_map`s: each entry
    comes once, in some order. -/
structure MapOrder where
  refs : List (Reference × Nat) → List (Reference × Nat)
  refs_perm : ∀ l, (refs l).Perm l
  groups : List (String × List RepositoryCacheLayersItem) →
    List (String × List RepositoryCacheLayersItem)
  groups_perm : ∀ l, (groups l).Perm l

/-- Iterate in the order of insertion. -/
def MapOrder.insertion : MapOrder :=
  ⟨id, fun _ => List.Perm.refl _, id, fun _ => List.Perm.refl _⟩

/-! ## Section 3: Changes of the item list -/

/-- Set the mark of the first item with the given property, as
    `findMatchingItem` and an assignment through its iterator do. -/
def setDeletedFirst (p : RepositoryCacheLayersItem → Bool) (deleted : Option Bool) :
    List RepositoryCacheLayersItem → List RepositoryCacheLayersItem
  | [] => []
  | item :: rest =>
      if p item then { item with deleted := deleted } :: rest
      else item :: setDeletedFirst p deleted rest

/-- `queryLayerItem` on a list of items. -/
def queryItems (sort : StdSort) (layers : List RepositoryCacheLayersItem)
    (query : RepoCacheQuery) : List RepositoryCacheLayersItem :=
  sort.byVersion (layers.filter query.accepts)

@[simp] theorem mem_queryItems {sort : StdSort} {layers : List RepositoryCacheLayersItem}
    {query : RepoCacheQuery} {item : RepositoryCacheLayersItem} :
    item ∈ queryItems sort layers query ↔ item ∈ layers ∧ query.accepts item = true := by
  simp [queryItems]

end Linglong
