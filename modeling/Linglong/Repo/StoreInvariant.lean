import Linglong.Framework.Machine
import Linglong.Repo.Import

/-! # Refs, Directories and Items Together

    The refs, the directories in `layers/` and the cache items describe the
    same layers: an item has a ref that leads to its commit and a directory
    with this commit, and no two items answer to the same name.

    Adding an item tests whether there is one with the same name, repository
    *and commit*; looking one up compares neither of the last two. `pull`
    does not look for an existing layer before it adds one. So if the remote
    has moved a ref, a second pull adds a second item, and the ref of the
    first one leads elsewhere.

    1. Successful calls as a machine, and what should hold.
    2. One lemma for each way to change the stores.
    3. Runs (`consistent_of_meets`).
-/

namespace Linglong

open Framework RepositoryCacheLayersItem

/-! ## Section 1: Runs of successful calls -/

/-- What the package manager asks of the repository. -/
inductive StoreEvent where
  | importLayerDir (dir : LayerDir) (overlays : List String) (subRef : Option String)
      (commit : String)
  | pull (reference : Reference) (module : String)
  | remove (ref : Reference) (module : String) (subRef : Option String)
  | markDeleted (ref : Reference) (deleted : Bool) (module : String)

/-- The repository after an operation that succeeds. -/
def RepoM.onSuccess (m : RepoM Unit) (s : Repo) : Option Repo :=
  match m s with
  | .ok _ s' => some s'
  | .error _ _ => none

theorem onSuccess_eq_some {m : RepoM Unit} {s s' : Repo} (h : RepoM.onSuccess m s = some s') :
    m s = .ok () s' := by
  unfold RepoM.onSuccess at h
  split at h
  · next hrun =>
    cases h
    exact hrun
  · cases h

namespace StoreEvent

/-- One successful call after the other; what the remote answers and which
    local steps fail is part of the state. -/
def machine : Machine Repo StoreEvent where
  next := fun s event =>
    match event with
    | importLayerDir dir overlays subRef commit =>
        RepoM.onSuccess (Repo.importLayerDir dir overlays subRef commit) s
    | pull reference module =>
        if Repo.Reports (s.pull reference module).2 then none
        else some (s.pull reference module).1
    | remove ref module subRef => RepoM.onSuccess (Repo.remove ref module subRef) s
    | markDeleted ref deleted module => RepoM.onSuccess (Repo.markDeleted ref deleted module) s

end StoreEvent

/-- What `queryLayerItem` compares, without and with the uuid. -/
def RepositoryCacheLayersItem.name (item : RepositoryCacheLayersItem) :
    String × String × String × String :=
  (item.info.id, item.info.channel, item.info.version, item.info.packageInfoV2Module)

namespace Repo

/-- Nothing has been installed. -/
def Empty (s : Repo) : Prop := s.layers = [] ∧ s.ostreeRefs = [] ∧ s.layerDirs = []

/-- Items have different names, no lookup is ambiguous, the ref of an item
    leads to its commit, and this commit is checked out. -/
structure Consistent (s : Repo) : Prop where
  unique : (s.layers.map fun item => (item.name, item.info.uuid)).Nodup
  unambiguous : ∀ ref module subRef, s.getLayerItem ref module subRef ≠
    .error "ambiguous ref has been detected, maybe underlying storage already broken."
  refs : ∀ item ∈ s.layers,
    s.resolveRefspec (ostreeRefSpecFromLayerItem item) = some item.commit
  dirs : ∀ item ∈ s.layers, s.layerDirs.lookup item.commit = some (some item.commit)

/-- What a pull is about to add: the ref it has fetched, the commit, and the
    item. -/
def pulledAs (s : Repo) (reference : Reference) (module : String) :
    Option (OstreeRef × Option String × RepositoryCacheLayersItem) :=
  (s.fetches reference module).bind fun fetched =>
    ((s.arrived fetched.1 fetched.2).pulledItem fetched.1).toOption.map
      fun item => (fetched.1, fetched.2, item)

end Repo

/-- **What keeps the stores consistent.** An import has a plain name. A pull
    finds the commit that it has fetched, this commit has the name under
    which it was fetched, and there is no layer with this name. -/
def StoreEvent.Fits (s : Repo) : StoreEvent → Prop
  | importLayerDir dir _ subRef _ => ∀ info ∈ dir.info.toOption, Repo.PlainName info subRef
  | pull reference module => ∀ pulled ∈ s.pulledAs reference module,
      pulled.2.1 = some pulled.2.2.commit ∧
        Repo.ostreeRefFromLayerItem pulled.2.2 = pulled.1 ∧
        ∀ item ∈ s.layers, item.name ≠ pulled.2.2.name
  | remove _ _ _ => True
  | markDeleted _ _ _ => True

instance (s : Repo) : ∀ event, Decidable (StoreEvent.Fits s event)
  | .importLayerDir dir _ subRef _ =>
      inferInstanceAs (Decidable (∀ info ∈ dir.info.toOption, Repo.PlainName info subRef))
  | .pull reference module =>
      inferInstanceAs (Decidable (∀ pulled ∈ s.pulledAs reference module,
        pulled.2.1 = some pulled.2.2.commit ∧
          Repo.ostreeRefFromLayerItem pulled.2.2 = pulled.1 ∧
          ∀ item ∈ s.layers, item.name ≠ pulled.2.2.name))
  | .remove _ _ _ => isTrue trivial
  | .markDeleted _ _ _ => isTrue trivial

namespace Repo

/-! ## Section 2: Changes of the stores -/

/-- The invariant: no two items have the same name, with any uuid, or the
    same commit. -/
structure StoreInv (s : Repo) : Prop where
  names : (s.layers.map RepositoryCacheLayersItem.name).Nodup
  commits : (s.layers.map RepositoryCacheLayersItem.commit).Nodup
  refs : ∀ item ∈ s.layers,
    s.resolveRefspec (ostreeRefSpecFromLayerItem item) = some item.commit
  dirs : ∀ item ∈ s.layers, s.layerDirs.lookup item.commit = some (some item.commit)

/-- Items with the same refspec have the same name. -/
theorem name_of_refSpec {item item' : RepositoryCacheLayersItem}
    (h : ostreeRefSpecFromLayerItem item = ostreeRefSpecFromLayerItem item') :
    item.name = item'.name := by
  simp only [ostreeRefSpecFromLayerItem, ostreeRefFromLayerItem, OstreeRefSpec.mk.injEq,
    OstreeRef.mk.injEq] at h
  obtain ⟨-, hchannel, hid, hversion, -, hmodule⟩ := h
  simp [RepositoryCacheLayersItem.name, hchannel, hid, hversion, hmodule]

/-- Adding a layer under a new name: its ref has been set, and it has been
    checked out. -/
theorem StoreInv.add {s s₁ s' : Repo} {item : RepositoryCacheLayersItem} (hinv : StoreInv s)
    (hlayers : s₁.layers = s.layers) (hdirs : s₁.layerDirs = s.layerDirs)
    (hrefs : s₁.ostreeRefs =
      (s.setRef (ostreeRefSpecFromLayerItem item) item.commit).ostreeRefs)
    (hnew : ∀ l ∈ s.layers, l.name ≠ item.name) (h : CheckedOut item s₁ s') : StoreInv s' := by
  have hset : s₁.resolveRefspec (ostreeRefSpecFromLayerItem item) = some item.commit := by
    rw [resolveRefspec, hrefs]
    exact List.lookup_cons_self
  have hfresh : s.layerDirs.lookup item.commit = none := by
    rw [← hdirs]
    exact h.fresh
  -- a commit in use has its directory, the new one has none yet
  have hother : ∀ l ∈ s.layers, l.commit ≠ item.commit := by
    intro l hl heq
    have hdir := hinv.dirs l hl
    rw [heq, hfresh] at hdir
    cases hdir
  have hall : s'.layers = s.layers ++ [item] := by rw [h.layers, hlayers]
  refine ⟨?_, ?_, ?_, ?_⟩
  · rw [hall, List.map_append]
    refine List.nodup_append.2 ⟨hinv.names, List.nodup_singleton _, ?_⟩
    intro name hname name' hname'
    obtain ⟨l, hl, rfl⟩ := List.mem_map.1 hname
    rw [List.mem_singleton.1 hname']
    exact hnew l hl
  · rw [hall, List.map_append]
    refine List.nodup_append.2 ⟨hinv.commits, List.nodup_singleton _, ?_⟩
    intro commit hcommit commit' hcommit'
    obtain ⟨l, hl, rfl⟩ := List.mem_map.1 hcommit
    rw [List.mem_singleton.1 hcommit']
    exact hother l hl
  · intro l hl
    rw [hall] at hl
    rw [resolveRefspec, h.ostreeRefs]
    rcases List.mem_append.1 hl with hl | hl
    · rw [← hinv.refs l hl, hrefs]
      refine (resolveRefspec_setRef s _ _ item.commit).trans (if_neg fun heq => ?_)
      exact hnew l hl (name_of_refSpec heq)
    · rw [List.mem_singleton.1 hl]
      exact hset
  · intro l hl
    rw [hall] at hl
    rcases List.mem_append.1 hl with hl | hl
    · rw [h.dirs _ (hother l hl), hdirs]
      exact hinv.dirs l hl
    · obtain ⟨commit, hcommit, hcontent⟩ := h.content
      rw [hset] at hcommit
      cases hcommit
      rw [List.mem_singleton.1 hl]
      exact hcontent

/-- Keeping some of the items, with refs and directories that these need. -/
theorem StoreInv.sublist {s s' : Repo} (hinv : StoreInv s) (hlayers : s'.layers.Sublist s.layers)
    (hrefs : ∀ item ∈ s'.layers, s'.resolveRefspec (ostreeRefSpecFromLayerItem item) =
      s.resolveRefspec (ostreeRefSpecFromLayerItem item))
    (hdirs : ∀ item ∈ s'.layers,
      s'.layerDirs.lookup item.commit = s.layerDirs.lookup item.commit) : StoreInv s' where
  names := hinv.names.sublist (hlayers.map _)
  commits := hinv.commits.sublist (hlayers.map _)
  refs := fun item hitem => (hrefs item hitem).trans (hinv.refs item (hlayers.subset hitem))
  dirs := fun item hitem => (hdirs item hitem).trans (hinv.dirs item (hlayers.subset hitem))

/-- The items that are left when a layer is removed have another name and
    another commit. -/
theorem StoreInv.ne_of_mem_eraseP {s : Repo} (hinv : StoreInv s) {layer : RepositoryCacheLayersItem}
    (hlayer : layer ∈ s.layers) {item : RepositoryCacheLayersItem}
    (hitem : item ∈ s.layers.eraseP layer.matchesItem) :
    item.name ≠ layer.name ∧ item.commit ≠ layer.commit := by
  have hname : ∀ l ∈ s.layers, layer.matchesItem l = true ↔ l.name = layer.name := by
    intro l hl
    constructor
    · intro hmatch
      obtain ⟨-, -, hchannel, hid, hversion, -, hmodule⟩ := matchesItem_iff.1 hmatch
      simp [RepositoryCacheLayersItem.name, hchannel, hid, hversion, hmodule]
    · intro heq
      rw [List.inj_on_of_nodup_map hinv.names hl hlayer heq]
      exact matchesItem_self layer
  have hne : item.name ≠ layer.name := Linglong.ne_of_mem_eraseP hinv.names hname hitem
  refine ⟨hne, fun heq => hne ?_⟩
  have hmem : item ∈ s.layers := List.mem_of_mem_eraseP hitem
  rw [List.inj_on_of_nodup_map hinv.commits hmem hlayer heq]

theorem storeInv_remove {s s' : Repo} (hinv : StoreInv s) {ref : Reference} {module : String}
    {subRef : Option String} (h : remove ref module subRef s = .ok () s') : StoreInv s' := by
  rcases remove_cases ref module subRef s with ⟨e, faults, -, hrun, -⟩ |
    ⟨layer, faults, json, dirs, -, hitem, hafter, hdirs, -⟩
  · rw [hrun] at h
    cases h
  rw [after_of_ok h] at hafter
  have hlayer : layer ∈ s.layers := (mem_layersOf.1 (getLayerItem_mem hitem).1).1
  subst hafter
  refine hinv.sublist (List.eraseP_sublist) (fun item hmem => ?_) fun item hmem => ?_
  · obtain ⟨hname, -⟩ := hinv.ne_of_mem_eraseP hlayer hmem
    exact resolveRefspec_dropRef fun heq => hname (name_of_refSpec heq)
  · obtain ⟨-, hcommit⟩ := hinv.ne_of_mem_eraseP hlayer hmem
    show dirs.lookup item.commit = s.layerDirs.lookup item.commit
    rcases hdirs with rfl | rfl
    · rfl
    · exact lookup_filter_ne hcommit s.layerDirs

/-- Setting a mark changes nothing but the mark. -/
theorem map_setDeletedFirst {α : Type} {f : RepositoryCacheLayersItem → α}
    (hf : ∀ item deleted, f { item with deleted := deleted } = f item)
    (p : RepositoryCacheLayersItem → Bool) (deleted : Option Bool)
    (layers : List RepositoryCacheLayersItem) :
    (setDeletedFirst p deleted layers).map f = layers.map f := by
  induction layers with
  | nil => rfl
  | cons item layers ih =>
    unfold setDeletedFirst
    split
    · rw [List.map_cons, List.map_cons, hf]
    · rw [List.map_cons, List.map_cons, ih]

theorem storeInv_markDeleted {s s' : Repo} (hinv : StoreInv s) {ref : Reference} {deleted : Bool}
    {module : String} (h : markDeleted ref deleted module s = .ok () s') : StoreInv s' := by
  rcases markDeleted_cases ref deleted module s with ⟨e, faults, -, hrun, -⟩ |
    ⟨item, faults, -, -, hrun⟩
  · rw [hrun] at h
    cases h
  rw [hrun] at h
  cases h
  -- refs and directories are asked for by the refspec and the commit of an item
  have hsame : ∀ l ∈ setDeletedFirst item.matchesItem (if deleted then some true else none)
      s.layers, ∃ l' ∈ s.layers, ostreeRefSpecFromLayerItem l' = ostreeRefSpecFromLayerItem l ∧
        l'.commit = l.commit := by
    intro l hl
    have hmem := List.mem_map_of_mem (f := fun l => (ostreeRefSpecFromLayerItem l, l.commit)) hl
    rw [map_setDeletedFirst fun _ _ => rfl] at hmem
    obtain ⟨l', hl', heq⟩ := List.mem_map.1 hmem
    exact ⟨l', hl', congrArg Prod.fst heq, congrArg Prod.snd heq⟩
  refine ⟨?_, ?_, fun l hl => ?_, fun l hl => ?_⟩
  · rw [map_setDeletedFirst fun _ _ => rfl]
    exact hinv.names
  · rw [map_setDeletedFirst fun _ _ => rfl]
    exact hinv.commits
  · obtain ⟨l', hl', hspec, hcommit⟩ := hsame l hl
    rw [← hspec, ← hcommit]
    exact hinv.refs l' hl'
  · obtain ⟨l', hl', -, hcommit⟩ := hsame l hl
    rw [← hcommit]
    exact hinv.dirs l' hl'

/-! ### Lookups -/

/-- Elements with one and the same key are one. -/
theorem length_le_one_of_nodup {α β : Type} {f : α → β} {c : β} {l : List α}
    (hnodup : (l.map f).Nodup) (h : ∀ a ∈ l, f a = c) : l.length ≤ 1 := by
  match l with
  | [] => simp
  | [_] => simp
  | a :: b :: rest =>
    have hsame : f a = f b := (h a (by simp)).trans (h b (by simp)).symm
    simp [hsame] at hnodup

theorem StoreInv.query_le_one {s : Repo} (hinv : StoreInv s) (ref : Reference) (module : String)
    (subRef : Option String) :
    (s.queryLayerItem (layerQuery ref (some module) subRef)).length ≤ 1 := by
  have hperm : (s.queryLayerItem (layerQuery ref (some module) subRef)).Perm
      (s.layers.filter (layerQuery ref (some module) subRef).accepts) :=
    s.outside.sort.byVersion_perm _
  rw [hperm.length_eq]
  refine length_le_one_of_nodup (f := RepositoryCacheLayersItem.name)
    (c := (ref.id, ref.channel, ref.version.toString, module))
    (hinv.names.sublist (List.filter_sublist.map _)) ?_
  intro item hitem
  have hacc := (List.mem_filter.1 hitem).2
  simp only [layerQuery, RepoCacheQuery.accepts, Option.all_some, Option.all_none,
    Bool.and_eq_true, beq_iff_eq] at hacc
  obtain ⟨⟨⟨⟨⟨⟨hid, -⟩, hchannel⟩, hversion⟩, hmodule⟩, -⟩, -⟩ := hacc
  rw [RepositoryCacheLayersItem.name, hid, hchannel, hversion, hmodule]

/-- The other errors of `getLayerItem` start or end with other letters. -/
theorem StoreInv.unambiguous {s : Repo} (hinv : StoreInv s) (ref : Reference) (module : String)
    (subRef : Option String) : s.getLayerItem ref module subRef ≠
      .error "ambiguous ref has been detected, maybe underlying storage already broken." := by
  unfold getLayerItem
  have hone := hinv.query_le_one ref (normModule module) subRef
  have htwo := hinv.query_le_one ref "runtime" subRef
  split
  · simp
  · next hquery =>
    rw [hquery] at hone
    simp at hone
  · split
    · intro h
      have hhead := congrArg (fun text => text.toList.head?) (Except.error.inj h)
      simp at hhead
    · split
      · simp
      · next hquery =>
        rw [hquery] at htwo
        simp at htwo
      · intro h
        have hlast := congrArg (fun text => text.toList.getLast?) (Except.error.inj h)
        simp at hlast

theorem StoreInv.consistent {s : Repo} (hinv : StoreInv s) : Consistent s where
  unique := by
    refine List.Nodup.of_map Prod.fst ?_
    rw [List.map_map]
    exact hinv.names
  unambiguous := hinv.unambiguous
  refs := hinv.refs
  dirs := hinv.dirs

/-- A layer is found under its name. -/
theorem StoreInv.getLayerDir_ok {s : Repo} (hinv : StoreInv s) {ref : Reference} (module : String)
    {l : RepositoryCacheLayersItem} (hl : l ∈ s.layers) (hlayer : l.isLayerOf ref = true)
    (hmodule : l.info.packageInfoV2Module = normModule module) :
    s.getLayerDir ref module none = .ok (some l.commit) := by
  have hquery : s.queryLayerItem (layerQuery ref (some (normModule module)) none) = [l] := by
    have hmem : l ∈ s.queryLayerItem (layerQuery ref (some (normModule module)) none) := by
      refine mem_queryItems.2 ⟨hl, ?_⟩
      rw [layerQuery_accepts, hlayer, hmodule]
      simp
    have hone := hinv.query_le_one ref (normModule module) none
    match s.queryLayerItem (layerQuery ref (some (normModule module)) none), hmem, hone with
    | [a], hmem, _ => rw [List.mem_singleton.1 hmem]
    | a :: b :: rest, _, hone => simp at hone
  have hitem : s.getLayerItem ref module none = .ok l := by
    unfold getLayerItem
    rw [hquery]
  exact getLayerDir_ok_iff.2 ⟨l, hitem, hinv.dirs l hl⟩

/-! ### Imports and pulls -/

theorem storeInv_importLayerDir {s s' : Repo} (hinv : StoreInv s) {dir : LayerDir}
    {overlays : List String} {subRef : Option String} {commit : String}
    (hfits : StoreEvent.Fits s (.importLayerDir dir overlays subRef commit))
    (h : importLayerDir dir overlays subRef commit s = .ok () s') : StoreInv s' := by
  obtain ⟨info, reference, htarget, hdone⟩ := importLayerDir_ok h
  obtain ⟨hinfo, href, e, hdir⟩ := importTarget_ok htarget
  have hplain : PlainName info subRef := hfits info (by rw [hinfo]; rfl)
  have hspec := (refSpec_eq_iff href subRef commit).2 hplain
  have hlayers : (s.committed info reference subRef commit).layers = s.layers := rfl
  refine hinv.add hlayers rfl ?_ (fun l hl hname => ?_) hdone
  · rw [← hspec]
    rfl
  · -- the import has looked for a layer with this name
    obtain ⟨hruntime, hsub, hline⟩ := hplain
    obtain ⟨hversion, -, hchannel, hid⟩ := Reference.fromPackageInfo_ok href
    simp only [RepositoryCacheLayersItem.name, localItem, Prod.mk.injEq] at hname
    obtain ⟨hid', hchannel', hversion', hmodule'⟩ := hname
    have hlayer : l.isLayerOf reference = true := by
      rw [isLayerOf_iff, hid', hchannel', hversion', hid, hchannel,
        (Version.toString_eq_iff hversion).2 hline]
      exact ⟨rfl, rfl, rfl⟩
    have hfound := hinv.getLayerDir_ok info.packageInfoV2Module hl hlayer
      (by rw [hmodule', normModule_eq_self_iff.2 hruntime])
    subst hsub
    rw [hfound] at hdir
    cases hdir

theorem pulledItem_repo {s : Repo} {ref : OstreeRef} {item : RepositoryCacheLayersItem}
    (h : s.pulledItem ref = .ok item) : item.repo = s.defaultRepo := by
  unfold pulledItem at h
  split at h
  · cases h
  · next commit _ =>
    cases hinfo : s.outside.commitInfo commit with
    | error e =>
      rw [hinfo] at h
      cases h
    | ok info =>
      rw [hinfo] at h
      cases h
      rfl

theorem storeInv_pull {s : Repo} (hinv : StoreInv s) {reference : Reference} {module : String}
    (hfits : StoreEvent.Fits s (.pull reference module))
    (h : ¬ Reports (s.pull reference module).2) : StoreInv (s.pull reference module).1 := by
  obtain ⟨ref, commit, item, pulls, hfetches, hitem, hdone⟩ := pull_ok h
  have hpulled : s.pulledAs reference module = some (ref, commit, item) := by
    simp [pulledAs, hfetches, hitem, Except.toOption]
  obtain ⟨hcommit, href, hnew⟩ := hfits _ hpulled
  dsimp only at hcommit href hnew
  subst hcommit
  have hrepo : item.repo = (s.arrived ref (some item.commit)).defaultRepo := pulledItem_repo hitem
  have hlayers : ({ s.arrived ref (some item.commit) with pulls := pulls } : Repo).layers =
      s.layers := rfl
  refine hinv.add hlayers rfl ?_ hnew hdone
  rw [ostreeRefSpecFromLayerItem, href, hrepo]
  rfl

/-! ## Section 3: Runs -/

theorem storeInv_of_empty {s : Repo} (h : Empty s) : StoreInv s := by
  obtain ⟨hlayers, -, -⟩ := h
  refine ⟨?_, ?_, ?_, ?_⟩ <;> simp [hlayers]

/-- **Step**: a successful call that fits keeps the invariant. -/
theorem storeInv_next {s s' : Repo} (event : StoreEvent) (hinv : StoreInv s)
    (hfits : StoreEvent.Fits s event) (h : StoreEvent.machine.next s event = some s') :
    StoreInv s' := by
  cases event with
  | importLayerDir dir overlays subRef commit =>
    exact storeInv_importLayerDir hinv hfits (onSuccess_eq_some h)
  | pull reference module =>
    replace h : (if Reports (s.pull reference module).2 then none
      else some (s.pull reference module).1) = some s' := h
    split at h
    · cases h
    · next hquiet =>
      cases h
      exact storeInv_pull hinv hfits hquiet
  | remove ref module subRef => exact storeInv_remove hinv (onSuccess_eq_some h)
  | markDeleted ref deleted module => exact storeInv_markDeleted hinv (onSuccess_eq_some h)

/-- **Run**: from an empty repository, successful calls that fit lead to
    consistent stores only. -/
theorem consistent_of_meets {s s' : Repo} (hempty : Empty s) {events : List StoreEvent}
    (hmeets : StoreEvent.machine.Meets StoreEvent.Fits s events)
    (hexec : StoreEvent.machine.exec s events = some s') : Consistent s' := by
  have hinv : StoreInv s' := StoreEvent.machine.invariant_of_meets
    (fun s event s' hinv hfits h => storeInv_next event hinv hfits h)
    (storeInv_of_empty hempty) hmeets hexec
  exact hinv.consistent

/-- An empty repository whose remote has an app, first with the commit `c1`,
    then with `c2`. -/
def movingRemote : Repo :=
  ofLayers (.ofCommits [("c1", .onMain "org.app" "1.0.0.0" "binary"),
    ("c2", .onMain "org.app" "1.0.0.0" "binary")]) []
    [⟨[], fun _ => .ok "c1"⟩, ⟨[], fun _ => .ok "c2"⟩] []

/-- The app is pulled, marked and removed, then pulled again. -/
def replaceApp : List StoreEvent :=
  let app := Reference.onMain "org.app" 0 (by decide)
  [.pull app "binary", .markDeleted app true "binary", .remove app "binary" none,
    .pull app "binary"]

theorem consistent_replaceApp :
    ∃ s, StoreEvent.machine.exec movingRemote replaceApp = some s ∧ Consistent s := by
  obtain ⟨s, hexec⟩ := StoreEvent.machine.exists_of_exec_isSome movingRemote replaceApp (by decide)
  exact ⟨s, hexec, consistent_of_meets ⟨rfl, rfl, rfl⟩ (by decide) hexec⟩

/-- The app is pulled twice: as the dependency of another app, and by a
    request that was queued before. -/
def pullTwice : List StoreEvent :=
  let app := Reference.onMain "org.app" 0 (by decide)
  [.pull app "binary", .pull app "binary"]

theorem not_consistent_pullTwice :
    ¬ ∀ s s' events, Empty s → StoreEvent.machine.exec s events = some s' → Consistent s' := by
  intro h
  obtain ⟨s', hexec⟩ := StoreEvent.machine.exists_of_exec_isSome movingRemote pullTwice (by decide)
  have hunique := (h movingRemote s' pullTwice ⟨rfl, rfl, rfl⟩ hexec).unique
  have hitems : (StoreEvent.machine.exec movingRemote pullTwice).map
      (fun s => s.layers.map fun item => (item.name, item.info.uuid)) =
      some [(("org.app", "main", "1.0.0.0", "binary"), none),
        (("org.app", "main", "1.0.0.0", "binary"), none)] := by decide
  rw [hexec, Option.map_some] at hitems
  rw [Option.some.inj hitems] at hunique
  exact absurd hunique (by decide)

end Repo

end Linglong
