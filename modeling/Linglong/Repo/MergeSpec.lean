import Linglong.Repo.MergeCrash

/-! # What `mergeModules` Computes

    `mergeModules` groups the layers by id, version and architecture, and
    keeps one record for each group that has a module `binary` and another
    one. A group whose record is there already keeps this record, whatever
    else it says; so a second call finds all records and builds nothing.

    1. Groups and their records.
    2. The `std::map` of the groups (`layerGroups_spec`).
    3. The record of a group (`record_of_group`).
    4. All records, and the second call.
    5. The result (`mergeModules_spec`).
-/

namespace Linglong

open Framework

/-! ## Section 1: Groups -/

/-- What the layers of a group have in common. -/
structure PackageKey where
  id : String
  version : String
  arch : String
  deriving DecidableEq

/-- The text by which `mergeModules` groups. -/
def PackageKey.text (k : PackageKey) : String := Repo.groupText k.id k.version k.arch

def RepositoryCacheLayersItem.key (l : RepositoryCacheLayersItem) : PackageKey :=
  ⟨l.info.id, l.info.version, l.arch⟩

theorem RepositoryCacheLayersItem.text_key (l : RepositoryCacheLayersItem) :
    l.key.text = Repo.groupKey l := rfl

/-- There is something to merge: two layers, one of them `binary`. -/
def Mergeable (group : List RepositoryCacheLayersItem) : Prop :=
  2 ≤ group.length ∧ ∃ l ∈ group, l.info.packageInfoV2Module = "binary"

instance (group : List RepositoryCacheLayersItem) : Decidable (Mergeable group) :=
  inferInstanceAs (Decidable (_ ∧ _))

/-- A record has the commit of the group's `binary` layer, -/
def HasBinaryOf (group : List RepositoryCacheLayersItem) (r : RepositoryCacheMergedItem) : Prop :=
  ∃ l ∈ group, l.info.packageInfoV2Module = "binary" ∧ l.commit = r.binaryCommit

/-- and the commits of all its layers, in the order of their modules. -/
structure Describes (group : List RepositoryCacheLayersItem) (r : RepositoryCacheMergedItem) :
    Prop where
  commits : ∃ sorted : List RepositoryCacheLayersItem, sorted.Perm group ∧
    sorted.Pairwise (fun a b => a.info.packageInfoV2Module < b.info.packageInfoV2Module) ∧
    r.commits = sorted.map RepositoryCacheLayersItem.commit
  binary : HasBinaryOf group r

namespace Repo

/-- The layers of a group that are not marked. -/
def group (s : Repo) (k : PackageKey) : List RepositoryCacheLayersItem :=
  s.queryExistingLayerItem.filter fun l => l.key = k

def sortedCommits (s : Repo) (k : PackageKey) : List String :=
  (s.outside.sort.byModule (s.group k)).map RepositoryCacheLayersItem.commit

/-- What is required: a group has each module once, and the hash is injective
    on the lists of commits in use. -/
structure MergeInput (s : Repo) : Prop where
  modules : ∀ k, ((s.group k).map fun l => l.info.packageInfoV2Module).Nodup
  injective : ∀ l ∈ s.commitLists, ∀ l' ∈ s.commitLists,
    s.outside.sha256 (String.join l) = s.outside.sha256 (String.join l') → l = l'

/-- What else has to hold. The text of a key tells the groups apart, a layer
    `binary` has a commit, two groups do not have the same commits, and an
    old record of a group's commits has the commit of its `binary` layer. -/
structure Regular (s : Repo) : Prop where
  keys : ∀ a ∈ s.queryExistingLayerItem, ∀ b ∈ s.queryExistingLayerItem,
    a.key.text = b.key.text → a.key = b.key
  commits : ∀ a ∈ s.queryExistingLayerItem, a.info.packageInfoV2Module = "binary" → a.commit ≠ ""
  distinct : ∀ k k', Mergeable (s.group k) → Mergeable (s.group k') →
    s.sortedCommits k = s.sortedCommits k' → k = k'
  records : ∀ r ∈ s.records, ∀ k, Mergeable (s.group k) →
    r.id = s.outside.sha256 (String.join r.commits) → r.commits = s.sortedCommits k →
    HasBinaryOf (s.group k) r

/-- The records in memory are those of the groups, one for each. -/
def MergedIn (s s' : Repo) : Prop :=
  ∃ keys records, keys.Nodup ∧ (∀ k, k ∈ keys ↔ Mergeable (s.group k)) ∧
    s'.merged = some records ∧ List.Forall₂ (fun k r => Describes (s.group k) r) keys records

/-- A call has nothing to do: its loop over the groups finds every record and
    takes no step, and its records are those that were there. -/
structure Repeats (s : Repo) : Prop where
  reuses : mergeGroups s.layerGroups s = .ok s.records s
  records : (after mergeModules s).merged = s.merged

/-! ## Section 2: The map of the groups -/

theorem mem_insertKey {k key : String} {l : List String} :
    k ∈ insertKey key l ↔ k = key ∨ k ∈ l := by
  induction l with
  | nil => simp [insertKey]
  | cons a l ih =>
    unfold insertKey
    by_cases heq : key = a
    · rw [if_pos heq, List.mem_cons, heq]
      tauto
    · rw [if_neg heq]
      by_cases hlt : key < a
      · rw [if_pos hlt, List.mem_cons]
      · rw [if_neg hlt, List.mem_cons, ih, List.mem_cons]
        tauto

theorem pairwise_insertKey {key : String} {l : List String} (h : l.Pairwise (· < ·)) :
    (insertKey key l).Pairwise (· < ·) := by
  induction l with
  | nil => exact List.pairwise_singleton _ _
  | cons a l ih =>
    obtain ⟨ha, hl⟩ := List.pairwise_cons.1 h
    unfold insertKey
    by_cases heq : key = a
    · rw [if_pos heq]
      exact h
    rw [if_neg heq]
    by_cases hlt : key < a
    · rw [if_pos hlt]
      refine List.pairwise_cons.2 ⟨fun b hb => ?_, h⟩
      rcases List.mem_cons.1 hb with rfl | hb
      · exact hlt
      · exact String.lt_trans hlt (ha b hb)
    · rw [if_neg hlt]
      refine List.pairwise_cons.2 ⟨fun b hb => ?_, ih hl⟩
      rcases mem_insertKey.1 hb with rfl | hb
      · by_contra hnot
        exact heq (String.le_antisymm hnot hlt)
      · exact ha b hb

theorem keys_spec (items : List RepositoryCacheLayersItem) (keys : List String)
    (h : keys.Pairwise (· < ·)) :
    (items.foldl (fun keys item => insertKey (groupKey item) keys) keys).Pairwise (· < ·) ∧
      ∀ k, k ∈ items.foldl (fun keys item => insertKey (groupKey item) keys) keys ↔
        k ∈ keys ∨ ∃ l ∈ items, l.key.text = k := by
  induction items generalizing keys with
  | nil => exact ⟨h, fun k => by simp⟩
  | cons item items ih =>
    obtain ⟨hsorted, hmem⟩ := ih (insertKey (groupKey item) keys) (pairwise_insertKey h)
    refine ⟨hsorted, fun k => (hmem k).trans ?_⟩
    rw [mem_insertKey, List.exists_mem_cons_iff, item.text_key, eq_comm (b := groupKey item)]
    tauto

/-- The texts are distinct, and each comes with the layers that have it. -/
theorem layerGroups_spec (s : Repo) : (s.layerGroups.map Prod.fst).Nodup ∧
    ∀ g, g ∈ s.layerGroups ↔ (∃ l ∈ s.queryExistingLayerItem, l.key.text = g.1) ∧
      g.2 = s.queryExistingLayerItem.filter fun l => l.key.text = g.1 := by
  obtain ⟨hsorted, hmem⟩ := keys_spec s.queryExistingLayerItem [] List.Pairwise.nil
  constructor
  · have hfst : s.layerGroups.map Prod.fst =
        s.queryExistingLayerItem.foldl (fun keys item => insertKey (groupKey item) keys) [] := by
      unfold layerGroups
      rw [List.map_map]
      exact List.map_id' _
    rw [hfst]
    refine hsorted.imp fun hlt heq => ?_
    rw [heq] at hlt
    exact String.lt_irrefl _ hlt
  · rintro ⟨key, layers⟩
    unfold layerGroups
    simp only [List.mem_map, hmem, Prod.mk.injEq, List.not_mem_nil, false_or]
    constructor
    · rintro ⟨k, hk, rfl, rfl⟩
      exact ⟨hk, rfl⟩
    · rintro ⟨hk, hlayers⟩
      exact ⟨key, hk, rfl, hlayers.symm⟩

/-! ## Section 3: One group -/

/-- The loop of `mergeModules` that looks for the `binary` layer. -/
def binaryCommit (layers : List RepositoryCacheLayersItem) (found : String) : String :=
  layers.foldl (fun found layer =>
    if layer.info.packageInfoV2Module = "binary" then layer.commit else found) found

theorem binaryCommit_of_none {layers : List RepositoryCacheLayersItem}
    (h : ∀ l ∈ layers, l.info.packageInfoV2Module ≠ "binary") (found : String) :
    binaryCommit layers found = found := by
  induction layers with
  | nil => rfl
  | cons a layers ih =>
    have hstep : binaryCommit (a :: layers) found = binaryCommit layers found := by
      show binaryCommit layers (if _ then _ else _) = _
      rw [if_neg (h a List.mem_cons_self)]
    rw [hstep]
    exact ih fun l hl => h l (List.mem_cons_of_mem _ hl)

theorem binaryCommit_of_mem {layers : List RepositoryCacheLayersItem}
    (hnodup : (layers.map fun l => l.info.packageInfoV2Module).Nodup)
    {l : RepositoryCacheLayersItem} (hl : l ∈ layers)
    (hbinary : l.info.packageInfoV2Module = "binary") (found : String) :
    binaryCommit layers found = l.commit := by
  induction layers generalizing found with
  | nil => cases hl
  | cons a layers ih =>
    rw [List.map_cons, List.nodup_cons] at hnodup
    obtain ⟨hfresh, hnodup⟩ := hnodup
    rcases List.mem_cons.1 hl with rfl | hl
    · have hstep : binaryCommit (l :: layers) found = binaryCommit layers l.commit := by
        show binaryCommit layers (if _ then _ else _) = _
        rw [if_pos hbinary]
      rw [hstep]
      -- no other layer is `binary`
      refine binaryCommit_of_none (fun b hb hother => hfresh ?_) _
      rw [hbinary, ← hother]
      exact List.mem_map.2 ⟨b, hb, rfl⟩
    · exact ih hnodup hl _

section Groups

variable {s : Repo}

theorem group_of_mem (hregular : Regular s) {g : String × List RepositoryCacheLayersItem}
    (hg : g ∈ s.layerGroups) : ∃ k : PackageKey, g.1 = k.text ∧ g.2 = s.group k ∧ s.group k ≠ [] := by
  obtain ⟨⟨l, hl, htext⟩, hlayers⟩ := ((layerGroups_spec s).2 g).1 hg
  have hgroup : g.2 = s.group l.key := by
    rw [hlayers, group]
    refine List.filter_congr fun a ha => ?_
    rw [← htext]
    exact decide_eq_decide.2 ⟨hregular.keys a ha l hl, fun h => by rw [h]⟩
  refine ⟨l.key, htext.symm, hgroup, List.ne_nil_of_mem (a := l) ?_⟩
  exact List.mem_filter.2 ⟨hl, by simp⟩

/-- A group that has nothing to merge gets no record. -/
theorem record_of_not_mergeable {outside : Outside} {records : List RepositoryCacheMergedItem}
    {key : String} {group : List RepositoryCacheLayersItem} (h : ¬ Mergeable group) :
    (GroupPlan.ofGroup outside records key group).record = none := by
  unfold GroupPlan.ofGroup
  by_cases hone : group.length = 1
  · rw [if_pos hone]
    rfl
  rw [if_neg hone]
  have hnone : ∀ l ∈ outside.sort.byModule group, l.info.packageInfoV2Module ≠ "binary" := by
    intro l hl hbinary
    rw [StdSort.mem_byModule] at hl
    have hpos : 0 < group.length := List.length_pos_of_mem hl
    exact h ⟨by omega, l, hl, hbinary⟩
  have hmerged : mergedRecord outside key (outside.sort.byModule group) = none :=
    if_pos (binaryCommit_of_none hnone "")
  rw [hmerged]
  rfl

/-- The record that is made for a group. -/
theorem mergedRecord_of_mergeable (hinput : MergeInput s) (hregular : Regular s) {k : PackageKey}
    (h : Mergeable (s.group k)) (text : String) :
    ∃ r, mergedRecord s.outside text (s.outside.sort.byModule (s.group k)) = some r ∧
      r.commits = s.sortedCommits k ∧ r.id = s.outside.sha256 (String.join r.commits) ∧
      HasBinaryOf (s.group k) r := by
  obtain ⟨-, l, hl, hbinary⟩ := h
  have hperm := s.outside.sort.byModule_perm (s.group k)
  have hnodup : ((s.outside.sort.byModule (s.group k)).map
      fun l => l.info.packageInfoV2Module).Nodup :=
    (hperm.map _).nodup_iff.2 (hinput.modules k)
  have hfound := binaryCommit_of_mem hnodup (hperm.mem_iff.2 hl) hbinary ""
  have hne : binaryCommit (s.outside.sort.byModule (s.group k)) "" ≠ "" := by
    rw [hfound]
    exact hregular.commits l (List.mem_filter.1 hl).1 hbinary
  exact ⟨_, if_neg hne, rfl, rfl, l, hl, hbinary, hfound.symm⟩

/-- Sorting by module is strict, as each module is there once. -/
theorem describes_of_commits (hinput : MergeInput s) {k : PackageKey}
    {r : RepositoryCacheMergedItem} (hcommits : r.commits = s.sortedCommits k)
    (hbinary : HasBinaryOf (s.group k) r) : Describes (s.group k) r := by
  have hperm := s.outside.sort.byModule_perm (s.group k)
  have hnodup : ((s.outside.sort.byModule (s.group k)).map
      fun l => l.info.packageInfoV2Module).Nodup :=
    (hperm.map _).nodup_iff.2 (hinput.modules k)
  refine ⟨⟨_, hperm, ?_, hcommits⟩, hbinary⟩
  refine (s.outside.sort.byModule_sorted _).imp₂ (fun a b hle hne => ?_) (List.pairwise_map.1 hnodup)
  by_contra hnot
  exact hne (String.le_antisymm hle hnot)

/-- **One group**: the record that is kept or made describes it. -/
theorem record_of_group (hinput : MergeInput s) (hregular : Regular s) {k : PackageKey}
    (h : Mergeable (s.group k)) (text : String) :
    ∃ r, (GroupPlan.ofGroup s.outside s.records text (s.group k)).record = some r ∧
      r.commits = s.sortedCommits k ∧ r.id = s.outside.sha256 (String.join r.commits) ∧
      Describes (s.group k) r := by
  obtain ⟨record, hrecord, hcommits, hid, hbinary⟩ :=
    mergedRecord_of_mergeable hinput hregular h text
  have hdescribes := describes_of_commits hinput hcommits hbinary
  have hlength : (s.group k).length ≠ 1 := by
    have hmany := h.1
    omega
  unfold GroupPlan.ofGroup
  rw [if_neg hlength, hrecord]
  simp only []
  cases hfind : s.records.find? fun m => m.id = record.id with
  | none => exact ⟨record, rfl, hcommits, hid, hdescribes⟩
  | some old =>
    simp only []
    by_cases hsame : old.commits = record.commits
    · -- an old record is kept as it is
      rw [if_pos hsame]
      have hold : old ∈ s.records := List.mem_of_find?_eq_some hfind
      have holdId : old.id = record.id := by simpa using List.find?_some hfind
      have hname : old.id = s.outside.sha256 (String.join old.commits) := by
        rw [holdId, hid, hsame]
      have hcommits' : old.commits = s.sortedCommits k := hsame.trans hcommits
      exact ⟨old, rfl, hcommits', hname,
        describes_of_commits hinput hcommits' (hregular.records old hold k h hname hcommits')⟩
    · rw [if_neg hsame]
      exact ⟨record, rfl, hcommits, hid, hdescribes⟩

/-! ## Section 4: All groups -/

/-- The plan for a group. -/
def plan (s : Repo) (g : String × List RepositoryCacheLayersItem) : GroupPlan :=
  .ofGroup s.outside s.records g.1 g.2

theorem newRecords_eq (s : Repo) :
    s.newRecords = (s.layerGroups.map s.plan).filterMap GroupPlan.record := rfl

/-- **Run**: one record for each group with something to merge. -/
theorem describes_records (hinput : MergeInput s) (hregular : Regular s)
    {gs : List (String × List RepositoryCacheLayersItem)} (hgs : ∀ g ∈ gs, g ∈ s.layerGroups)
    (hnodup : (gs.map Prod.fst).Nodup) :
    ∃ keys : List PackageKey, keys.Nodup ∧
      (∀ k, k ∈ keys ↔ Mergeable (s.group k) ∧ k.text ∈ gs.map Prod.fst) ∧
      List.Forall₂ (fun k r => Describes (s.group k) r) keys
        ((gs.map s.plan).filterMap GroupPlan.record) := by
  induction gs with
  | nil => exact ⟨[], List.nodup_nil, fun k => by simp, .nil⟩
  | cons g gs ih =>
    rw [List.map_cons, List.nodup_cons] at hnodup
    obtain ⟨hfresh, hnodup⟩ := hnodup
    obtain ⟨keys, hkeys, hmem, hrecords⟩ :=
      ih (fun g hg => hgs g (List.mem_cons_of_mem _ hg)) hnodup
    obtain ⟨k, htext, hgroup, hne⟩ := group_of_mem hregular (hgs g List.mem_cons_self)
    -- a group with the same text is the same group
    have honly : ∀ k', Mergeable (s.group k') → k'.text = g.1 → k' = k := by
      rintro k' ⟨-, l, hl, -⟩ hsame
      obtain ⟨a, ha⟩ := List.exists_mem_of_ne_nil _ hne
      obtain ⟨hl, hlkey⟩ := List.mem_filter.1 hl
      obtain ⟨ha, hakey⟩ := List.mem_filter.1 ha
      have hlkey : l.key = k' := of_decide_eq_true hlkey
      have hakey : a.key = k := of_decide_eq_true hakey
      rw [← hlkey, ← hakey]
      refine hregular.keys l hl a ha ?_
      rw [hlkey, hakey, hsame, htext]
    by_cases hmergeable : Mergeable (s.group k)
    · obtain ⟨r, hrecord, -, -, hdescribes⟩ := record_of_group hinput hregular hmergeable g.1
      have hplan : (s.plan g).record = some r := by
        rw [plan, hgroup]
        exact hrecord
      refine ⟨k :: keys, List.nodup_cons.2 ⟨fun hk => ?_, hkeys⟩, fun k' => ?_, ?_⟩
      · rw [htext] at hfresh
        exact hfresh ((hmem k).1 hk).2
      · rw [List.mem_cons, hmem, List.map_cons, List.mem_cons]
        constructor
        · rintro (rfl | ⟨hk', htext'⟩)
          · exact ⟨hmergeable, .inl htext.symm⟩
          · exact ⟨hk', .inr htext'⟩
        · rintro ⟨hk', htext' | htext'⟩
          · exact .inl (honly k' hk' htext')
          · exact .inr ⟨hk', htext'⟩
      · rw [List.map_cons, List.filterMap_cons_some hplan]
        exact .cons hdescribes hrecords
    · have hplan : (s.plan g).record = none := by
        rw [plan, hgroup]
        exact record_of_not_mergeable hmergeable
      refine ⟨keys, hkeys, fun k' => ?_, ?_⟩
      · rw [hmem, List.map_cons, List.mem_cons]
        constructor
        · exact fun h => ⟨h.1, .inr h.2⟩
        · rintro ⟨hk', htext' | htext'⟩
          · rw [honly k' hk' htext'] at hk'
            exact absurd hk' hmergeable
          · exact ⟨hk', htext'⟩
      · rw [List.map_cons, List.filterMap_cons_none hplan]
        exact hrecords

/-- A new record is that of a group. -/
theorem group_of_newRecord (hinput : MergeInput s) (hregular : Regular s)
    {r : RepositoryCacheMergedItem} (h : r ∈ s.newRecords) :
    ∃ k text, Mergeable (s.group k) ∧ s.sortedCommits k ∈ s.commitLists ∧ text = k.text ∧
      (GroupPlan.ofGroup s.outside s.records text (s.group k)).record = some r ∧
      r.commits = s.sortedCommits k ∧ r.id = s.outside.sha256 (String.join r.commits) := by
  obtain ⟨p, hp, hrecord⟩ := List.mem_filterMap.1 h
  obtain ⟨g, hg, rfl⟩ := List.mem_map.1 hp
  obtain ⟨k, htext, hgroup, -⟩ := group_of_mem hregular hg
  have hmergeable : Mergeable (s.group k) := by
    by_contra hnot
    rw [hgroup, record_of_not_mergeable hnot] at hrecord
    cases hrecord
  obtain ⟨r', hrecord', hcommits, hid, -⟩ := record_of_group hinput hregular hmergeable g.1
  rw [hgroup] at hrecord
  have hsame : r' = r := Option.some.inj (hrecord'.symm.trans hrecord)
  subst hsame
  refine ⟨k, g.1, hmergeable, ?_, htext, hrecord, hcommits, hid⟩
  refine List.mem_append_left _ (List.mem_map.2 ⟨g, hg, ?_⟩)
  rw [sortedCommits, hgroup]

/-- The ids of new records are distinct. -/
theorem newRecord_of_id (hinput : MergeInput s) (hregular : Regular s)
    {r r' : RepositoryCacheMergedItem} (h : r ∈ s.newRecords) (h' : r' ∈ s.newRecords)
    (hid : r.id = r'.id) : r = r' := by
  obtain ⟨k, text, hmergeable, hlist, rfl, hrecord, hcommits, hname⟩ :=
    group_of_newRecord hinput hregular h
  obtain ⟨k', text', hmergeable', hlist', rfl, hrecord', hcommits', hname'⟩ :=
    group_of_newRecord hinput hregular h'
  rw [hcommits] at hname
  rw [hcommits'] at hname'
  have hsame := hinput.injective _ hlist _ hlist' (hname.symm.trans (hid.trans hname'))
  have hkey := hregular.distinct k k' hmergeable hmergeable' hsame
  subst hkey
  exact Option.some.inj (hrecord.symm.trans hrecord')

/-- **Reuse**: among the new records each group finds its own. -/
theorem plan_again (hinput : MergeInput s) (hregular : Regular s)
    {g : String × List RepositoryCacheLayersItem} (hg : g ∈ s.layerGroups) :
    (∀ r, (s.plan g).record = some r →
        GroupPlan.ofGroup s.outside s.newRecords g.1 g.2 = .reuse r) ∧
      ((s.plan g).record = none → GroupPlan.ofGroup s.outside s.newRecords g.1 g.2 = .skip) := by
  obtain ⟨k, -, hgroup, -⟩ := group_of_mem hregular hg
  by_cases hmergeable : Mergeable (s.group k)
  · obtain ⟨r, hrecord, hcommits, hid, -⟩ := record_of_group hinput hregular hmergeable g.1
    have hplan : (s.plan g).record = some r := by
      rw [plan, hgroup]
      exact hrecord
    refine ⟨fun r' hr' => ?_, fun hnone => ?_⟩
    · rw [hplan] at hr'
      cases hr'
      obtain ⟨record, hmerged, hcommits', hid', -⟩ :=
        mergedRecord_of_mergeable hinput hregular hmergeable g.1
      have hsameCommits : r.commits = record.commits := hcommits.trans hcommits'.symm
      have hsameId : r.id = record.id := by rw [hid, hid', hsameCommits]
      have hmem : r ∈ s.newRecords :=
        List.mem_filterMap.2 ⟨s.plan g, List.mem_map.2 ⟨g, hg, rfl⟩, hplan⟩
      have hlength : (s.group k).length ≠ 1 := by
        have hmany := hmergeable.1
        omega
      rw [hgroup]
      unfold GroupPlan.ofGroup
      rw [if_neg hlength, hmerged]
      simp only []
      -- the search finds a record with this id, and ids tell the new records apart
      cases hfind : s.newRecords.find? fun m => m.id = record.id with
      | none =>
        have hmiss := List.find?_eq_none.1 hfind r hmem
        exact absurd hsameId (by simpa using hmiss)
      | some old =>
        have hold : old = r := by
          refine newRecord_of_id hinput hregular (List.mem_of_find?_eq_some hfind) hmem ?_
          rw [hsameId]
          simpa using List.find?_some hfind
        subst hold
        simp only [if_pos hsameCommits]
    · rw [hplan] at hnone
      cases hnone
  · have hnone : ∀ records, (GroupPlan.ofGroup s.outside records g.1 g.2).record = none := by
      intro records
      rw [hgroup]
      exact record_of_not_mergeable hmergeable
    refine ⟨fun r hr => ?_, fun _ => ?_⟩
    · rw [plan, hnone] at hr
      cases hr
    · have hskip := hnone s.newRecords
      cases hplan : GroupPlan.ofGroup s.outside s.newRecords g.1 g.2 with
      | skip => rfl
      | reuse old => rw [hplan] at hskip; cases hskip
      | build record => rw [hplan] at hskip; cases hskip

/-- **Run**: with nothing to build, the loop over the groups changes nothing. -/
theorem mergeGroups_of_not_build {gs : List (String × List RepositoryCacheLayersItem)}
    (h : ∀ g ∈ gs, ∀ record, s.plan g ≠ .build record) :
    mergeGroups gs s = .ok ((gs.map s.plan).filterMap GroupPlan.record) s := by
  induction gs with
  | nil => rfl
  | cons g gs ih =>
    have hrest := ih fun g hg => h g (List.mem_cons_of_mem _ hg)
    have hfirst : mergeGroup g.1 g.2 s = .ok (s.plan g).record s := by
      rw [mergeGroup_run]
      show follow (s.plan g) s = _
      cases hplan : s.plan g with
      | skip => rfl
      | reuse old => rfl
      | build record => exact absurd hplan (h g List.mem_cons_self record)
    have hround : mergeGroups (g :: gs) s =
        .ok ((s.plan g).record.toList ++ (gs.map s.plan).filterMap GroupPlan.record) s :=
      (bind_of_ok hfirst).trans (bind_of_ok hrest)
    rw [hround, List.map_cons]
    cases hrecord : (s.plan g).record with
    | none => rw [List.filterMap_cons_none hrecord]; rfl
    | some r => rw [List.filterMap_cons_some hrecord]; rfl

end Groups

/-! ## Section 5: The result -/

/-- **The first call**: a record for each group with something to merge. -/
theorem mergedIn_of_mergeModules {s s' : Repo} (hinput : MergeInput s) (hregular : Regular s)
    (h : mergeModules s = .ok () s') : MergedIn s s' := by
  obtain ⟨dirs, faults, rfl⟩ := mergeModules_ok h
  obtain ⟨hnodup, hgroups⟩ := layerGroups_spec s
  obtain ⟨keys, hkeys, hmem, hrecords⟩ :=
    describes_records hinput hregular (fun _ hg => hg) hnodup
  refine ⟨keys, s.newRecords, hkeys, fun k => (hmem k).trans ?_, rfl, hrecords⟩
  refine and_iff_left_of_imp fun ⟨_, l, hl, _⟩ => ?_
  -- the text of a layer's key is among the keys of the map
  obtain ⟨hl, hkey⟩ := List.mem_filter.1 hl
  have hkey : l.key = k := of_decide_eq_true hkey
  refine List.mem_map.2 ⟨(k.text, s.queryExistingLayerItem.filter fun l => l.key.text = k.text),
    (hgroups _).2 ⟨⟨l, hl, ?_⟩, rfl⟩, rfl⟩
  rw [hkey]

/-- After a call each group is used again or skipped. -/
theorem mergeGroups_again {s s' : Repo} (hinput : MergeInput s) (hregular : Regular s)
    (h : mergeModules s = .ok () s') : mergeGroups s'.layerGroups s' = .ok s'.records s' := by
  obtain ⟨dirs, faults, hs'⟩ := mergeModules_ok h
  have houtside : s'.outside = s.outside := by rw [hs']
  have hgroups : s'.layerGroups = s.layerGroups := by rw [hs']; rfl
  have hmerged : s'.merged = some s.newRecords := by rw [hs']
  have hrecords : s'.records = s.newRecords := by rw [records, hmerged]; rfl
  have hagain : ∀ g ∈ s'.layerGroups, (∀ r, (s.plan g).record = some r → s'.plan g = .reuse r) ∧
      ((s.plan g).record = none → s'.plan g = .skip) := by
    intro g hg
    have hplan : s'.plan g = .ofGroup s.outside s.newRecords g.1 g.2 := by
      unfold plan
      rw [houtside, hrecords]
    rw [hplan]
    rw [hgroups] at hg
    exact plan_again hinput hregular hg
  rw [mergeGroups_of_not_build, hrecords, newRecords_eq, hgroups, List.filterMap_map,
    List.filterMap_map]
  · congr 1
    refine List.filterMap_congr fun g hg => ?_
    rw [← hgroups] at hg
    show (s'.plan g).record = (s.plan g).record
    cases hrecord : (s.plan g).record with
    | none => rw [(hagain g hg).2 hrecord]; rfl
    | some r => rw [(hagain g hg).1 r hrecord]; rfl
  · intro g hg record hbuild
    cases hrecord : (s.plan g).record with
    | none => rw [(hagain g hg).2 hrecord] at hbuild; cases hbuild
    | some r => rw [(hagain g hg).1 r hrecord] at hbuild; cases hbuild

/-- **The second call** has nothing to do. -/
theorem repeats_of_mergeModules {s s' : Repo} (hinput : MergeInput s) (hregular : Regular s)
    (h : mergeModules s = .ok () s') : Repeats s' ∧
      ((∀ dir ∈ s'.mergedDirs, ∃ r ∈ s'.records, r.id = dir.1) →
        (after mergeModules s').mergedDirs = s'.mergedDirs) := by
  have hloop := mergeGroups_again hinput hregular h
  obtain ⟨dirs, faults, hs'⟩ := mergeModules_ok h
  have hmerged : s'.merged = some s.newRecords := by rw [hs']
  have hrecords : s'.records = s.newRecords := by rw [records, hmerged]; rfl
  have hstart : mergeModules s' = (do
      updateMergedItems s'.records
      cleanMergedDir s'.records : RepoM Unit) s' :=
    (bind_of_ok (get_run s')).trans (bind_of_ok hloop)
  have hsame : { s' with merged := some s'.records } = s' := by
    rw [hrecords, ← hmerged]
  have hupdate : updateMergedItems s'.records s' = writeToDisk s' := by
    show writeToDisk { s' with merged := some s'.records } = _
    rw [hsame]
  rcases writeToDisk_cases s' with ⟨hwrite, -⟩ | ⟨hwrite, -⟩
  · obtain ⟨removed, hremoved, hreached⟩ := cleanMergedDir_run s'.records
      { s'.popFault .writeCache with statesJson := (s'.layers, s'.merged) }
    have hend : after mergeModules s' = after (cleanMergedDir s'.records)
        { s'.popFault .writeCache with statesJson := (s'.layers, s'.merged) } := by
      unfold after
      rw [hstart, bind_of_ok (hupdate.trans hwrite)]
    rw [← hend] at hreached
    obtain ⟨faults', hafter⟩ := hreached
    have hkeeps : ∀ step ∈ removed, step.keepsFile := by
      intro step hstep
      obtain ⟨dir, -, rfl⟩ := List.mem_map.1 (hremoved.subset hstep)
      trivial
    refine ⟨⟨hloop, ?_⟩, fun hrecorded => ?_⟩
    · rw [hafter, MergeStep.run_eq hkeeps]
      rfl
    · -- there is no directory to remove
      have hnone : (s'.mergedDirs.filter fun dir => !s'.records.any fun r => r.id = dir.1) = [] := by
        refine List.filter_eq_nil_iff.2 fun dir hdir => ?_
        obtain ⟨r, hr, hid⟩ := hrecorded dir hdir
        have hany : (s'.records.any fun r => r.id = dir.1) = true :=
          List.any_eq_true.2 ⟨r, hr, by simpa using hid⟩
        simp [hany]
      have hempty : removed = [] := by
        have hsub : removed.Sublist (List.map _ []) := hnone ▸ hremoved
        exact List.sublist_nil.1 hsub
      rw [hafter, hempty]
      rfl
  · have hend : after mergeModules s' = s'.popFault .writeCache := by
      unfold after
      rw [hstart, bind_of_error (hupdate.trans hwrite)]
    rw [hend]
    exact ⟨⟨hloop, hend ▸ rfl⟩, fun _ => rfl⟩

/-- **Specification of `mergeModules`**: one right record for each group with
    something to merge; called again, it finds them all. A directory without
    a record, which the first call failed to remove, may go in the second. -/
theorem mergeModules_spec {s s' : Repo} (hinput : MergeInput s) (hregular : Regular s)
    (h : mergeModules s = .ok () s') :
    MergedIn s s' ∧ Repeats s' ∧
      ((∀ dir ∈ s'.mergedDirs, ∃ r ∈ s'.records, r.id = dir.1) →
        (after mergeModules s').mergedDirs = s'.mergedDirs) :=
  ⟨mergedIn_of_mergeModules hinput hregular h, repeats_of_mergeModules hinput hregular h⟩

/-- Two modules of an app, with some records. -/
def sheetRepo (records : List RepositoryCacheMergedItem) : Repo :=
  { Repo.ofLayers (.ofCommits []) [⟨"d1", none, .onMain "org.sheet" "1.0.0.0" "binary", "stable"⟩,
      ⟨"d2", none, .onMain "org.sheet" "1.0.0.0" "develop", "stable"⟩] [] [] with
    merged := some records }

def sheetKey : PackageKey := ⟨"org.sheet", "1.0.0.0", "x86_64"⟩

theorem group_sheetRepo {records : List RepositoryCacheMergedItem} {k : PackageKey}
    (h : k ≠ sheetKey) : (sheetRepo records).group k = [] := by
  refine List.filter_eq_nil_iff.2 fun l hl hkey => h ?_
  have hkey : l.key = k := of_decide_eq_true hkey
  have hall : ∀ l ∈ (sheetRepo []).queryExistingLayerItem, l.key = sheetKey := by decide
  exact hkey.symm.trans (hall l hl)

theorem mergeInput_sheetRepo {records : List RepositoryCacheMergedItem}
    (h : ∀ r ∈ records, r.commits = ["d1", "d2"]) : MergeInput (sheetRepo records) where
  modules := by
    intro k
    by_cases hk : k = sheetKey
    · subst hk
      have hnodup : (((sheetRepo []).group sheetKey).map
          fun l => l.info.packageInfoV2Module).Nodup := by decide
      exact hnodup
    · rw [group_sheetRepo hk]
      exact List.nodup_nil
  injective := by
    -- there is only one list
    have hall : ∀ l ∈ (sheetRepo records).commitLists, l = ["d1", "d2"] := by
      intro l hl
      rcases List.mem_append.1 hl with hl | hl
      · have hgroups : ∀ l ∈ ((sheetRepo []).layerGroups.map fun g =>
            ((sheetRepo []).outside.sort.byModule g.2).map RepositoryCacheLayersItem.commit),
            l = ["d1", "d2"] := by decide +kernel
        exact hgroups l hl
      · obtain ⟨r, hr, rfl⟩ := List.mem_map.1 hl
        exact h r hr
    intro l hl l' hl' _
    rw [hall l hl, hall l' hl']

/-- Without records everything is made anew. -/
theorem mergeModules_spec_sheet : ∃ s', mergeModules (sheetRepo []) = .ok () s' ∧
    MergedIn (sheetRepo []) s' ∧ Repeats s' ∧
      ((∀ dir ∈ s'.mergedDirs, ∃ r ∈ s'.records, r.id = dir.1) →
        (after mergeModules s').mergedDirs = s'.mergedDirs) := by
  have hregular : Regular (sheetRepo []) := by
    refine ⟨by decide, by decide, fun k k' hk hk' _ => ?_, fun r hr => by cases hr⟩
    have hsheet : ∀ k, Mergeable ((sheetRepo []).group k) → k = sheetKey := by
      intro k hk
      by_contra hne
      rw [group_sheetRepo hne] at hk
      exact absurd hk.1 (by decide)
    rw [hsheet k hk, hsheet k' hk']
  have hreturns : returns mergeModules (sheetRepo []) = true := by decide +kernel
  obtain ⟨_, s', hrun⟩ := exists_of_returns hreturns
  exact ⟨s', hrun, mergeModules_spec (mergeInput_sheetRepo fun r hr => by cases hr) hregular hrun⟩

/-- A record with the right id and commits, but of another `binary`. -/
def staleRecord : RepositoryCacheMergedItem where
  binaryCommit := "d0"
  commits := ["d1", "d2"]
  id := "d1d2"
  modules := ["binary", "develop"]
  name := "org.sheet/1.0.0.0/x86_64"

/-- Such a record stays as it is. -/
theorem not_mergedIn : ¬ ∀ s s' : Repo, MergeInput s → mergeModules s = .ok () s' →
    MergedIn s s' ∧ Repeats s' ∧ (after mergeModules s').mergedDirs = s'.mergedDirs := by
  intro h
  have hinput : MergeInput (sheetRepo [staleRecord]) :=
    mergeInput_sheetRepo fun r hr => by rw [List.mem_singleton.1 hr]; rfl
  have hreturns : returns mergeModules (sheetRepo [staleRecord]) = true := by decide +kernel
  obtain ⟨_, s', hrun⟩ := exists_of_returns hreturns
  obtain ⟨⟨keys, records, -, -, hmerged, hrecords⟩, -, -⟩ := h _ s' hinput hrun
  obtain ⟨dirs, faults, rfl⟩ := mergeModules_ok hrun
  have hnew : (sheetRepo [staleRecord]).newRecords = [staleRecord] := by decide +kernel
  have hrec : records = [staleRecord] := by
    rw [← hnew]
    exact (Option.some.inj hmerged).symm
  subst hrec
  cases hrecords with
  | cons hdescribes hrest =>
    obtain ⟨l, hl, -, hcommit⟩ := hdescribes.binary
    have hnot : ∀ l ∈ (sheetRepo [staleRecord]).layers, l.commit ≠ "d0" := by decide
    exact hnot l (List.mem_filter.1 (List.mem_filter.1 hl).1).1 hcommit

end Repo

end Linglong
