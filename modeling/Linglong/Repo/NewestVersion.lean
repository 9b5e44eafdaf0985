import Mathlib.Data.List.Induction
import Linglong.Package.VersionOrder
import Linglong.Repo.OSTreeRepo

/-! # The Newest Version

    Where several versions of a package are known, the newest one is looked
    for by a scan that keeps the best so far. `clearReference` scans the
    records of the remote and keeps a reference unless a later one is
    greater; `listLocalLatest` scans the layers and keeps one package for
    each id.

    Both compare with `operator>=` or `operator<=`, which do not relate a
    version without tweak to its twin with tweak 0. The kept version is
    greatest by numbers all the same.

    1. The scan.
    2. `clearReference` (`clearReference_newest`).
    3. `listLocalLatest` (`listLocalLatest_spec`).
-/

namespace Linglong

open Framework

/-! ## Section 1: The scan -/

namespace Version

/-- Keep the best version so far unless the next one is greater. -/
def better (best : Option Version) (v : Version) : Option Version :=
  match best with
  | none => some v
  | some b => if b.ge v then some b else some v

/-- The version that is left after a scan. -/
def newest (vs : List Version) : Option Version := vs.foldl better none

theorem newest_concat (vs : List Version) (v : Version) :
    newest (vs ++ [v]) = better (newest vs) v := by
  rw [newest, List.foldl_append]
  rfl

theorem newest_isSome {vs : List Version} (h : vs ≠ []) : (newest vs).isSome = true := by
  induction vs using List.reverseRecOn with
  | nil => exact absurd rfl h
  | append_singleton init last _ =>
    rw [newest_concat]
    cases newest init with
    | none => rfl
    | some b =>
      show (if b.ge last then some b else some last).isSome = true
      split <;> rfl

/-- No version in the list has greater numbers. -/
theorem newest_spec {vs : List Version} {v : Version} (h : newest vs = some v) :
    v ∈ vs ∧ ∀ w ∈ vs, w.asNumbers ≤ v.asNumbers := by
  induction vs using List.reverseRecOn generalizing v with
  | nil => cases h
  | append_singleton init last ih =>
    rw [newest_concat] at h
    simp only [List.mem_append, List.mem_singleton]
    cases hinit : newest init with
    | none =>
      rw [hinit] at h
      have hnil : init = [] := by
        by_contra hne
        have hsome := newest_isSome hne
        rw [hinit] at hsome
        cases hsome
      have hv : last = v := Option.some.inj h
      subst hnil hv
      simp
    | some b =>
      obtain ⟨hmem, hmax⟩ := ih hinit
      rw [hinit] at h
      -- either answer of `operator>=` orders the numbers of both versions
      change (if b.ge last then some b else some last) = some v at h
      by_cases hge : b.ge last = true
      · rw [if_pos hge] at h
        have hv : b = v := Option.some.inj h
        subst hv
        have hlast : last.asNumbers ≤ b.asNumbers := by
          rw [ge_eq_le, le_iff_eq_or_lt] at hge
          rcases hge with rfl | hlt
          · exact le_refl _
          · exact hlt.le
        exact ⟨.inl hmem, fun w hw => hw.elim (hmax w) fun hw => hw ▸ hlast⟩
      · rw [if_neg hge] at h
        have hv : last = v := Option.some.inj h
        subst hv
        have hle : b.asNumbers ≤ last.asNumbers := by
          rw [ge, Bool.or_eq_true, gt_iff, not_or] at hge
          exact not_lt.1 hge.2
        exact ⟨.inr rfl, fun w hw =>
          hw.elim (fun hw => (hmax w hw).trans hle) fun hw => hw ▸ le_refl _⟩

end Version

/-- The scan of remote records: keep the first reference, and then each one
    with a greater version. -/
def newestReference (candidate : PackageInfoV2 → Option Reference)
    (records : List PackageInfoV2) : Option Reference :=
  records.foldl (fun best record =>
    match candidate record with
    | none => best
    | some ref =>
        match best with
        | none => some ref
        | some b => if b.version.ge ref.version then some b else some ref) none

/-- The versions that are scanned. -/
def candidateVersions (candidate : PackageInfoV2 → Option Reference)
    (records : List PackageInfoV2) : List Version :=
  (records.filterMap candidate).map Reference.version

/-- **The scan** leaves the newest version. -/
theorem version_newestReference (candidate : PackageInfoV2 → Option Reference)
    (records : List PackageInfoV2) :
    (newestReference candidate records).map Reference.version =
      Version.newest (candidateVersions candidate records) := by
  induction records using List.reverseRecOn with
  | nil => rfl
  | append_singleton init record ih =>
    unfold newestReference candidateVersions at *
    rw [List.foldl_append, List.foldl_cons, List.foldl_nil, List.filterMap_append]
    cases hcandidate : candidate record with
    | none => simpa [hcandidate] using ih
    | some ref =>
      rw [List.filterMap_cons_some hcandidate, List.filterMap_nil, List.map_append, List.map_cons,
        List.map_nil, Version.newest_concat, ← ih]
      cases List.foldl _ none init with
      | none => rfl
      | some b =>
        show Option.map _ (if b.version.ge ref.version then some b else some ref) =
          if b.version.ge ref.version then some b.version else some ref.version
        split <;> rfl

/-! ## Section 2: Remote records -/

section Scan

variable {candidate : PackageInfoV2 → Option Reference} {records : List PackageInfoV2}

/-- What is kept comes from a record. -/
theorem newestReference_mem {ref : Reference} (h : newestReference candidate records = some ref) :
    ∃ record ∈ records, candidate record = some ref := by
  induction records using List.reverseRecOn generalizing ref with
  | nil => cases h
  | append_singleton init record ih =>
    unfold newestReference at h
    rw [List.foldl_append, List.foldl_cons, List.foldl_nil] at h
    cases hcandidate : candidate record with
    | none =>
      rw [hcandidate] at h
      obtain ⟨r, hr, hcand⟩ := ih h
      exact ⟨r, List.mem_append_left _ hr, hcand⟩
    | some ref' =>
      rw [hcandidate] at h
      cases hinit : newestReference candidate init with
      | none =>
        unfold newestReference at hinit
        rw [hinit] at h
        exact ⟨record, by simp, hcandidate.trans h⟩
      | some b =>
        obtain ⟨r, hr, hcand⟩ := ih hinit
        unfold newestReference at hinit
        rw [hinit] at h
        change (if b.version.ge ref'.version then some b else some ref') = some ref at h
        -- the record of before stays unless the new one is later
        by_cases hge : b.version.ge ref'.version = true
        · rw [if_pos hge] at h
          exact ⟨r, List.mem_append_left _ hr, hcand.trans h⟩
        · rw [if_neg hge] at h
          exact ⟨record, by simp, hcandidate.trans h⟩

/-- No record has greater numbers. -/
theorem newestReference_max {ref : Reference} (h : newestReference candidate records = some ref)
    {record : PackageInfoV2} (hrecord : record ∈ records) {other : Reference}
    (hother : candidate record = some other) : other.version.asNumbers ≤ ref.version.asNumbers := by
  have hnewest : Version.newest (candidateVersions candidate records) = some ref.version := by
    rw [← version_newestReference, h]
    rfl
  refine (Version.newest_spec hnewest).2 _ ?_
  exact List.mem_map_of_mem (List.mem_filterMap.2 ⟨record, hrecord, hother⟩)

theorem newestReference_isSome_iff : (newestReference candidate records).isSome = true ↔
    ∃ record ∈ records, (candidate record).isSome = true := by
  constructor
  · intro h
    obtain ⟨ref, href⟩ := Option.isSome_iff_exists.1 h
    obtain ⟨record, hrecord, hcandidate⟩ := newestReference_mem href
    exact ⟨record, hrecord, by rw [hcandidate]; rfl⟩
  · rintro ⟨record, hrecord, h⟩
    obtain ⟨ref, href⟩ := Option.isSome_iff_exists.1 h
    have hne : candidateVersions candidate records ≠ [] :=
      List.ne_nil_of_mem (List.mem_map_of_mem (List.mem_filterMap.2 ⟨record, hrecord, href⟩))
    have hsome := Version.newest_isSome hne
    rw [← version_newestReference, Option.isSome_map] at hsome
    exact hsome

end Scan

/-- `clearReferenceOption`. -/
structure ClearReferenceOption where
  forceRemote : Bool := false
  fallbackToRemote : Bool := true

namespace Repo

/-- Second half of `clearReference`: what the remote has, with what
    `listRemote` returns. -/
def remoteReference (fuzzy : FuzzyReference) (module : String) :
    Except String (List PackageInfoV2) → Except String Reference
  | .error e => .error ("get ref list from remote: " ++ e)
  | .ok records => clearReferenceRemote fuzzy module records

/-- `clearReference` with all its options. -/
def clearReferenceOpts (s : Repo) (fuzzy : FuzzyReference) (opts : ClearReferenceOption)
    (module : String) (list : Except String (List PackageInfoV2)) : Except String Reference :=
  if opts.forceRemote then remoteReference fuzzy module list
  else
    match s.clearReferenceLocal fuzzy with
    | .ok ref => .ok ref
    | .error e => if opts.fallbackToRemote then remoteReference fuzzy module list else .error e

theorem clearReferenceRemote_eq_ok_iff {fuzzy : FuzzyReference} {module : String}
    {records : List PackageInfoV2} {ref : Reference} :
    clearReferenceRemote fuzzy module records = .ok ref ↔
      newestReference (remoteCandidate fuzzy module) records = some ref := by
  unfold clearReferenceRemote
  simp only []
  split
  · next found hfound =>
    have hnewest : newestReference (remoteCandidate fuzzy module) records = some found := hfound
    rw [hnewest]
    simp
  · next hfound =>
    have hnewest : newestReference (remoteCandidate fuzzy module) records = none := hfound
    rw [hnewest]
    simp

/-- A record of the package that is asked for: the id, the channel if one is
    given, a version and an architecture that can be read, and the module,
    where `runtime` counts as `binary`. -/
structure Matches (fuzzy : FuzzyReference) (module : String) (record : PackageInfoV2) : Prop where
  id : record.id = fuzzy.id
  channel : ∀ c ∈ fuzzy.channel, record.channel = c
  version : ∃ v, Version.parse record.version = .ok v
  arch : ∃ a rest, record.arch = a :: rest ∧ ∃ arch, Architecture.parse a = .ok arch
  module : record.packageInfoV2Module = module ∨
    module = "binary" ∧ record.packageInfoV2Module = "runtime"

/-- The filter on the channel. -/
theorem any_ne_iff {channel : Option String} {c : String} :
    ¬ channel.any (· ≠ c) = true ↔ ∀ x ∈ channel, c = x := by
  cases channel with
  | none => simp
  | some x => simpa using eq_comm

/-- The filter on the module. -/
theorem module_filter_iff {module m : String} :
    ¬ (if module = "binary" then m ≠ "binary" ∧ m ≠ "runtime" else m ≠ module) ↔
      m = module ∨ module = "binary" ∧ m = "runtime" := by
  by_cases hbinary : module = "binary"
  · subst hbinary
    rw [if_pos rfl, not_and_or, not_not, not_not]
    exact or_congr_right ⟨fun h => ⟨rfl, h⟩, And.right⟩
  · rw [if_neg hbinary, not_not]
    exact ⟨.inl, fun h => h.resolve_right fun hruntime => hbinary hruntime.1⟩

/-- The filters of the loop. -/
theorem remoteCandidate_eq_some_iff {fuzzy : FuzzyReference} {module : String}
    {record : PackageInfoV2} {ref : Reference} :
    remoteCandidate fuzzy module record = some ref ↔
      Matches fuzzy module record ∧ record.channel ≠ "" ∧
        Version.parse record.version = .ok ref.version ∧
        Architecture.parse (record.arch.headD "") = .ok ref.arch ∧
        ref.channel = record.channel ∧ ref.id = record.id := by
  unfold remoteCandidate
  constructor
  · intro h
    -- the six ways to leave the round without a candidate
    split at h
    · cases h
    next hchannel =>
    split at h
    · cases h
    next hid =>
    split at h
    · cases h
    next version hversion =>
    split at h
    · cases h
    next harch =>
    by_cases hmodule : (if module = "binary" then record.packageInfoV2Module ≠ "binary" ∧
        record.packageInfoV2Module ≠ "runtime" else record.packageInfoV2Module ≠ module)
    · rw [if_pos hmodule] at h
      cases h
    rw [if_neg hmodule] at h
    split at h
    · cases h
    next arch hparse =>
    cases hcreate : Reference.create record.channel fuzzy.id version arch with
    | error e => rw [hcreate] at h; cases h
    | ok ref' =>
      rw [hcreate] at h
      cases h
      obtain ⟨hc, hi, hv, ha⟩ := Reference.create_eq_ok_iff.1 hcreate
      obtain ⟨a, rest, hlist⟩ := List.exists_cons_of_ne_nil harch
      rw [not_not] at hid
      have hmatches : Matches fuzzy module record :=
        ⟨hid.symm, any_ne_iff.1 hchannel, ⟨version, hversion⟩,
          ⟨a, rest, hlist, arch, by rwa [hlist] at hparse⟩, module_filter_iff.1 hmodule⟩
      have hne : record.channel ≠ "" := hc ▸ ref.channel_ne
      exact ⟨hmatches, hne, by rw [hv, hversion], by rw [ha, hparse], hc, hi.trans hid⟩
  · rintro ⟨⟨hid, hchannel, -, ⟨a, rest, hlist, -⟩, hmodule⟩, -, hversion, harch, hc, hi⟩
    have hlist' : record.arch ≠ [] := by simp [hlist]
    have hcreate : Reference.create record.channel fuzzy.id ref.version ref.arch = .ok ref :=
      Reference.create_eq_ok_iff.2 ⟨hc, hi.trans hid, rfl, rfl⟩
    rw [if_neg (any_ne_iff.2 hchannel), if_neg (by rw [hid]; simp), hversion]
    simp only []
    rw [if_neg hlist', if_neg (module_filter_iff.2 hmodule), harch]
    simp only []
    rw [hcreate]
    rfl

/-- A record that matches is a candidate if its channel is not empty. -/
theorem Matches.exists_candidate {fuzzy : FuzzyReference} {module : String}
    {record : PackageInfoV2} {v : Version} (h : Matches fuzzy module record)
    (hchannel : record.channel ≠ "") (hv : Version.parse record.version = .ok v) :
    ∃ ref, remoteCandidate fuzzy module record = some ref ∧ ref.version = v := by
  obtain ⟨a, rest, hlist, arch, harch⟩ := h.arch
  have hid : record.id ≠ "" := by
    rw [h.id]
    exact fuzzy.id_ne
  have harch' : Architecture.parse (record.arch.headD "") = .ok arch := by
    rw [hlist]
    exact harch
  exact ⟨⟨record.channel, record.id, v, arch, hchannel, hid⟩,
    remoteCandidate_eq_some_iff.2 ⟨h, hchannel, hv, harch', rfl, rfl⟩, rfl⟩

/-- **Remote resolution**: a reference is found iff a record matches whose
    channel is not empty, and it is one of the newest. The order of the
    records does not change the numbers of its version. -/
theorem clearReference_newest (s : Repo) (fuzzy : FuzzyReference) (fallback : Bool)
    (module : String) (records : List PackageInfoV2) :
    ((∃ ref, s.clearReferenceOpts fuzzy ⟨true, fallback⟩ module (.ok records) = .ok ref) ↔
      ∃ record ∈ records, Matches fuzzy module record ∧ record.channel ≠ "") ∧
    (∀ ref, s.clearReferenceOpts fuzzy ⟨true, fallback⟩ module (.ok records) = .ok ref →
      (∃ record ∈ records, Matches fuzzy module record ∧
        Version.parse record.version = .ok ref.version ∧
        Architecture.parse (record.arch.headD "") = .ok ref.arch ∧
        ref.channel = record.channel ∧ ref.id = record.id) ∧
      ∀ record ∈ records, Matches fuzzy module record → record.channel ≠ "" →
        ∀ v, Version.parse record.version = .ok v → ref.version.lt v = false) ∧
    ∀ records', records.Perm records' → ∀ ref ref',
      s.clearReferenceOpts fuzzy ⟨true, fallback⟩ module (.ok records) = .ok ref →
      s.clearReferenceOpts fuzzy ⟨true, fallback⟩ module (.ok records') = .ok ref' →
      ref.version.asNumbers = ref'.version.asNumbers := by
  have hfound : ∀ rs ref, s.clearReferenceOpts fuzzy ⟨true, fallback⟩ module (.ok rs) = .ok ref ↔
      newestReference (remoteCandidate fuzzy module) rs = some ref :=
    fun rs ref => clearReferenceRemote_eq_ok_iff
  refine ⟨?_, fun ref href => ?_, fun records' hperm ref ref' href href' => ?_⟩
  · -- some record passes the filters
    simp only [hfound, ← Option.isSome_iff_exists]
    rw [newestReference_isSome_iff]
    refine exists_congr fun record => and_congr_right fun _ => ?_
    constructor
    · intro h
      obtain ⟨ref, href⟩ := Option.isSome_iff_exists.1 h
      obtain ⟨hmatches, hne, -⟩ := remoteCandidate_eq_some_iff.1 href
      exact ⟨hmatches, hne⟩
    · rintro ⟨hmatches, hne⟩
      obtain ⟨v, hv⟩ := hmatches.version
      obtain ⟨ref, href, -⟩ := hmatches.exists_candidate hne hv
      rw [href]
      rfl
  · rw [hfound] at href
    constructor
    · obtain ⟨record, hrecord, hcand⟩ := newestReference_mem href
      obtain ⟨hmatches, -, hrest⟩ := remoteCandidate_eq_some_iff.1 hcand
      exact ⟨record, hrecord, hmatches, hrest⟩
    · intro record hrecord hmatches hne v hv
      obtain ⟨other, hother, rfl⟩ := hmatches.exists_candidate hne hv
      have hle := newestReference_max href hrecord hother
      rw [← Bool.not_eq_true, Version.lt_iff]
      exact not_lt.2 hle
  · -- each of both references bounds the other one
    rw [hfound] at href href'
    obtain ⟨record, hrecord, hcand⟩ := newestReference_mem href
    obtain ⟨record', hrecord', hcand'⟩ := newestReference_mem href'
    have hle := newestReference_max href (hperm.mem_iff.2 hrecord') hcand'
    have hge := newestReference_max href' (hperm.mem_iff.1 hrecord) hcand
    exact le_antisymm hge hle

/-- A record without channel matches, but it gives no reference. -/
theorem not_clearReference_newest : ¬ ∀ (s : Repo) (fuzzy : FuzzyReference) (fallback : Bool)
    (module : String) (records : List PackageInfoV2),
    (∃ ref, s.clearReferenceOpts fuzzy ⟨true, fallback⟩ module (.ok records) = .ok ref) ↔
      ∃ record ∈ records, Matches fuzzy module record := by
  intro h
  have hiff := h (.ofLayers (.ofCommits []) [] [] []) ⟨none, "app", none, none, by decide, by decide⟩
    false "binary" [{ PackageInfoV2.onMain "app" "1.0.0.0" "binary" with channel := "" }]
  have hmatches : Matches ⟨none, "app", none, none, by decide, by decide⟩ "binary"
      { PackageInfoV2.onMain "app" "1.0.0.0" "binary" with channel := "" } :=
    ⟨rfl, by simp, ⟨⟨1, 0, 0, some 0⟩, by decide⟩, ⟨"x86_64", [], rfl, .x86_64, rfl⟩, .inl rfl⟩
  obtain ⟨ref, href⟩ := hiff.2 ⟨_, List.mem_singleton.2 rfl, hmatches⟩
  have hnone : newestReference (remoteCandidate ⟨none, "app", none, none, by decide, by decide⟩
      "binary") [{ PackageInfoV2.onMain "app" "1.0.0.0" "binary" with channel := "" }] = none := by
    decide
  rw [clearReferenceOpts, if_pos rfl, remoteReference, clearReferenceRemote_eq_ok_iff, hnone] at href
  cases href

end Repo

/-! ## Section 3: Local packages -/

namespace Repo

/-- One round of the loop of `listLocalLatest`. -/
def latestStep (pkgInfos : List PackageInfoV2) (item : RepositoryCacheLayersItem) :
    Except String (List PackageInfoV2) :=
  match pkgInfos.find? fun info => item.info.id == info.id with
  | none => .ok (pkgInfos ++ [item.info])
  | some it => do
      let pkgInfoVersion ← Version.parse it.version
      let itemVersion ← Version.parse item.info.version
      if itemVersion.le pkgInfoVersion then return pkgInfos
      else return pkgInfos.eraseP (fun info => item.info.id == info.id) ++ [item.info]

/-- `listLocalLatest`. -/
def listLocalLatest (s : Repo) : Except String (List PackageInfoV2) :=
  s.queryExistingLayerItem.foldlM latestStep []

end Repo

/-- What can be read back from the texts of versions. -/
def readVersions (texts : List String) : List Version :=
  texts.filterMap fun text => (Version.parse text).toOption

/-- The versions of a package among some items. -/
def versionsOf (items : List RepositoryCacheLayersItem) (id : String) : List Version :=
  readVersions ((items.filter (·.info.id = id)).map (·.info.version))

theorem versionsOf_of_ne {items : List RepositoryCacheLayersItem} {item : RepositoryCacheLayersItem}
    {id : String} (h : item.info.id ≠ id) :
    versionsOf (items ++ [item]) id = versionsOf items id := by
  simp [versionsOf, List.filter_append, h]

theorem versionsOf_self (items : List RepositoryCacheLayersItem)
    (item : RepositoryCacheLayersItem) : versionsOf (items ++ [item]) item.info.id =
      versionsOf items item.info.id ++ (Version.parse item.info.version).toOption.toList := by
  have hone : versionsOf [item] item.info.id = (Version.parse item.info.version).toOption.toList := by
    unfold versionsOf readVersions
    rw [List.filter_cons_of_pos (by simp), List.filter_nil, List.map_singleton,
      List.filterMap_cons]
    cases (Version.parse item.info.version).toOption <;> rfl
  rw [← hone]
  unfold versionsOf readVersions
  rw [List.filter_append, List.map_append, List.filterMap_append]

/-- What `listLocalLatest` has kept of some items. -/
structure Latest (items : List RepositoryCacheLayersItem) (pkgs : List PackageInfoV2) : Prop where
  nodup : (pkgs.map PackageInfoV2.id).Nodup
  covers : ∀ item ∈ items, item.info.id ∈ pkgs.map PackageInfoV2.id
  newest : ∀ pkg ∈ pkgs,
    (Version.parse pkg.version).toOption = Version.newest (versionsOf items pkg.id)

theorem Latest.nil : Latest [] [] := ⟨List.nodup_nil, by simp, by simp⟩

section Round

variable {items : List RepositoryCacheLayersItem} {pkgs pkgs' : List PackageInfoV2}
  {item : RepositoryCacheLayersItem} {it : PackageInfoV2} {old v : Version}

/-- What a round can do: append the first package of its id, keep one whose
    version is as good, or replace it. -/
theorem latestStep_cases (h : Repo.latestStep pkgs item = .ok pkgs') :
    (∀ info ∈ pkgs, item.info.id ≠ info.id) ∧ pkgs' = pkgs ++ [item.info] ∨
      ∃ it ∈ pkgs, item.info.id = it.id ∧ ∃ old v, Version.parse it.version = .ok old ∧
        Version.parse item.info.version = .ok v ∧
          (v.le old = true ∧ pkgs' = pkgs ∨
            ¬ v.le old = true ∧
              pkgs' = pkgs.eraseP (fun info => item.info.id == info.id) ++ [item.info]) := by
  unfold Repo.latestStep at h
  split at h
  · next hfind =>
    cases h
    exact .inl ⟨by simpa using hfind, rfl⟩
  · next it hfind =>
    have hit : it ∈ pkgs := List.mem_of_find?_eq_some hfind
    have hid : item.info.id = it.id := by simpa using List.find?_some hfind
    simp only [bind_eq_ok_iff] at h
    obtain ⟨old, hold, v, hv, h⟩ := h
    refine .inr ⟨it, hit, hid, old, v, hold, hv, ?_⟩
    by_cases hle : v.le old = true
    · rw [if_pos hle] at h
      cases h
      exact .inl ⟨hle, rfl⟩
    · rw [if_neg hle] at h
      cases h
      exact .inr ⟨hle, rfl⟩

/-- The versions of other packages stay. -/
theorem Latest.newest_of_ne (h : Latest items pkgs) {pkg : PackageInfoV2} (hpkg : pkg ∈ pkgs)
    (hne : item.info.id ≠ pkg.id) : (Version.parse pkg.version).toOption =
      Version.newest (versionsOf (items ++ [item]) pkg.id) := by
  rw [versionsOf_of_ne hne]
  exact h.newest pkg hpkg

/-- What has no package has no version. -/
theorem Latest.versionsOf_eq_nil (h : Latest items pkgs) {id : String}
    (hnew : ∀ info ∈ pkgs, id ≠ info.id) : versionsOf items id = [] := by
  have hfilter : items.filter (·.info.id = id) = [] := by
    refine List.filter_eq_nil_iff.2 fun i hi hid => ?_
    obtain ⟨info, hinfo, hsame⟩ := List.mem_map.1 (h.covers i hi)
    exact hnew info hinfo ((of_decide_eq_true hid).symm.trans hsame.symm)
  rw [versionsOf, hfilter]
  rfl

/-- The first item of its package. -/
theorem Latest.push (h : Latest items pkgs) (hnew : ∀ info ∈ pkgs, item.info.id ≠ info.id) :
    Latest (items ++ [item]) (pkgs ++ [item.info]) where
  nodup := by
    rw [List.map_append, List.map_singleton, List.nodup_append]
    refine ⟨h.nodup, List.nodup_singleton _, ?_⟩
    intro id hid id' hid' heq
    obtain ⟨info, hinfo, rfl⟩ := List.mem_map.1 hid
    rw [List.mem_singleton.1 hid'] at heq
    exact hnew info hinfo heq.symm
  covers := by
    intro i hi
    rw [List.map_append, List.mem_append]
    rcases List.mem_append.1 hi with hi | hi
    · exact .inl (h.covers i hi)
    · rw [List.mem_singleton.1 hi]
      exact .inr (by simp)
  newest := by
    intro pkg hpkg
    rcases List.mem_append.1 hpkg with hpkg | hpkg
    · exact h.newest_of_ne hpkg (hnew pkg hpkg)
    · rw [List.mem_singleton.1 hpkg, versionsOf_self, h.versionsOf_eq_nil hnew]
      cases Version.parse item.info.version <;> rfl

theorem Latest.covers_concat (h : Latest items pkgs) (hit : it ∈ pkgs)
    (hid : item.info.id = it.id) :
    ∀ i ∈ items ++ [item], i.info.id ∈ pkgs.map PackageInfoV2.id := by
  intro i hi
  rcases List.mem_append.1 hi with hi | hi
  · exact h.covers i hi
  · rw [List.mem_singleton.1 hi, hid]
    exact List.mem_map_of_mem hit

/-- The better one of the version that is kept and the version of the item. -/
theorem Latest.newest_concat (h : Latest items pkgs) (hit : it ∈ pkgs)
    (hid : item.info.id = it.id) (hold : Version.parse it.version = .ok old)
    (hv : Version.parse item.info.version = .ok v) :
    Version.newest (versionsOf (items ++ [item]) item.info.id) =
      if v.le old then some old else some v := by
  have hnewest := h.newest it hit
  rw [hold, ← hid] at hnewest
  rw [versionsOf_self, hv]
  show Version.newest (_ ++ [v]) = _
  rw [Version.newest_concat, ← hnewest, ← Version.ge_eq_le]
  rfl

/-- An item that is not newer changes nothing. -/
theorem Latest.keep (h : Latest items pkgs) (hit : it ∈ pkgs) (hid : item.info.id = it.id)
    (hold : Version.parse it.version = .ok old) (hv : Version.parse item.info.version = .ok v)
    (hle : v.le old = true) : Latest (items ++ [item]) pkgs where
  nodup := h.nodup
  covers := h.covers_concat hit hid
  newest := by
    intro pkg hpkg
    by_cases hsame : item.info.id = pkg.id
    · have heq : pkg = it := List.inj_on_of_nodup_map h.nodup hpkg hit (hsame.symm.trans hid)
      rw [← hsame, h.newest_concat hit hid hold hv, if_pos hle, heq, hold]
      rfl
    · exact h.newest_of_ne hpkg hsame

/-- The ids stay when a package is replaced by one of the same id. -/
theorem perm_replace (hit : it ∈ pkgs) (hid : item.info.id = it.id) :
    (pkgs.map PackageInfoV2.id).Perm
      ((pkgs.eraseP (fun info => item.info.id == info.id) ++ [item.info]).map
        PackageInfoV2.id) := by
  obtain ⟨a, before, after, -, ha, hpkgs, herase⟩ := List.exists_of_eraseP
    (p := fun info => item.info.id == info.id) hit (by simpa using hid)
  have hsame : item.info.id = a.id := by simpa using ha
  rw [herase, hpkgs, List.map_append, List.map_append, List.map_append, List.map_cons, ← hsame,
    List.append_assoc]
  exact List.Perm.append_left _ (List.perm_append_singleton _ _).symm

/-- A newer item takes the place of the package. -/
theorem Latest.replace (h : Latest items pkgs) (hit : it ∈ pkgs) (hid : item.info.id = it.id)
    (hold : Version.parse it.version = .ok old) (hv : Version.parse item.info.version = .ok v)
    (hle : ¬ v.le old = true) : Latest (items ++ [item])
      (pkgs.eraseP (fun info => item.info.id == info.id) ++ [item.info]) := by
  have hperm := perm_replace hit hid
  have hnodup := hperm.nodup_iff.1 h.nodup
  refine ⟨hnodup, fun i hi => hperm.mem_iff.1 (h.covers_concat hit hid i hi), ?_⟩
  intro pkg hpkg
  rw [List.map_append, List.nodup_append] at hnodup
  rcases List.mem_append.1 hpkg with hpkg | hpkg
  · -- no package that is left has the id
    have hne : item.info.id ≠ pkg.id := by
      intro hsame
      exact hnodup.2.2 _ (List.mem_map_of_mem hpkg) _ (List.mem_singleton.2 rfl) hsame.symm
    exact h.newest_of_ne (List.mem_of_mem_eraseP hpkg) hne
  · rw [List.mem_singleton.1 hpkg, h.newest_concat hit hid hold hv, if_neg hle, hv]
    rfl

/-- **Step**: another item. -/
theorem Latest.latestStep (h : Latest items pkgs)
    (hstep : Repo.latestStep pkgs item = .ok pkgs') : Latest (items ++ [item]) pkgs' := by
  rcases latestStep_cases hstep with
    ⟨hnew, rfl⟩ | ⟨it, hit, hid, old, v, hold, hv, ⟨hle, rfl⟩ | ⟨hle, rfl⟩⟩
  · exact h.push hnew
  · exact h.keep hit hid hold hv hle
  · exact h.replace hit hid hold hv hle

end Round

/-- **Run**: `listLocalLatest` keeps the newest version of each package. -/
theorem latest_foldlM {items : List RepositoryCacheLayersItem} {pkgs : List PackageInfoV2}
    (h : items.foldlM Repo.latestStep [] = .ok pkgs) : Latest items pkgs := by
  induction items using List.reverseRecOn generalizing pkgs with
  | nil =>
    cases h
    exact .nil
  | append_singleton items item ih =>
    obtain ⟨init, hinit, hround⟩ := foldlM_concat_eq_ok_iff.1 h
    exact (ih hinit).latestStep hround

/-! ### What is listed -/

/-- Every package that is kept is one of some items. -/
def KeptFrom (items : List RepositoryCacheLayersItem) (pkgs : List PackageInfoV2) : Prop :=
  ∀ pkg ∈ pkgs, ∃ item ∈ items, item.info = pkg

/-- **Step**: if versions can be read, a round succeeds, and it keeps what it
    had or the package of its item. -/
theorem exists_latestStep {items : List RepositoryCacheLayersItem} {pkgs : List PackageInfoV2}
    {item : RepositoryCacheLayersItem}
    (hparse : ∀ i ∈ items, ∃ v, Version.parse i.info.version = .ok v) (hitem : item ∈ items)
    (hkept : KeptFrom items pkgs) :
    ∃ pkgs', Repo.latestStep pkgs item = .ok pkgs' ∧ KeptFrom items pkgs' := by
  have happend : ∀ {init : List PackageInfoV2}, (∀ pkg ∈ init, pkg ∈ pkgs) →
      KeptFrom items (init ++ [item.info]) := by
    intro init hinit pkg hpkg
    rcases List.mem_append.1 hpkg with hpkg | hpkg
    · exact hkept pkg (hinit pkg hpkg)
    · exact ⟨item, hitem, (List.mem_singleton.1 hpkg).symm⟩
  unfold Repo.latestStep
  split
  · exact ⟨_, rfl, happend fun _ h => h⟩
  · next it hfind =>
    obtain ⟨i, hi, rfl⟩ := hkept it (List.mem_of_find?_eq_some hfind)
    obtain ⟨old, hold⟩ := hparse i hi
    obtain ⟨v, hv⟩ := hparse item hitem
    rw [hold, hv]
    show ∃ pkgs', (if v.le old then _ else _) = _ ∧ _
    by_cases hle : v.le old = true
    · rw [if_pos hle]
      exact ⟨_, rfl, hkept⟩
    · rw [if_neg hle]
      exact ⟨_, rfl, happend fun _ h => List.mem_of_mem_eraseP h⟩

/-- **Run**: so all rounds do. -/
theorem exists_latest {items rest : List RepositoryCacheLayersItem} {pkgs : List PackageInfoV2}
    (hparse : ∀ i ∈ items, ∃ v, Version.parse i.info.version = .ok v)
    (hrest : ∀ item ∈ rest, item ∈ items) (hkept : KeptFrom items pkgs) :
    ∃ pkgs', rest.foldlM Repo.latestStep pkgs = .ok pkgs' ∧ KeptFrom items pkgs' := by
  induction rest generalizing pkgs with
  | nil => exact ⟨pkgs, rfl, hkept⟩
  | cons item rest ih =>
    obtain ⟨next, hstep, hnext⟩ := exists_latestStep hparse (hrest item (by simp)) hkept
    obtain ⟨pkgs', hrun, hkept'⟩ := ih (fun i hi => hrest i (List.mem_cons_of_mem _ hi)) hnext
    refine ⟨pkgs', ?_, hkept'⟩
    rw [List.foldlM_cons, hstep]
    exact hrun

/-- The versions of the items of a package. -/
theorem mem_versionsOf {items : List RepositoryCacheLayersItem} {item : RepositoryCacheLayersItem}
    (hitem : item ∈ items) {v : Version} (hv : Version.parse item.info.version = .ok v) :
    v ∈ versionsOf items item.info.id := by
  refine List.mem_filterMap.2 ⟨item.info.version, ?_, by rw [hv]; rfl⟩
  exact List.mem_map_of_mem (List.mem_filter.2 ⟨hitem, decide_eq_true rfl⟩)

theorem mem_queryExistingLayerItem {s : Repo} {item : RepositoryCacheLayersItem} :
    item ∈ s.queryExistingLayerItem ↔ item ∈ s.layers ∧ item.isDeleted = false := by
  rw [Repo.queryExistingLayerItem, List.mem_filter, Bool.not_eq_true']

/-- **The newest packages**: one for each id, and none of a lower version
    than an item of the id. -/
theorem listLocalLatest_spec {s : Repo}
    (hparse : ∀ item ∈ s.layers, ∃ v, Version.parse item.info.version = .ok v) :
    ∃ pkgs, s.listLocalLatest = .ok pkgs ∧ (pkgs.map PackageInfoV2.id).Nodup ∧
      (∀ id, id ∈ pkgs.map PackageInfoV2.id ↔
        ∃ item ∈ s.layers, item.isDeleted = false ∧ item.info.id = id) ∧
      ∀ pkg ∈ pkgs, (∃ item ∈ s.layers, item.isDeleted = false ∧ item.info = pkg) ∧
        ∀ item ∈ s.layers, item.isDeleted = false → item.info.id = pkg.id →
          ∀ v w, Version.parse pkg.version = .ok v → Version.parse item.info.version = .ok w →
            v.lt w = false := by
  have hparse' : ∀ item ∈ s.queryExistingLayerItem,
      ∃ v, Version.parse item.info.version = .ok v :=
    fun item hitem => hparse item (mem_queryExistingLayerItem.1 hitem).1
  have hnone : KeptFrom s.queryExistingLayerItem [] := by
    simp [KeptFrom]
  obtain ⟨pkgs, hlist, hkept⟩ := exists_latest hparse' (fun _ h => h) hnone
  have hlatest : Latest s.queryExistingLayerItem pkgs := latest_foldlM hlist
  -- the four facts are parts of the invariant of the loop
  refine ⟨pkgs, hlist, hlatest.nodup, fun id => ⟨?_, ?_⟩, fun pkg hpkg => ⟨?_, ?_⟩⟩
  · intro hid
    obtain ⟨pkg, hpkg, rfl⟩ := List.mem_map.1 hid
    obtain ⟨item, hitem, rfl⟩ := hkept pkg hpkg
    obtain ⟨hmem, hlive⟩ := mem_queryExistingLayerItem.1 hitem
    exact ⟨item, hmem, hlive, rfl⟩
  · rintro ⟨item, hmem, hlive, rfl⟩
    exact hlatest.covers item (mem_queryExistingLayerItem.2 ⟨hmem, hlive⟩)
  · obtain ⟨item, hitem, hinfo⟩ := hkept pkg hpkg
    obtain ⟨hmem, hlive⟩ := mem_queryExistingLayerItem.1 hitem
    exact ⟨item, hmem, hlive, hinfo⟩
  · intro item hmem hlive hid v w hv hw
    have hnewest := hlatest.newest pkg hpkg
    rw [hv] at hnewest
    have hle := (Version.newest_spec hnewest.symm).2 w
      (hid ▸ mem_versionsOf (mem_queryExistingLayerItem.2 ⟨hmem, hlive⟩) hw)
    rw [← Bool.not_eq_true, Version.lt_iff]
    exact not_lt.2 hle

/-- Two versions of an app, the newer one added first. -/
def noteRepo : Repo :=
  .ofLayers (.ofCommits []) [⟨"c1", none, .onMain "org.note" "1.10.0.0" "binary", "stable"⟩,
    ⟨"c2", none, .onMain "org.note" "1.9.0.0" "binary", "stable"⟩] [] []

/-- It is listed once. -/
theorem listLocalLatest_note : ∃ pkgs, noteRepo.listLocalLatest = .ok pkgs ∧
    (pkgs.map PackageInfoV2.id).Nodup ∧ "org.note" ∈ pkgs.map PackageInfoV2.id := by
  have hparse : ∀ item ∈ noteRepo.layers, ∃ v, Version.parse item.info.version = .ok v := by
    intro item hitem
    have hmem : item ∈ [_, _] := hitem
    rcases List.mem_pair.1 hmem with rfl | rfl
    · exact ⟨⟨1, 10, 0, some 0⟩, by decide⟩
    · exact ⟨⟨1, 9, 0, some 0⟩, by decide⟩
  obtain ⟨pkgs, hlist, hnodup, hids, -⟩ := listLocalLatest_spec hparse
  refine ⟨pkgs, hlist, hnodup, (hids "org.note").2 ?_⟩
  exact ⟨⟨"c1", none, .onMain "org.note" "1.10.0.0" "binary", "stable"⟩, by decide, rfl, rfl⟩

end Linglong
