import Linglong.Repo.NewestVersion

/-! # Upgradable Packages

    `ll-cli list --upgradable` and `ll-cli upgrade` show which packages have
    a newer version in the repository (`Cli::listUpgradable`);
    `PackageManager::Update` decides on its own to which version a package
    is updated. Both scan the same remote records and keep the greatest
    version, but they differ in three ways:

    - the list counts records of every module, the update only those of the
      modules `binary` and `runtime`;
    - the list starts from the newest installed version by numbers, the
      update from the one with the greatest text;
    - the list parses the id of a package as a fuzzy reference, the update
      takes it as it is.

    1. `listUpgradable`.
    2. `Update`, up to the comparison of versions.
    3. The versions that are counted.
    4. When both agree (`upgradesAgree_iff`).
-/

namespace Linglong

open Framework

/-! ## Section 1: What is listed -/

/-- `filterPackageInfosFromType`. -/
def filterPackageInfosFromType (list : List PackageInfoV2) (type : String) :
    List PackageInfoV2 :=
  if type = "all" then list else list.filter fun info => info.kind == type

/-- `api::types::v1::UpgradeListResult`. -/
structure UpgradeListResult where
  id : String
  newVersion : String
  oldVersion : String
  deriving DecidableEq

/-- One round of the loop of `listUpgradable` over the remote records. -/
def listedCandidate (fuzzy : FuzzyReference) (record : PackageInfoV2) : Option Reference :=
  if fuzzy.channel.any (· ≠ record.channel) then none
  else if fuzzy.id ≠ record.id then none
  else
    match Version.parse record.version with
    | .error _ => none
    | .ok version =>
        if record.arch = [] then none
        else
          match Architecture.parse (record.arch.headD "") with
          | .error _ => none
          | .ok arch => (Reference.create record.channel fuzzy.id version arch).toOption

/-- One round of the loop of `listUpgradable` over the packages. If the old
    version is none, the code prints this and goes on with the value of an
    error; what happens then is not defined. -/
def upgradeOf (remotePkgs : List PackageInfoV2) (pkg : PackageInfoV2) :
    Except String (Option UpgradeListResult) :=
  match FuzzyReference.parse pkg.id with
  | .error _ => .ok none
  | .ok fuzzy =>
      match newestReference (listedCandidate fuzzy) remotePkgs with
      | none => .ok none
      | some reference =>
          match Version.parse pkg.version with
          | .error e => .error ("failed to parse old version:" ++ e)
          | .ok oldVersion =>
              if reference.version.le oldVersion then .ok none
              else .ok (some ⟨pkg.id, reference.version.toString, oldVersion.toString⟩)

def upgradesOf (remotePkgs : List PackageInfoV2) :
    List PackageInfoV2 → Except String (List UpgradeListResult)
  | [] => .ok []
  | pkg :: pkgs => do
      let result ← upgradeOf remotePkgs pkg
      let upgradeList ← upgradesOf remotePkgs pkgs
      return result.toList ++ upgradeList

/-- The packages that `listUpgradable` looks at. The argument only tells
    whether to filter, by the type of the command line. -/
def shownPackages (pkgs : List PackageInfoV2) (type optionsType : String) : List PackageInfoV2 :=
  if type = "" then pkgs else filterPackageInfosFromType pkgs optionsType

/-- `Cli::listUpgradable`, with what `listRemote` returns. -/
def listUpgradable (s : Repo) (type optionsType : String)
    (remotePkgs : Except String (List PackageInfoV2)) : Except String (List UpgradeListResult) := do
  let pkgs ← s.listLocalLatest
  let _ ← FuzzyReference.parse "."
  let remotePkgs ← remotePkgs
  upgradesOf remotePkgs (shownPackages pkgs type optionsType)

/-! ## Section 2: What is updated -/

/-- `latestRemoteReference`, with what `listRemote` returns. -/
def latestRemoteReference (kind : String) (fuzzyRef : FuzzyReference)
    (records : List PackageInfoV2) : Except String Reference :=
  if kind = "app" then Repo.clearReferenceRemote { fuzzyRef with version := none } "binary" records
  else Repo.clearReferenceRemote fuzzyRef "binary" records

/-- A request that names a package and nothing else. -/
def anyVersion (id : String) (hid : id ≠ "") : FuzzyReference := ⟨none, id, none, none, by simp, hid⟩

namespace Repo

/-- `Update`: what is installed. -/
def installedFor (s : Repo) (fuzzy : FuzzyReference) :
    Except String (Reference × RepositoryCacheLayersItem) :=
  match s.clearReferenceLocal fuzzy with
  | .error _ => .error (fuzzy.toString ++ " not installed.")
  | .ok ref => do
      let layerItem ← s.getLayerItem ref "binary" none
      return (ref, layerItem)

/-- `Update`, from a request to the pair that is appended to `upgradeList`,
    with the layer item that was found. -/
def updatePair (s : Repo) (fuzzy : FuzzyReference) (records : List PackageInfoV2) :
    Except String (RepositoryCacheLayersItem × Reference × Reference) := do
  let (ref, layerItem) ← s.installedFor fuzzy
  let newRef ← latestRemoteReference layerItem.info.kind fuzzy records
  if newRef.version.le ref.version then
    .error ("remote version is " ++ newRef.version.toString ++ ", the latest version " ++
      ref.version.toString ++ " is already installed")
  else return (layerItem, ref, newRef)

end Repo

/-! ## Section 3: Versions -/

/-- The installed versions of a package, in the order of the cache. -/
def Repo.installedVersions (s : Repo) (id : String) : List Version :=
  versionsOf s.queryExistingLayerItem id

/-- The versions that `listUpgradable` counts. -/
def listedVersions (records : List PackageInfoV2) (id : String) : List Version :=
  match FuzzyReference.parse id with
  | .error _ => []
  | .ok fuzzy => candidateVersions (listedCandidate fuzzy) records

/-- The versions that `Update` counts. -/
def updateVersions (records : List PackageInfoV2) (id : String) : List Version :=
  if hid : id = "" then []
  else candidateVersions (Repo.remoteCandidate (anyVersion id hid) "binary") records

/-! ## Section 4: Agreement -/

section Listing

variable {records : List PackageInfoV2}

/-- What one package contributes to the list. -/
theorem upgradeOf_some_iff {pkg : PackageInfoV2} {e : UpgradeListResult} :
    upgradeOf records pkg = .ok (some e) ↔
      ∃ new old, Version.newest (listedVersions records pkg.id) = some new ∧
        Version.parse pkg.version = .ok old ∧ new.le old = false ∧
        e = ⟨pkg.id, new.toString, old.toString⟩ := by
  unfold upgradeOf listedVersions
  cases hparse : FuzzyReference.parse pkg.id with
  | error message =>
    simp only [Except.ok.injEq, reduceCtorEq, false_iff]
    -- an id that cannot be parsed has no records
    rintro ⟨new, old, hnew, -⟩
    cases hnew
  | ok fuzzy =>
    simp only []
    rw [← version_newestReference]
    cases newestReference (listedCandidate fuzzy) records with
    | none => simp
    | some reference =>
      cases hold : Version.parse pkg.version with
      | error message => simp
      | ok old =>
        simp only [Option.map_some, Option.some.injEq, Except.ok.injEq]
        constructor
        · intro h
          -- the last test of the loop
          by_cases hle : reference.version.le old = true
          · rw [if_pos hle] at h
            cases h
          · rw [if_neg hle] at h
            cases h
            exact ⟨_, _, rfl, rfl, by simpa using hle, rfl⟩
        · rintro ⟨new, old', rfl, rfl, hle, rfl⟩
          rw [hle]
          rfl

theorem mem_upgradesOf {pkgs : List PackageInfoV2} {list : List UpgradeListResult}
    (h : upgradesOf records pkgs = .ok list) (e : UpgradeListResult) :
    e ∈ list ↔ ∃ pkg ∈ pkgs, upgradeOf records pkg = .ok (some e) := by
  induction pkgs generalizing list with
  | nil =>
    cases h
    simp
  | cons pkg pkgs ih =>
    rw [upgradesOf] at h
    simp only [bind_eq_ok_iff] at h
    obtain ⟨result, hresult, rest, hrest, h⟩ := h
    cases h
    rw [List.mem_append, ih hrest]
    simp [hresult]

/-- The filters of the loop of `listUpgradable`. -/
theorem listedCandidate_eq_some_iff {fuzzy : FuzzyReference} {record : PackageInfoV2}
    {ref : Reference} :
    listedCandidate fuzzy record = some ref ↔
      (∀ c ∈ fuzzy.channel, record.channel = c) ∧ record.id = fuzzy.id ∧ record.arch ≠ [] ∧
        Version.parse record.version = .ok ref.version ∧
        Architecture.parse (record.arch.headD "") = .ok ref.arch ∧
        ref.channel = record.channel ∧ ref.id = record.id := by
  unfold listedCandidate
  constructor
  · -- one `split` for each filter, in the order of the loop
    intro h
    split at h
    · cases h
    next hchannel =>
    split at h
    · cases h
    next hid =>
    split at h
    · cases h
    next version hversion =>
    split at h
    · cases h
    next hlist =>
    split at h
    · cases h
    next arch harch =>
    cases hcreate : Reference.create record.channel fuzzy.id version arch with
    | error message => rw [hcreate] at h; cases h
    | ok ref' =>
      rw [hcreate] at h
      cases h
      obtain ⟨hc, hi, hv, ha⟩ := Reference.create_eq_ok_iff.1 hcreate
      rw [not_not] at hid
      exact ⟨Repo.any_ne_iff.1 hchannel, hid.symm, hlist, by rw [hv, hversion],
        by rw [ha, harch], hc, hi.trans hid⟩
  · intro ⟨hchannel, hid, hlist, hversion, harch, hc, hi⟩
    have hcreate : Reference.create record.channel fuzzy.id ref.version ref.arch = .ok ref :=
      Reference.create_eq_ok_iff.2 ⟨hc, hi.trans hid, rfl, rfl⟩
    rw [if_neg (Repo.any_ne_iff.2 hchannel), if_neg (by rw [hid]; simp), hversion]
    simp only []
    rw [if_neg hlist, harch]
    simp only []
    rw [hcreate]
    rfl

/-- `Update` counts fewer records. -/
theorem listedCandidate_of_remoteCandidate {fuzzy : FuzzyReference} {record : PackageInfoV2}
    {ref : Reference} (h : Repo.remoteCandidate fuzzy "binary" record = some ref) :
    listedCandidate fuzzy record = some ref := by
  obtain ⟨hmatches, -, hrest⟩ := Repo.remoteCandidate_eq_some_iff.1 h
  obtain ⟨a, rest, hlist, -⟩ := hmatches.arch
  exact listedCandidate_eq_some_iff.2
    ⟨hmatches.channel, hmatches.id, by simp [hlist], hrest⟩

/-- All versions that are counted were read from records. -/
theorem parse_of_listedCandidate {fuzzy : FuzzyReference} {record : PackageInfoV2}
    {ref : Reference} (h : listedCandidate fuzzy record = some ref) :
    Version.parse record.version = .ok ref.version :=
  (listedCandidate_eq_some_iff.1 h).2.2.2.1

theorem read_of_listedVersions {id : String} {v : Version} (h : v ∈ listedVersions records id) :
    id ≠ "" ∧ ∃ raw, Version.parse raw = .ok v := by
  unfold listedVersions at h
  cases hparse : FuzzyReference.parse id with
  | error message => rw [hparse] at h; cases h
  | ok fuzzy =>
    rw [hparse] at h
    obtain ⟨ref, href, rfl⟩ := List.mem_map.1 h
    obtain ⟨record, -, hrecord⟩ := List.mem_filterMap.1 href
    refine ⟨?_, record.version, parse_of_listedCandidate hrecord⟩
    rintro rfl
    have hempty : (FuzzyReference.parse "").toOption = none := by decide
    rw [hparse] at hempty
    cases hempty

theorem read_of_updateVersions {id : String} {v : Version} (h : v ∈ updateVersions records id) :
    ∃ raw, Version.parse raw = .ok v := by
  unfold updateVersions at h
  split at h
  · cases h
  · obtain ⟨ref, href, rfl⟩ := List.mem_map.1 h
    obtain ⟨record, -, hrecord⟩ := List.mem_filterMap.1 href
    exact ⟨record.version, parse_of_listedCandidate (listedCandidate_of_remoteCandidate hrecord)⟩

/-- `latestRemoteReference` of an app, for any request without a channel. -/
theorem version_latestRemoteReference {fuzzy : FuzzyReference} (hchannel : fuzzy.channel = none) :
    (latestRemoteReference "app" fuzzy records).toOption.map Reference.version =
      Version.newest (updateVersions records fuzzy.id) := by
  have hcandidate : Repo.remoteCandidate { fuzzy with version := none } "binary" =
      Repo.remoteCandidate (anyVersion fuzzy.id fuzzy.id_ne) "binary" := by
    obtain ⟨channel, id, version, arch, hc, hi⟩ := fuzzy
    subst hchannel
    rfl
  have hscan : (latestRemoteReference "app" fuzzy records).toOption =
      newestReference (Repo.remoteCandidate { fuzzy with version := none } "binary") records := by
    unfold latestRemoteReference Repo.clearReferenceRemote
    rw [if_pos rfl]
    simp only []
    split
    · next ref hfound => exact hfound.symm
    · next hfound => exact hfound.symm
  rw [hscan, hcandidate, updateVersions, dif_neg fuzzy.id_ne, version_newestReference]

/-- The packages that the list is made from. -/
def Repo.shown (s : Repo) (type optionsType : String) : List PackageInfoV2 :=
  match s.listLocalLatest with
  | .error _ => []
  | .ok pkgs => shownPackages pkgs type optionsType

/-- A record that is counted has a newer version than what is installed. -/
def Offered (s : Repo) (records : List PackageInfoV2) (id : String) (new old : Version) : Prop :=
  Version.newest (listedVersions records id) = some new ∧
    Version.newest (s.installedVersions id) = some old ∧ new.le old = false

/-- **The list**: the shown packages for which something newer is offered. -/
theorem mem_listUpgradable {s : Repo} {type optionsType : String} {list : List UpgradeListResult}
    (h : listUpgradable s type optionsType (.ok records) = .ok list) (e : UpgradeListResult) :
    e ∈ list ↔ ∃ pkg ∈ s.shown type optionsType, ∃ new old, Offered s records pkg.id new old ∧
      e = ⟨pkg.id, new.toString, old.toString⟩ := by
  unfold listUpgradable at h
  simp only [bind_eq_ok_iff, Except.ok.injEq, exists_eq_left'] at h
  obtain ⟨pkgs, hpkgs, -, -, h⟩ := h
  have hshown : s.shown type optionsType = shownPackages pkgs type optionsType := by
    unfold Repo.shown
    rw [hpkgs]
  have hlatest : Latest s.queryExistingLayerItem pkgs := latest_foldlM hpkgs
  have hsub : ∀ pkg ∈ shownPackages pkgs type optionsType, pkg ∈ pkgs := by
    intro pkg hpkg
    unfold shownPackages filterPackageInfosFromType at hpkg
    split at hpkg
    · exact hpkg
    · split at hpkg
      · exact hpkg
      · exact (List.mem_filter.1 hpkg).1
  rw [mem_upgradesOf h, hshown]
  refine exists_congr fun pkg => and_congr_right fun hpkg => ?_
  rw [upgradeOf_some_iff]
  refine exists_congr fun new => exists_congr fun old => ?_
  -- the version of a shown package is the newest installed one
  have hold : Version.parse pkg.version = .ok old ↔
      Version.newest (s.installedVersions pkg.id) = some old := by
    rw [Repo.installedVersions, ← hlatest.newest pkg (hsub pkg hpkg)]
    cases Version.parse pkg.version <;> simp [Except.toOption]
  rw [hold, Offered, and_assoc, and_assoc]

/-- Apps are not filtered out. -/
def ShowsApps (type optionsType : String) : Prop :=
  type = "" ∨ optionsType = "all" ∨ optionsType = "app"

/-- The id is that of an app among the packages of the list. -/
def Repo.ShowsApp (s : Repo) (type optionsType id : String) : Prop :=
  ∃ pkg ∈ s.shown type optionsType, pkg.id = id ∧ pkg.kind = "app"

/-- The list agrees with `Update`: every new version in it for an app is the
    one that the app is updated to, and every app that can be updated is in
    it. -/
structure UpgradesAgree (s : Repo) (type optionsType : String) (records : List PackageInfoV2)
    (list : List UpgradeListResult) : Prop where
  selected : ∀ e ∈ list, s.ShowsApp type optionsType e.id →
    ∀ fuzzy : FuzzyReference, fuzzy.id = e.id → fuzzy.channel = none →
    ∃ newRef, latestRemoteReference "app" fuzzy records = .ok newRef ∧
      newRef.version.toString = e.newVersion
  listed : ShowsApps type optionsType → ∀ id hid layerItem ref newRef,
    s.updatePair (anyVersion id hid) records = .ok (layerItem, ref, newRef) →
    layerItem.info.kind = "app" → ∃ e ∈ list, e.id = id

/-- What the records and the cache have to be like. -/
structure SameUpgrades (s : Repo) (type optionsType : String) (records : List PackageInfoV2) :
    Prop where
  same : ∀ id, s.ShowsApp type optionsType id → ∀ new old, Offered s records id new old →
    Version.newest (updateVersions records id) = some new
  covered : ShowsApps type optionsType → ∀ id hid ref layerItem,
    s.clearReferenceLocal (anyVersion id hid) = .ok ref →
    s.getLayerItem ref "binary" none = .ok layerItem → layerItem.info.kind = "app" →
    ∀ new, Version.newest (updateVersions records id) = some new → new.le ref.version = false →
    (∃ pkg ∈ s.shown type optionsType, pkg.id = id) ∧ ∃ new' old, Offered s records id new' old

/-- `Update` goes on iff its own newest version is newer than what it found. -/
theorem updatePair_ok_iff {s : Repo} {id : String} {hid : id ≠ ""}
    {layerItem : RepositoryCacheLayersItem} {ref newRef : Reference} :
    s.updatePair (anyVersion id hid) records = .ok (layerItem, ref, newRef) ↔
      s.clearReferenceLocal (anyVersion id hid) = .ok ref ∧
        s.getLayerItem ref "binary" none = .ok layerItem ∧
        latestRemoteReference layerItem.info.kind (anyVersion id hid) records = .ok newRef ∧
        newRef.version.le ref.version = false := by
  unfold Repo.updatePair Repo.installedFor
  constructor
  · intro h
    simp only [bind_eq_ok_iff, ite_error_eq_ok_iff, Prod.exists] at h
    obtain ⟨found, item, hfound, new, hnew, hle, h⟩ := h
    cases h
    split at hfound
    · cases hfound
    next hlocal =>
    obtain ⟨item, hitem, hend⟩ := bind_eq_ok_iff.1 hfound
    cases hend
    exact ⟨hlocal, hitem, hnew, by simpa using hle⟩
  · intro ⟨hlocal, hitem, hnew, hle⟩
    simp [hlocal, hitem, hnew, hle, bind, Except.bind, pure, Except.pure]

/-- The version that an app without more in the request is updated to. -/
theorem newest_of_latestRemoteReference {fuzzy : FuzzyReference} {newRef : Reference}
    (hchannel : fuzzy.channel = none)
    (h : latestRemoteReference "app" fuzzy records = .ok newRef) :
    Version.newest (updateVersions records fuzzy.id) = some newRef.version := by
  rw [← version_latestRemoteReference hchannel, h]
  rfl

theorem latestRemoteReference_of_newest {fuzzy : FuzzyReference} {new : Version}
    (hchannel : fuzzy.channel = none)
    (h : Version.newest (updateVersions records fuzzy.id) = some new) :
    ∃ newRef, latestRemoteReference "app" fuzzy records = .ok newRef ∧ newRef.version = new := by
  rw [← version_latestRemoteReference hchannel] at h
  cases hlatest : latestRemoteReference "app" fuzzy records with
  | error message => rw [hlatest] at h; cases h
  | ok newRef =>
    rw [hlatest] at h
    exact ⟨newRef, rfl, Option.some.inj h⟩

/-- **Agreement** of the list with `Update`. -/
theorem upgradesAgree_iff {s : Repo} {type optionsType : String} {list : List UpgradeListResult}
    (h : listUpgradable s type optionsType (.ok records) = .ok list) :
    UpgradesAgree s type optionsType records list ↔ SameUpgrades s type optionsType records := by
  have hlist := mem_listUpgradable h
  constructor
  · intro hagree
    refine ⟨fun id happ new old hoffered => ?_, ?_⟩
    · have hshown := happ
      obtain ⟨pkg, hpkg, rfl, -⟩ := happ
      have hmem := (hlist _).2 ⟨pkg, hpkg, new, old, hoffered, rfl⟩
      obtain ⟨hcounted, -⟩ := Version.newest_spec hoffered.1
      obtain ⟨hid, raw, hraw⟩ := read_of_listedVersions hcounted
      obtain ⟨newRef, hlatest, htext⟩ := hagree.selected _ hmem hshown (anyVersion pkg.id hid)
        rfl rfl
      have hnewest := newest_of_latestRemoteReference rfl hlatest
      obtain ⟨raw', hraw'⟩ := read_of_updateVersions (Version.newest_spec hnewest).1
      -- the texts agree, so the versions do
      rw [← Version.eq_of_toString_eq hraw' hraw htext]
      exact hnewest
    · intro hshows id hid ref layerItem hlocal hitem hkind new hnewest hle
      have hnamed : Version.newest (updateVersions records (anyVersion id hid).id) = some new :=
        hnewest
      obtain ⟨newRef, hlatest, rfl⟩ := latestRemoteReference_of_newest rfl hnamed
      have hpair := updatePair_ok_iff.2 ⟨hlocal, hitem, hkind ▸ hlatest, hle⟩
      obtain ⟨e, hmem, heid⟩ := hagree.listed hshows id hid layerItem ref newRef hpair hkind
      obtain ⟨pkg, hpkg, new', old, hoffered, rfl⟩ := (hlist e).1 hmem
      have hsame : pkg.id = id := heid
      rw [hsame] at hoffered
      exact ⟨⟨pkg, hpkg, hsame⟩, new', old, hoffered⟩
  · intro hsame
    refine ⟨fun e hmem happ fuzzy hid hchannel => ?_, ?_⟩
    · obtain ⟨pkg, hpkg, new, old, hoffered, rfl⟩ := (hlist e).1 hmem
      have hnewest := hsame.same pkg.id happ new old hoffered
      have hid : fuzzy.id = pkg.id := hid
      rw [← hid] at hnewest
      obtain ⟨newRef, hlatest, rfl⟩ := latestRemoteReference_of_newest hchannel hnewest
      exact ⟨newRef, hlatest, rfl⟩
    · intro hshows id hid layerItem ref newRef hpair hkind
      obtain ⟨hlocal, hitem, hlatest, hle⟩ := updatePair_ok_iff.1 hpair
      rw [hkind] at hlatest
      have hnewest : Version.newest (updateVersions records id) = some newRef.version :=
        newest_of_latestRemoteReference rfl hlatest
      obtain ⟨⟨pkg, hpkg, rfl⟩, new, old, hoffered⟩ :=
        hsame.covered hshows id hid ref layerItem hlocal hitem hkind _ hnewest hle
      exact ⟨_, (hlist _).2 ⟨pkg, hpkg, new, old, hoffered, rfl⟩, rfl⟩

end Listing

/-- An app, installed as `1.0.0.0`. -/
def drawRepo : Repo :=
  .ofLayers (.ofCommits []) [⟨"c1", none, .onMain "org.draw" "1.0.0.0" "binary", "stable"⟩] [] []

/-- A newer version of the app, as a record of some module. -/
def drawRecord (version module : String) : PackageInfoV2 := .onMain "org.draw" version module

/-- With one record there is one choice. -/
theorem upgradesAgree_draw : UpgradesAgree drawRepo "app" "app" [drawRecord "1.0.1.0" "binary"]
    [⟨"org.draw", "1.0.1.0", "1.0.0.0"⟩] := by
  have hshown : drawRepo.shown "app" "app" = [.onMain "org.draw" "1.0.0.0" "binary"] := by decide
  have hupdate : Version.newest (updateVersions [drawRecord "1.0.1.0" "binary"] "org.draw") =
      some ⟨1, 0, 1, some 0⟩ := by decide
  have hoffered : Offered drawRepo [drawRecord "1.0.1.0" "binary"] "org.draw" ⟨1, 0, 1, some 0⟩
      ⟨1, 0, 0, some 0⟩ := ⟨by decide, by decide, by decide⟩
  refine (upgradesAgree_iff (by decide)).2 ⟨?_, ?_⟩
  · rintro _ ⟨pkg, hpkg, rfl, -⟩ new old h
    rw [hshown, List.mem_singleton] at hpkg
    subst hpkg
    have hnew := h.1.symm.trans hoffered.1
    rw [hnew]
    exact hupdate
  · intro _ id hid ref layerItem _ _ _ new hnewest _
    -- there are no records of other packages
    have hdraw : id = "org.draw" := by
      by_contra hne
      have hnone : updateVersions [drawRecord "1.0.1.0" "binary"] id = [] := by
        unfold updateVersions
        rw [dif_neg hid]
        show List.map _ (List.filterMap _ [drawRecord "1.0.1.0" "binary"]) = []
        rw [List.filterMap_cons_none, List.filterMap_nil, List.map_nil]
        unfold Repo.remoteCandidate
        rw [if_neg (by simp [anyVersion])]
        exact if_pos hne
      rw [hnone] at hnewest
      cases hnewest
    subst hdraw
    exact ⟨⟨_, by rw [hshown]; exact List.mem_singleton.2 rfl, rfl⟩, _, _, hoffered⟩

/-- A newer record of the module `develop` is listed, but it is not what the
    app is updated to. -/
theorem not_upgradesAgree : ¬ ∀ (s : Repo) (type optionsType : String)
    (records : List PackageInfoV2) (list : List UpgradeListResult),
    listUpgradable s type optionsType (.ok records) = .ok list →
    UpgradesAgree s type optionsType records list := by
  intro h
  have hagree := h drawRepo "app" "app"
    [drawRecord "1.0.1.0" "binary", drawRecord "1.0.2.0" "develop"]
    [⟨"org.draw", "1.0.2.0", "1.0.0.0"⟩] (by decide)
  have happ : drawRepo.ShowsApp "app" "app" "org.draw" :=
    ⟨.onMain "org.draw" "1.0.0.0" "binary", by decide, rfl, rfl⟩
  obtain ⟨newRef, hlatest, htext⟩ := hagree.selected _ (List.mem_singleton.2 rfl) happ
    (anyVersion "org.draw" (by decide)) rfl rfl
  have hbinary : latestRemoteReference "app" (anyVersion "org.draw" (by decide))
      [drawRecord "1.0.1.0" "binary", drawRecord "1.0.2.0" "develop"] =
      .ok ⟨"main", "org.draw", ⟨1, 0, 1, some 0⟩, .x86_64, by decide, by decide⟩ := by decide
  rw [hbinary] at hlatest
  cases hlatest
  exact absurd htext (by decide)

end Linglong
