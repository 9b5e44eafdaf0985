import Linglong.Repo.LocalResolution
import Linglong.Repo.NewestVersion
import Linglong.PackageManager.Requests

/-! # The Request `Install`

    `PackageManager::Install` looks the package up three times before it
    appends a task: locally with the requested version, to refuse what is
    installed; locally in any version, to know what will be replaced; and in
    the remote. A request for a module other than `binary` and `runtime`
    asks the remote for the version that is installed, since such a module
    belongs to the `binary` of the same version.

    The comparison of both versions at the end does not know about modules.

    1. The request.
    2. When a task is appended (`installRequest_ok_iff`).
    3. Modules other than `binary` (`installsModule_iff`).
-/

namespace Linglong

open Framework

/-! ## Section 1: The request -/

/-- `api::types::v1::PackageManager1Package`. -/
structure PackageManager1Package where
  channel : Option String
  id : String
  packageManager1PackageModule : Option String
  version : Option String

/-- `api::types::v1::PackageManager1InstallParameters`, with its options. -/
structure PackageManager1InstallParameters where
  package : PackageManager1Package
  force : Bool
  skipInteraction : Bool

/-- `api::types::v1::InteractionMessageType`, as far as it is used. -/
inductive InteractionMessageType where
  | install | upgrade
  deriving DecidableEq

/-- `fuzzyReferenceFromPackage`. -/
def fuzzyReferenceFromPackage (pkg : PackageManager1Package) : Except String FuzzyReference := do
  let version ← pkg.version.mapM Version.parse
  FuzzyReference.create pkg.channel pkg.id version none

/-- The module that a package names. -/
def PackageManager1Package.curModule (pkg : PackageManager1Package) : String :=
  pkg.packageManager1PackageModule.getD "binary"

/-- `curModule != "binary" && curModule != "runtime"`. -/
def isExtraModule (module : String) : Bool := module != "binary" && module != "runtime"

/-- What `Install` hands to the task it appends. -/
structure InstallTask where
  remoteRef : Reference
  localRef : Option Reference
  curModule : String
  skipInteraction : Bool
  msgType : InteractionMessageType
  refSpec : RefSpec

namespace Repo

/-- First lookup: a requested version that is installed is refused. -/
def checkNotInstalled (s : Repo) (fuzzyRef : FuzzyReference)
    (list : Except String (List PackageInfoV2)) : Except String Unit :=
  if fuzzyRef.version.isNone then .ok ()
  else
    match s.clearReferenceOpts fuzzyRef ⟨false, false⟩ "binary" list with
    | .ok ref => .error (ref.toString ++ " is already installed.")
    | .error _ => .ok ()

/-- Second lookup: "we need latest local reference". -/
def latestLocal (s : Repo) (fuzzyRef : FuzzyReference)
    (list : Except String (List PackageInfoV2)) : Option Reference :=
  (s.clearReferenceOpts { fuzzyRef with version := none } ⟨false, false⟩ "binary" list).toOption

/-- The fuzzy reference for the third lookup: "ignore fuzzy version if not
    binary or runtime". -/
def remoteRequest (fuzzyRef : FuzzyReference) (localRef : Option Reference) (curModule : String) :
    FuzzyReference :=
  match localRef with
  | none => fuzzyRef
  | some ref =>
      if isExtraModule curModule then { fuzzyRef with version := some ref.version } else fuzzyRef

/-- `LayerDir::valid`: an empty directory has no `info.json`. -/
def validLayerDir (s : Repo) (ref : Reference) : Bool :=
  match s.getLayerDir ref "binary" none with
  | .ok content => content.isSome
  | .error _ => false

/-- The comparison with what is installed. -/
def compareVersions (localRef : Option Reference) (remoteRef : Reference) (force : Bool) :
    Except String InteractionMessageType :=
  match localRef with
  | none => .ok .install
  | some ref =>
      if remoteRef.version.eq ref.version then .error (ref.toString ++ " is already installed")
      else if remoteRef.version.gt ref.version then .ok .upgrade
      else if !force then
        .error ("The latest version has been installed. If you want to replace it, try using " ++
          "'ll-cli install " ++ remoteRef.id ++ "/" ++ remoteRef.version.toString ++ " --force'")
      else .ok .install

/-- `Install`, with what `listRemote` returns for its third lookup: the task
    it appends, or the message of its reply. -/
def installRequest (s : Repo) (taskList : List PackageTask)
    (paras : PackageManager1InstallParameters) (list : Except String (List PackageInfoV2)) :
    Except String InstallTask := do
  let fuzzyRef ← fuzzyReferenceFromPackage paras.package
  s.checkNotInstalled fuzzyRef list
  let curModule := paras.package.curModule
  let localRef := s.latestLocal fuzzyRef list
  let remoteRef ← s.clearReferenceOpts (remoteRequest fuzzyRef localRef curModule) ⟨true, true⟩
    curModule list
  if isExtraModule curModule && !s.validLayerDir remoteRef then
    .error "to install the module, one must first install the binary"
  else
    let msgType ← compareVersions localRef remoteRef paras.force
    let refSpec := RefSpec.ofReference s.defaultRepo remoteRef curModule
    if taskList.any fun task => task.isRefExist refSpec.text then
      .error ("the target " ++ refSpec.text ++ " is being operated")
    else return ⟨remoteRef, localRef, curModule, paras.skipInteraction, msgType, refSpec⟩

/-! ## Section 2: When a task is appended -/

/-- The local lookups do not ask the remote. -/
theorem clearReferenceOpts_local (s : Repo) (fuzzy : FuzzyReference) (module : String)
    (list : Except String (List PackageInfoV2)) :
    s.clearReferenceOpts fuzzy ⟨false, false⟩ module list = s.clearReferenceLocal fuzzy := by
  unfold clearReferenceOpts
  simp only [Bool.false_eq_true, if_false]
  split
  · next ref href => exact href.symm
  · next e he => exact he.symm

/-- The requested version is of no use to a remote lookup. -/
theorem clearReferenceRemote_version {fuzzy : FuzzyReference} {version : Option Version}
    {module : String} {records : List PackageInfoV2} {ref : Reference} :
    clearReferenceRemote { fuzzy with version := version } module records = .ok ref ↔
      clearReferenceRemote fuzzy module records = .ok ref := by
  rw [clearReferenceRemote_eq_ok_iff, clearReferenceRemote_eq_ok_iff]
  exact Iff.rfl

/-- The third lookup finds what it finds for the request. -/
theorem clearReferenceOpts_remote {s : Repo} {fuzzy : FuzzyReference}
    {localRef : Option Reference} {module : String} {records : List PackageInfoV2}
    {ref : Reference} :
    s.clearReferenceOpts (remoteRequest fuzzy localRef module) ⟨true, true⟩ module (.ok records) =
      .ok ref ↔ clearReferenceRemote fuzzy module records = .ok ref := by
  show clearReferenceRemote (remoteRequest fuzzy localRef module) module records = .ok ref ↔ _
  unfold remoteRequest
  cases localRef with
  | none => exact Iff.rfl
  | some l =>
    simp only []
    split
    · exact clearReferenceRemote_version
    · exact Iff.rfl

theorem checkNotInstalled_ok_iff {s : Repo} {fuzzy : FuzzyReference}
    {list : Except String (List PackageInfoV2)} :
    s.checkNotInstalled fuzzy list = .ok () ↔
      fuzzy.version = none ∨ ∀ ref, s.clearReferenceLocal fuzzy ≠ .ok ref := by
  unfold checkNotInstalled
  rw [clearReferenceOpts_local]
  by_cases hversion : fuzzy.version = none
  · simp [hversion]
  · have hsome : fuzzy.version.isNone = false := by
      cases hv : fuzzy.version with
      | none => exact absurd hv hversion
      | some v => rfl
    rw [hsome]
    cases s.clearReferenceLocal fuzzy <;> simp [hversion]

/-- A task is appended iff no check refuses the request. -/
theorem installRequest_ok_iff {s : Repo} {taskList : List PackageTask}
    {paras : PackageManager1InstallParameters} {fuzzy : FuzzyReference}
    (hfuzzy : fuzzyReferenceFromPackage paras.package = .ok fuzzy)
    {records : List PackageInfoV2} {task : InstallTask} :
    s.installRequest taskList paras (.ok records) = .ok task ↔
      (fuzzy.version = none ∨ ∀ ref, s.clearReferenceLocal fuzzy ≠ .ok ref) ∧
      clearReferenceRemote fuzzy paras.package.curModule records = .ok task.remoteRef ∧
      (isExtraModule paras.package.curModule = true → s.validLayerDir task.remoteRef = true) ∧
      compareVersions (s.latestLocal fuzzy (.ok records)) task.remoteRef paras.force =
        .ok task.msgType ∧
      (∀ t ∈ taskList, t.isRefExist (RefSpec.ofReference s.defaultRepo task.remoteRef
        paras.package.curModule).text = false) ∧
      task.localRef = s.latestLocal fuzzy (.ok records) ∧
      task.curModule = paras.package.curModule ∧
      task.skipInteraction = paras.skipInteraction ∧
      task.refSpec = .ofReference s.defaultRepo task.remoteRef paras.package.curModule := by
  unfold installRequest
  rw [hfuzzy, ← @checkNotInstalled_ok_iff s fuzzy (.ok records),
    ← @clearReferenceOpts_remote s fuzzy (s.latestLocal fuzzy (.ok records))]
  constructor
  · intro h
    -- the checks one after the other, in the order of the function
    simp only [bind_eq_ok_iff, ite_error_eq_ok_iff, Except.ok.injEq, exists_eq_left'] at h
    obtain ⟨_, hcheck, remoteRef, hremote, hbinary, msgType, hcompare, hbusy, h⟩ := h
    cases h
    refine ⟨hcheck, hremote, ?_, hcompare, ?_, rfl, rfl, rfl, rfl⟩
    · intro hextra
      simpa [hextra] using hbinary
    · simpa using hbusy
  · intro ⟨hcheck, hremote, hbinary, hcompare, hidle, hlocal, hmodule, hskip, hspec⟩
    obtain ⟨ref, localRef, curModule, skipInteraction, msgType, refSpec⟩ := task
    simp only at hremote hbinary hcompare hidle hlocal hmodule hskip hspec
    subst hlocal hmodule hskip hspec
    simp only [bind_eq_ok_iff, ite_error_eq_ok_iff, Except.ok.injEq, exists_eq_left']
    refine ⟨(), hcheck, ref, hremote, ?_, msgType, hcompare, ?_, rfl⟩
    · simpa using hbinary
    · simpa using hidle

/-! ## Section 3: Extra modules -/

/-- What a request for another module of `r` takes to be accepted. -/
structure ModuleInstallable (s : Repo) (fuzzy : FuzzyReference) (force : Bool) (module : String)
    (records : List PackageInfoV2) (r : Reference) : Prop where
  fresh : fuzzy.version = none ∨ ∀ ref, s.clearReferenceLocal fuzzy ≠ .ok ref
  picked : clearReferenceRemote fuzzy module records = .ok r
  binary : s.validLayerDir r = true
  /-- The local reference that is found is not in the version of `r`. -/
  other : ∀ l, s.clearReferenceLocal { fuzzy with version := none } = .ok l →
    l.version ≠ r.version ∧ (l.version.lt r.version = true ∨ force = true)

theorem compareVersions_ok_iff {localRef : Option Reference} {remoteRef : Reference}
    {force : Bool} : (∃ msgType, compareVersions localRef remoteRef force = .ok msgType) ↔
      ∀ l, localRef = some l →
        l.version ≠ remoteRef.version ∧ (l.version.lt remoteRef.version = true ∨ force = true) := by
  cases localRef with
  | none => exact ⟨fun _ l hl => (nomatch hl), fun _ => ⟨.install, rfl⟩⟩
  | some ref =>
    have hgt : remoteRef.version.gt ref.version = ref.version.lt remoteRef.version := rfl
    unfold compareVersions
    simp only [Option.some.injEq, forall_eq', hgt]
    by_cases heq : remoteRef.version.eq ref.version = true
    · rw [if_pos heq]
      simp [((Version.eq_iff _ _).1 heq).symm]
    · rw [if_neg heq]
      have hne : ref.version ≠ remoteRef.version :=
        fun h => heq ((Version.eq_iff _ _).2 h.symm)
      by_cases hlt : ref.version.lt remoteRef.version = true
      · simp [hlt, hne]
      · cases force <;> simp [hlt, hne]

/-- **Extra modules**: a task for a module of `r` is appended only if what the
    local lookup finds is in another version. -/
theorem installsModule_iff {s : Repo} {taskList : List PackageTask}
    {paras : PackageManager1InstallParameters} {fuzzy : FuzzyReference} {module : String}
    {records : List PackageInfoV2} {r : Reference}
    (hfuzzy : fuzzyReferenceFromPackage paras.package = .ok fuzzy)
    (hmodule : paras.package.packageManager1PackageModule = some module)
    (hextra : module ≠ "binary" ∧ module ≠ "runtime")
    (hidle : ∀ t ∈ taskList,
      t.isRefExist (RefSpec.ofReference s.defaultRepo r module).text = false) :
    ((∃ task, s.installRequest taskList paras (.ok records) = .ok task ∧ task.remoteRef = r ∧
        task.curModule = module) ↔
      s.ModuleInstallable fuzzy paras.force module records r) ∧
    ∀ l, s.clearReferenceLocal { fuzzy with version := none } = .ok l → l.version = r.version →
      ¬ s.ModuleInstallable fuzzy paras.force module records r := by
  have hcur : paras.package.curModule = module := by
    rw [PackageManager1Package.curModule, hmodule]
    rfl
  have hflag : isExtraModule module = true := by
    simp [isExtraModule, hextra]
  have hlocal : ∀ l, s.latestLocal fuzzy (.ok records) = some l ↔
      s.clearReferenceLocal { fuzzy with version := none } = .ok l := by
    intro l
    rw [latestLocal, clearReferenceOpts_local]
    cases s.clearReferenceLocal { fuzzy with version := none } <;> simp [Except.toOption]
  -- the last comparison needs another version, so in the same one it refuses
  refine ⟨⟨?_, ?_⟩, fun l hfound hsame hinstallable => (hinstallable.other l hfound).1 hsame⟩
  · rintro ⟨task, htask, rfl, -⟩
    obtain ⟨hfresh, hpicked, hbinary, hcompare, -⟩ := (installRequest_ok_iff hfuzzy).1 htask
    rw [hcur] at hpicked hbinary
    have hother := compareVersions_ok_iff.1 ⟨_, hcompare⟩
    exact ⟨hfresh, hpicked, hbinary hflag, fun l hl => hother l ((hlocal l).2 hl)⟩
  · rintro ⟨hfresh, hpicked, hbinary, hother⟩
    obtain ⟨msgType, hcompare⟩ : ∃ msgType,
        compareVersions (s.latestLocal fuzzy (.ok records)) r paras.force = .ok msgType :=
      compareVersions_ok_iff.2 fun l hl => hother l ((hlocal l).1 hl)
    refine ⟨⟨r, s.latestLocal fuzzy (.ok records), module, paras.skipInteraction, msgType,
      .ofReference s.defaultRepo r module⟩, (installRequest_ok_iff hfuzzy).2 ?_, rfl, rfl⟩
    rw [hcur]
    exact ⟨hfresh, hpicked, fun _ => hbinary, hcompare, hidle, rfl, rfl, rfl, rfl⟩

/-- A request for the module `develop` of an app, in any version. -/
def gridDevelop : PackageManager1InstallParameters :=
  ⟨⟨none, "grid", some "develop", none⟩, false, false⟩

def anyGrid : FuzzyReference := { anyEditor with id := "grid", id_ne := by decide }

/-- The `binary` of an app in some versions. -/
def gridRepo (versions : List String) : Repo :=
  .ofLayers (.ofCommits []) (versions.map fun v => ⟨v, none, .onMain "grid" v "binary", "stable"⟩)
    [] []

def gridReference (version : Version) : Reference :=
  { Reference.onMain "grid" 0 (by decide) with version := version }

/-- With `1.9.0.0` beside it, the module of `1.10.0.0` is installed: the text
    of the older version is the greater one. -/
theorem installsModule_grid : ∃ task, (gridRepo ["1.9.0.0", "1.10.0.0"]).installRequest []
    gridDevelop (.ok [.onMain "grid" "1.10.0.0" "develop"]) = .ok task ∧
      task.remoteRef = gridReference ⟨1, 10, 0, some 0⟩ ∧ task.curModule = "develop" := by
  have hfuzzy : fuzzyReferenceFromPackage gridDevelop.package = .ok anyGrid := rfl
  refine (installsModule_iff hfuzzy rfl (by decide) (by simp)).1.2 ⟨.inl rfl, ?_, ?_, ?_⟩
  · decide
  · decide
  · intro l hl
    have hfound : (gridRepo ["1.9.0.0", "1.10.0.0"]).clearReferenceLocal anyGrid =
        .ok (gridReference ⟨1, 9, 0, some 0⟩) := by decide
    rw [show { anyGrid with version := none } = anyGrid from rfl, hfound] at hl
    cases hl
    decide

/-- With one version, the module is refused since the `binary` is there. -/
theorem not_installsModule : ¬ ∀ (s : Repo) (taskList : List PackageTask)
    (paras : PackageManager1InstallParameters) (fuzzy : FuzzyReference) (module : String)
    (records : List PackageInfoV2) (r : Reference),
    fuzzyReferenceFromPackage paras.package = .ok fuzzy →
    paras.package.packageManager1PackageModule = some module →
    module ≠ "binary" ∧ module ≠ "runtime" →
    s.IsNewest { fuzzy with version := none } r.version →
    (∃ item, s.getLayerItem r "binary" none = .ok item) →
    (∀ item ∈ s.layers, item.info.packageInfoV2Module ≠ module) →
    (∃ record ∈ records, remoteCandidate fuzzy module record = some r) →
    (∀ t ∈ taskList, t.isRefExist (RefSpec.ofReference s.defaultRepo r module).text = false) →
    ∃ task, s.installRequest taskList paras (.ok records) = .ok task ∧ task.remoteRef = r ∧
      task.curModule = module := by
  intro h
  have hparse : Version.parse "1.0.0.0" = .ok ⟨1, 0, 0, some 0⟩ := by decide
  have hitem : (gridRepo ["1.0.0.0"]).Candidate anyGrid
      ⟨"1.0.0.0", none, .onMain "grid" "1.0.0.0" "binary", "stable"⟩ :=
    ⟨List.mem_singleton.2 rfl, rfl, rfl, ⟨1, 0, 0, some 0⟩, hparse, rfl⟩
  -- the only version is installed, and the request is for its `develop` module
  obtain ⟨task, htask, -⟩ := h (gridRepo ["1.0.0.0"]) [] gridDevelop anyGrid "develop"
    [.onMain "grid" "1.0.0.0" "develop"] (gridReference ⟨1, 0, 0, some 0⟩) rfl rfl (by decide)
    ⟨⟨_, hitem, hparse⟩, fun item hcandidate v hv => by
      have hmem : item ∈ [_] := hcandidate.1
      rw [List.mem_singleton.1 hmem] at hv
      have hsame := hparse.symm.trans hv
      cases hsame
      decide⟩
    ⟨⟨"1.0.0.0", none, .onMain "grid" "1.0.0.0" "binary", "stable"⟩, by decide⟩
    (by intro item hmem; rw [List.mem_singleton.1 hmem]; decide)
    ⟨_, List.mem_singleton.2 rfl, by decide⟩ (by simp)
  have hrefused : (gridRepo ["1.0.0.0"]).installRequest [] gridDevelop
      (.ok [.onMain "grid" "1.0.0.0" "develop"]) =
        .error "main:grid/1.0.0.0/x86_64 is already installed" := rfl
  rw [hrefused] at htask
  cases htask

end Repo

end Linglong
