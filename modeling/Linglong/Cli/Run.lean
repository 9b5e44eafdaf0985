import Linglong.PackageManager.InstallFromUAB

/-! # Running an Installed App

    `Cli::run` (`cli.cpp`) resolves the runtime and the base of an app and
    looks their directories up: the merged directory if the `info.json` of
    the app has no uuid, else the layer with the uuid of the app.

    After a UAB was installed the app is there, with the uuid that the
    packager gave it. The packager gives no uuid to base and runtime, so the
    lookups with a uuid find a layer only if some other layer of them
    happens to have it.

    1. The lookups.
    2. They see the items of one package only.
    3. When they succeed after an installation (`installed_runs_iff`).
-/

namespace Linglong

open Framework RepositoryCacheLayersItem

/-! ## Section 1: The lookups -/

namespace Cli

/-- What `run` looks up for `info.runtime` and `info.base`. -/
def dependencyDir (s : Repo) (uuid : Option String) (text : String) :
    Except String Repo.ModuleDir := do
  let ref ← s.resolveDependency text
  match uuid with
  | none => s.getMergedModuleDir ref true
  | some _ =>
      let content ← s.getLayerDir ref "binary" uuid
      .ok (.layer content)

/-- All lookups succeed that `run` makes for an app. -/
def Runs (s : Repo) (info : PackageInfoV2) : Prop :=
  ∀ text ∈ Repo.dependencies info, ∃ dir, dependencyDir s info.uuid text = .ok dir

/-- The dependency is there, and one layer of it has the main module and, if
    the app has a uuid, this uuid. -/
def Supplied (s : Repo) (uuid : Option String) (text : String) : Prop :=
  ∃ ref, s.resolveDependency text = .ok ref ∧
    ((Repo.answers ref "binary" uuid s.layers).length = 1 ∨
      Repo.answers ref "binary" uuid s.layers = [] ∧
        (Repo.answers ref "runtime" uuid s.layers).length = 1)

end Cli

namespace Repo

/-- One answer is what `getLayerItem` asks for. -/
theorem getLayerItem_binary_iff {s : Repo} {ref : Reference} {uuid : Option String} :
    (∃ layer, s.getLayerItem ref "binary" uuid = .ok layer) ↔
      ((answers ref "binary" uuid s.layers).length = 1 ∨
        answers ref "binary" uuid s.layers = [] ∧
          (answers ref "runtime" uuid s.layers).length = 1) := by
  have hnorm : normModule "binary" = "binary" := rfl
  simp only [getLayerItem_answers, hnorm, true_and, List.length_eq_one_iff]
  constructor
  · rintro ⟨layer, hone | ⟨hnone, hone⟩⟩
    · exact .inl ⟨layer, hone⟩
    · exact .inr ⟨hnone, layer, hone⟩
  · rintro (⟨layer, hone⟩ | ⟨hnone, layer, hone⟩)
    · exact ⟨layer, .inl hone⟩
    · exact ⟨layer, .inr ⟨hnone, hone⟩⟩

/-- With all directories there, finding the layer is enough. -/
theorem dependencyDir_ok_iff {s : Repo} {uuid : Option String} {text : String}
    (hdirs : ∀ ref, s.resolveDependency text = .ok ref → ∀ layer ∈ s.view ref,
      (s.layerDirs.lookup layer.commit).isSome = true) :
    (∃ dir, Cli.dependencyDir s uuid text = .ok dir) ↔ Cli.Supplied s uuid text := by
  unfold Cli.dependencyDir Cli.Supplied
  simp only [← getLayerItem_binary_iff]
  simp only [bind_eq_ok_iff]
  rw [exists_comm]
  refine exists_congr fun ref => ?_
  rw [exists_and_left]
  refine and_congr_right fun href => ?_
  have hdir : ∀ {layer}, s.getLayerItem ref "binary" uuid = .ok layer →
      ∃ content, s.layerDirs.lookup layer.commit = some content := fun hlayer =>
    Option.isSome_iff_exists.1 (hdirs ref href _ (getLayerItem_mem hlayer).1)
  cases uuid with
  | none =>
    simp only [getMergedModuleDir, bind_eq_ok_iff]
    constructor
    · intro ⟨_, layer, hlayer, _⟩
      exact ⟨layer, hlayer⟩
    · intro ⟨layer, hlayer⟩
      obtain ⟨content, hcontent⟩ := hdir hlayer
      -- a merged directory is taken first
      cases hmerged : s.findMerged layer.commit with
      | some item => exact ⟨.merged item.id, layer, hlayer, by rw [hmerged]⟩
      | none =>
        refine ⟨.layer content, layer, hlayer, ?_⟩
        rw [hmerged, layerDirOf, hcontent]
        rfl
  | some u =>
    simp only [bind_eq_ok_iff, getLayerDir_ok_iff]
    constructor
    · intro ⟨_, content, ⟨layer, hlayer, _⟩, _⟩
      exact ⟨layer, hlayer⟩
    · intro ⟨layer, hlayer⟩
      obtain ⟨content, hcontent⟩ := hdir hlayer
      exact ⟨.layer content, content, ⟨layer, hlayer, hcontent⟩, rfl⟩

/-! ## Section 2: One package -/

section Items

variable {s s' : Repo} {id : String}

/-- A query for a package sees its items only. -/
theorem queryLayerItem_of_items (houtside : s'.outside = s.outside)
    (hitems : s'.itemsOf id = s.itemsOf id) {query : RepoCacheQuery} (hid : query.id = some id) :
    s'.queryLayerItem query = s.queryLayerItem query := by
  have hfilter : ∀ l : List RepositoryCacheLayersItem, l.filter query.accepts =
      (l.filter fun item => item.info.id == id).filter query.accepts := by
    intro l
    rw [List.filter_filter]
    refine List.filter_congr fun item _ => ?_
    cases haccepts : query.accepts item with
    | false => rfl
    | true =>
      simp only [RepoCacheQuery.accepts, hid, Option.all_some, Bool.and_eq_true, beq_iff_eq]
        at haccepts
      simp [haccepts.1.1.1.1.1.1]
  unfold itemsOf at hitems
  rw [queryLayerItem, queryLayerItem, queryItems, queryItems, houtside, hfilter s'.layers,
    hfilter s.layers, hitems]

theorem clearReferenceLocal_of_items (houtside : s'.outside = s.outside) {fuzzy : FuzzyReference}
    (hitems : s'.itemsOf fuzzy.id = s.itemsOf fuzzy.id) :
    s'.clearReferenceLocal fuzzy = s.clearReferenceLocal fuzzy := by
  unfold clearReferenceLocal checkLocalArch searchLocal
  rw [houtside, queryLayerItem_of_items houtside hitems rfl]

theorem getLayerItem_of_items (houtside : s'.outside = s.outside) {ref : Reference}
    (hitems : s'.itemsOf ref.id = s.itemsOf ref.id) (module : String) (uuid : Option String) :
    s'.getLayerItem ref module uuid = s.getLayerItem ref module uuid := by
  have hquery : ∀ m, s'.queryLayerItem (layerQuery ref m uuid) =
      s.queryLayerItem (layerQuery ref m uuid) :=
    fun _ => queryLayerItem_of_items houtside hitems rfl
  unfold getLayerItem
  simp only [hquery]

/-- What is found locally is a version of the package that was asked for. -/
theorem clearReferenceLocal_id {fuzzy : FuzzyReference} {ref : Reference}
    (h : s.clearReferenceLocal fuzzy = .ok ref) : ref.id = fuzzy.id := by
  obtain ⟨-, hsearch⟩ := clearReferenceLocal_ok_iff.1 h
  obtain ⟨item, hfind, href⟩ := searchLocal_ok_iff.1 hsearch
  obtain ⟨hmem, -⟩ := findCompatible_ok hfind (s.descending_query _)
  rw [(referenceOf_ok href).2.2]
  exact (mem_query_id.1 hmem).2

end Items

end Repo

namespace Cli

theorem supplied_iff {s : Repo} {uuid : Option String} {text : String} :
    Supplied s uuid text ↔ ∃ fuzzy ref, FuzzyReference.parse text = .ok fuzzy ∧
      s.clearReferenceLocal fuzzy = .ok ref ∧
      ∃ layer, s.getLayerItem ref "binary" uuid = .ok layer := by
  unfold Supplied
  simp only [← Repo.getLayerItem_binary_iff, Repo.resolveDependency_ok_iff]
  constructor
  · rintro ⟨ref, ⟨fuzzy, hfuzzy, href⟩, hlayer⟩
    exact ⟨fuzzy, ref, hfuzzy, href, hlayer⟩
  · rintro ⟨fuzzy, ref, hfuzzy, href, hlayer⟩
    exact ⟨ref, ⟨fuzzy, hfuzzy, href⟩, hlayer⟩

/-- Under a uuid that no layer has, nothing is found. The packager writes its
    uuid into no base and no runtime. -/
theorem not_supplied_of_fresh {s : Repo} {u text : String}
    (h : ∀ item ∈ s.layers, item.info.uuid ≠ some u) : ¬ Supplied s (some u) text := by
  have hnone : ∀ ref module, Repo.answers ref module (some u) s.layers = [] := by
    intro ref module
    refine List.eq_nil_iff_forall_not_mem.2 fun item hitem => ?_
    obtain ⟨hmem, -, -, huuid⟩ := Repo.mem_answers.1 hitem
    exact h item hmem (huuid.resolve_left (by simp))
  rintro ⟨ref, -, hone | ⟨-, hone⟩⟩
  · simp [hnone] at hone
  · simp [hnone] at hone

/-- Whether a dependency is supplied depends on its items only. -/
theorem supplied_of_items {s s' : Repo} {uuid : Option String} {text : String}
    (houtside : s'.outside = s.outside)
    (hitems : ∀ fuzzy, FuzzyReference.parse text = .ok fuzzy →
      s'.itemsOf fuzzy.id = s.itemsOf fuzzy.id) :
    Supplied s' uuid text ↔ Supplied s uuid text := by
  rw [supplied_iff, supplied_iff]
  refine exists_congr fun fuzzy => exists_congr fun ref => ?_
  refine and_congr_right fun hfuzzy => ?_
  have hitems' := hitems fuzzy hfuzzy
  rw [Repo.clearReferenceLocal_of_items houtside hitems']
  refine and_congr_right fun href => ?_
  rw [← Repo.clearReferenceLocal_id href] at hitems'
  rw [Repo.getLayerItem_of_items houtside hitems']

end Cli

/-! ## Section 3: After the installation -/

/-- The file has what the packager has put into the bundle. Layers with the
    same id and module would share their directory. -/
structure UABFile.Carries (file : UABFile) (packager : UABPackager) (bundle : Bundle) : Prop where
  packed : packager.prepareBundle = .ok bundle
  uuid : file.metaInfo.uuid = packager.uuid
  layers : file.metaInfo.layers = bundle.layers
  infos : ∀ layer, file.infoOf layer = bundle.infos.lookup layer.path
  paths : (bundle.layers.map UabLayer.path).Nodup

/-- **Step**: what comes after the imports neither helps nor hurts the
    dependencies. -/
theorem Cli.dependencyDir_afterImports {s : Repo} (h : s.Stored) {containers : Containers}
    {oldRef : Option Reference} {uuid : Option String} {text : String}
    (hne : ∀ fuzzy, FuzzyReference.parse text = .ok fuzzy → ∀ old ∈ oldRef, old.id ≠ fuzzy.id) :
    (∃ dir, dependencyDir (s.afterImports containers oldRef) uuid text = .ok dir) ↔
      Supplied s uuid text := by
  cases hparse : FuzzyReference.parse text with
  | error e => simp [dependencyDir, Supplied, Repo.resolveDependency, hparse, bind, Except.bind]
  | ok fuzzy =>
  have hne' := hne fuzzy hparse
  have hleaves : Repo.Leaves fuzzy.id s (s.afterImports containers oldRef) :=
    Repo.leaves_afterImports hne' s
  have hitems := hleaves.items h.faithful
  rw [Repo.dependencyDir_ok_iff, supplied_of_items hleaves.outside]
  · intro fuzzy' hfuzzy'
    rw [hparse] at hfuzzy'
    cases hfuzzy'
    exact hitems
  intro ref href layer hlayer
  obtain ⟨fuzzy', hfuzzy', hclear⟩ := Repo.resolveDependency_ok_iff.1 href
  rw [hparse] at hfuzzy'
  cases hfuzzy'
  have hid : ref.id = fuzzy.id := Repo.clearReferenceLocal_id hclear
  have hkeeps : DeferredRemoval.KeepsLayers ref s (s.afterImports containers oldRef) :=
    Repo.keepsLayers_afterImports (by rw [hid]; exact hne') s
  obtain ⟨hmem, hof⟩ := mem_layersOf.1 hlayer
  -- the layer is one of the items that were there before
  have hbefore : layer ∈ s.layers := by
    have hmem' : layer ∈ (s.afterImports containers oldRef).itemsOf fuzzy.id := by
      refine List.mem_filter.2 ⟨hmem, ?_⟩
      rw [(isLayerOf_iff.1 hof).1, hid]
      exact beq_self_eq_true _
    rw [hitems] at hmem'
    exact List.mem_of_mem_filter hmem'
  obtain ⟨content, hcontent⟩ := h.dirs layer hbefore
  refine hkeeps.dirs h.recorded layer.commit ?_ (by rw [hcontent]; rfl)
  exact ⟨layer.info, h.recorded layer hbefore, isLayerOf_iff.1 hof⟩

namespace Job

/-- **A UAB that was installed** can be run iff base and runtime are
    supplied, with the uuid that the packager has given to the app. -/
theorem installed_runs_iff {packager : UABPackager} {bundle : Bundle} {file : UABFile}
    (hfile : file.Carries packager bundle) {app : UabLayer}
    (happ : appLayerOf bundle.layers = some app) {j : Job} (htask : j.task.Unfinished)
    (hrepo : j.repo.Stored) {checksum : UabLayer → String}
    (hcommits : ∀ layer info, file.infoOf layer = some info →
      j.repo.outside.commitInfo (checksum layer) = .ok info)
    {interaction : Option Interaction} {containers : Containers} {oldRef : Option Reference}
    (hold : ∀ old ∈ oldRef, old.id = app.info.id)
    (hself : ∀ text ∈ Repo.dependencies app.info, ∀ fuzzy, FuzzyReference.parse text = .ok fuzzy →
      fuzzy.id ≠ app.info.id)
    (hsucceed : (j.installFromUAB file checksum interaction containers oldRef
      (file.layerInfos app)).task.state = .succeed) :
    ∃ info, file.infoOf app = some info ∧
      (Cli.Runs (j.installFromUAB file checksum interaction containers oldRef
          (file.layerInfos app)).repo info ↔
        ∀ text ∈ Repo.dependencies app.info,
          Cli.Supplied (j.repo.withLayers file checksum (file.layerInfos app))
            (packager.appUuid app) text) := by
  obtain ⟨start, hstart, hreturned, hend⟩ := installFromUAB_succeed htask hsucceed
  have hstart' : start.repo.Stored := by rwa [hstart]
  have hcommits' : ∀ layer info, file.infoOf layer = some info →
      start.repo.outside.commitInfo (checksum layer) = .ok info := by rwa [hstart]
  obtain ⟨hstored, houtside, hlayers⟩ := imported_layers hstart' hcommits' hreturned
  rw [hstart] at houtside hlayers
  rw [hend]
  generalize (importLoop file checksum (file.layerInfos app) ⟨start, [], false⟩).job.repo = s
    at hstored houtside hlayers
  -- what the file has of the app is what the packager has written
  have hinfo := UABPackager.appInfo_of_prepareBundle hfile.packed hfile.paths happ
  refine ⟨_, (hfile.infos app).trans hinfo, ?_⟩
  unfold Cli.Runs
  refine forall_congr' fun text => imp_congr_right fun htext => ?_
  -- a later removal of the old version does not take dependencies away
  rw [Cli.dependencyDir_afterImports hstored]
  · exact Cli.supplied_of_items (by rw [houtside, Repo.outside_withLayers]) fun fuzzy _ => by
      rw [Repo.itemsOf, Repo.itemsOf, hlayers]
  · intro fuzzy hfuzzy old hmem
    rw [hold old hmem]
    exact (hself text htext fuzzy hfuzzy).symm

/-- Version `1.0.1.0` of a reader, as a UAB brings it. -/
def readerInfo : PackageInfoV2 := .onMain "org.reader" "1.0.1.0" "binary"

/-- What the packager reads; `excludeFiles` may drop the only file. -/
def readerPackager (excludeFiles : List String) : UABPackager where
  uuid := "u"
  layers := [{
    absolutePath := "/reader"
    info := .ok readerInfo
    hasFilesDir := true
    status := fun path => if path = "/reader/files/doc" then .regularFile else .missing
    allFiles := .ok ["/reader/files/doc"]
    newer := true }]
  excludeFiles := excludeFiles
  includeFiles := []

/-- A UAB with one layer, that of the app. -/
def readerFile (minified : Bool) (uuid : Option String) : UABFile where
  metaInfo := ⟨"u", [⟨readerInfo, minified⟩]⟩
  mountUab := .ok ()
  hasLayersDir := true
  layerDir := fun path =>
    if path = UabLayer.path ⟨readerInfo, minified⟩ then
      .ok ⟨"/uab/reader", true, .ok { readerInfo with uuid := uuid }⟩
    else .error "not found"
  extractSignData := .ok none

theorem infoOf_readerFile (minified : Bool) (uuid : Option String) (layer : UabLayer) :
    (readerFile minified uuid).infoOf layer =
      if layer.path = UabLayer.path ⟨readerInfo, minified⟩ then
        some { readerInfo with uuid := uuid } else none := by
  unfold UABFile.infoOf readerFile
  simp only
  split <;> rfl

/-- The old version of the reader and its base are installed. -/
def readerRepo (uuid : Option String) : Repo :=
  let old : PackageInfoV2 := .onMain "org.reader" "1.0.0.0" "binary"
  let base : PackageInfoV2 := { PackageInfoV2.onMain "org.base" "1.0.0.0" "binary" with
    base := "", kind := "base" }
  .ofLayers (.ofCommits [("b", base), ("p0", old), ("p1", { readerInfo with uuid := uuid })])
    [⟨"b", none, base, "stable"⟩, ⟨"p0", none, old, "stable"⟩] [] []

theorem stored_readerRepo (uuid : Option String) : (readerRepo uuid).Stored where
  recorded := by
    simp [DeferredRemoval.Recorded, readerRepo, Repo.ofLayers, Outside.ofCommits, List.lookup_cons]
  dirs := by simp [readerRepo, Repo.ofLayers, List.lookup_cons]
  faithful := by
    refine ⟨?_, fun refs ref commit hrev => ?_, by simp [readerRepo, Repo.ofLayers]⟩
    · simp [readerRepo, Repo.ofLayers, Outside.HoldsId, Outside.ofCommits, List.lookup_cons,
        Repo.ostreeRefSpecFromLayerItem, Repo.ostreeRefFromLayerItem]
    · obtain ⟨e, hfind, rfl⟩ := Option.map_eq_some_iff.1 hrev
      have hname : e.1.ref = ref := by simpa using List.find?_some hfind
      refine ⟨e.1.remote, ?_⟩
      rw [← hname]
      exact List.mem_of_find?_eq_some hfind

def readerJob (uuid : Option String) : Job :=
  ⟨readerRepo uuid, (PackageTask.create "1" (.single "local:main/org.reader/x86_64/binary")).setJob⟩

/-- The version that the UAB replaces. -/
def oldReader : Reference := .onMain "org.reader" 0 (by decide)

theorem unfinished_readerJob (uuid : Option String) : (readerJob uuid).task.Unfinished :=
  ⟨nofun, nofun⟩

/-- The bundle with the reader and its `info.json`. -/
def readerBundle (minified : Bool) (uuid : Option String) : Bundle :=
  ⟨[⟨readerInfo, minified⟩],
    [(UabLayer.path ⟨readerInfo, minified⟩, { readerInfo with uuid := uuid })]⟩

theorem carries_readerFile {excludeFiles : List String} {minified : Bool} {uuid : Option String}
    (h : (readerPackager excludeFiles).prepareBundle = .ok (readerBundle minified uuid)) :
    (readerFile minified uuid).Carries (readerPackager excludeFiles)
      (readerBundle minified uuid) where
  packed := h
  uuid := rfl
  layers := rfl
  infos := by
    intro layer
    rw [infoOf_readerFile, readerBundle]
    by_cases hpath : layer.path = UabLayer.path ⟨readerInfo, minified⟩
    · simp [hpath]
    · simp [hpath, List.lookup_cons, beq_false_of_ne hpath]
  paths := by simp [readerBundle]

theorem commitInfo_readerRepo {minified : Bool} {uuid : Option String} (layer : UabLayer)
    (info : PackageInfoV2) (h : (readerFile minified uuid).infoOf layer = some info) :
    (readerJob uuid).repo.outside.commitInfo "p1" = .ok info := by
  rw [infoOf_readerFile] at h
  split at h
  · cases h
    rfl
  · cases h

theorem dependencies_readerInfo : ∀ text ∈ Repo.dependencies readerInfo, ∀ fuzzy,
    FuzzyReference.parse text = .ok fuzzy → fuzzy.id ≠ readerInfo.id := by
  intro text htext fuzzy hfuzzy
  rw [List.mem_singleton.1 (show text ∈ ["org.base/1.0.0.0"] from htext)] at hfuzzy
  have hbase : (FuzzyReference.parse "org.base/1.0.0.0").toOption.map FuzzyReference.id =
      some "org.base" := by decide
  rw [hfuzzy] at hbase
  simp only [Except.toOption, Option.map_some, Option.some.injEq] at hbase
  rw [hbase]
  decide

/-- Nothing was left out, so the app has no uuid and finds its base. -/
theorem installed_runs_reader :
    Cli.Runs ((readerJob none).installFromUAB (readerFile false none) (fun _ => "p1") none
      (.error "no containers") (some oldReader) [⟨readerInfo, false⟩]).repo readerInfo := by
  have hfile : (readerFile false none).Carries (readerPackager []) (readerBundle false none) :=
    carries_readerFile rfl
  have hsucceed : ((readerJob none).installFromUAB (readerFile false none) (fun _ => "p1") none
      (.error "no containers") (some oldReader) [⟨readerInfo, false⟩]).task.state = .succeed := by
    decide
  have hold : ∀ old ∈ some oldReader, old.id = readerInfo.id := by
    intro old hmem
    cases hmem
    rfl
  obtain ⟨info, hinfo, hruns⟩ := installed_runs_iff hfile rfl (unfinished_readerJob none)
    (stored_readerRepo none) commitInfo_readerRepo hold dependencies_readerInfo hsucceed
  rw [infoOf_readerFile, if_pos rfl] at hinfo
  cases hinfo
  refine hruns.2 fun text htext => ?_
  rw [List.mem_singleton.1 (show text ∈ ["org.base/1.0.0.0"] from htext)]
  exact ⟨.onMain "org.base" 0 (by decide), by decide, .inl (by decide)⟩

/-- A file was left out of the app only. The app gets a uuid, and its base
    is not found any more. -/
theorem installed_not_runs : ¬ ∀ (packager : UABPackager) (bundle : Bundle) (file : UABFile),
    file.Carries packager bundle → ∀ app, appLayerOf bundle.layers = some app →
    ∀ j : Job, j.task.Unfinished → j.repo.Stored → ∀ (checksum : UabLayer → String),
    (∀ layer info, file.infoOf layer = some info →
      j.repo.outside.commitInfo (checksum layer) = .ok info) →
    ∀ (interaction : Option Interaction) (containers : Containers) (oldRef : Option Reference),
    (j.installFromUAB file checksum interaction containers oldRef
      (file.layerInfos app)).task.state = .succeed →
    ∀ info, file.infoOf app = some info →
      Cli.Runs (j.installFromUAB file checksum interaction containers oldRef
        (file.layerInfos app)).repo info := by
  intro h
  have hfile : (readerFile true (some "u")).Carries (readerPackager ["/doc"])
      (readerBundle true (some "u")) := carries_readerFile rfl
  have hruns := h (readerPackager ["/doc"]) _ _ hfile ⟨readerInfo, true⟩ rfl
    (readerJob (some "u")) (unfinished_readerJob _) (stored_readerRepo _) (fun _ => "p1")
    commitInfo_readerRepo none (.error "no containers") (some oldReader) (by decide)
    { readerInfo with uuid := some "u" } (by rw [infoOf_readerFile]; rfl)
  obtain ⟨dir, hdir⟩ := hruns "org.base/1.0.0.0" (by decide)
  have hnone : (Cli.dependencyDir ((readerJob (some "u")).installFromUAB
      (readerFile true (some "u")) (fun _ => "p1") none (.error "no containers") (some oldReader)
      [⟨readerInfo, true⟩]).repo (some "u") "org.base/1.0.0.0").toOption = none := by decide
  have hsome : Option.some dir = none := by
    rw [← hnone]
    exact (congrArg Except.toOption hdir).symm
  cases hsome

end Job

end Linglong
