import Linglong.Framework.Lookup
import Linglong.Package.Reference

/-! # Packing a UAB

    `UABPackager` (`uab_packager.cpp`) packs layers into one file: base,
    runtime and, as the last one, the app. Files that match the exclude
    patterns and none of the include patterns are dropped; a layer that has
    lost a file is called minified.

    A minified base is of no use to other apps. To keep it apart from the
    complete one the packager draws a uuid. The uuid goes into the meta
    information of the UAB and, as soon as some layer was minified, into the
    `info.json` of the app. The `info.json` of base and runtime stay as they
    were.

    File system steps that can only end the packing are left out, and so are
    the contents of files other than `info.json`: nothing reads them later.

    1. Which files are dropped.
    2. The bundle.
    3. What the app's `info.json` says (`appInfo_of_prepareBundle`).
-/

namespace Linglong

open Framework

/-! ## Section 1: Filtering files -/

/-- What `expandPaths` finds at a path; a directory comes with all paths
    below it. -/
inductive PathStatus where
  | missing
  | regularFile
  | directory (files : List String)
  | other
  | error (message : String)
  deriving DecidableEq

/-- `package::LayerDir` as the packager reads it. -/
structure SourceLayer where
  absolutePath : String
  info : Except String PackageInfoV2
  /-- There is a directory `files`. -/
  hasFilesDir : Bool
  status : String → PathStatus
  /-- All paths below `files`. -/
  allFiles : Except String (List String)
  /-- The modification time of `info.json` is later than that of a file in
      its place. -/
  newer : Bool

/-- `package::UABPackager`. -/
structure UABPackager where
  uuid : String
  layers : List SourceLayer
  excludeFiles : List String
  includeFiles : List String

/-- `LayerDir::filesDirPath`. -/
def SourceLayer.filesDirPath (layer : SourceLayer) : String := layer.absolutePath ++ "/files"

/-- `prefix / originalEntry.substr(1)`: an absolute path replaces the one
    before it. -/
def SourceLayer.entry (layer : SourceLayer) (original : String) : String :=
  let relative := original.toList.tail
  if relative.head? = some '/' then .ofList relative
  else layer.filesDirPath ++ "/" ++ .ofList relative

/-- `expandPaths`. -/
def SourceLayer.expandPaths (layer : SourceLayer) : List String → Except String (List String)
  | [] => .ok []
  | original :: rest => do
      let here ← match layer.status (layer.entry original) with
        | .missing | .other => .ok []
        | .regularFile => .ok [layer.entry original]
        | .directory files => .ok files
        | .error e => .error e
      let more ← layer.expandPaths rest
      .ok (here ++ more)

namespace UABPackager

/-- `filteringFiles`: whether files are dropped, and the files that stay. -/
def filteringFiles (packager : UABPackager) (layer : SourceLayer) :
    Except String (Bool × List String) :=
  if layer.hasFilesDir = false then
    .error ("there isn't a files dir in layer " ++ layer.absolutePath)
  else do
    let excludes ← layer.expandPaths packager.excludeFiles
    let includes ← layer.expandPaths packager.includeFiles
    let dropped := excludes.filter fun file => !includes.contains file
    let all ← layer.allFiles
    .ok (!dropped.isEmpty, all.filter fun file => !dropped.contains file)

end UABPackager

/-! ## Section 2: The bundle -/

/-- `api::types::v1::UabLayer`. -/
structure UabLayer where
  info : PackageInfoV2
  minified : Bool
  deriving DecidableEq

/-- The path `layers/<id>/<module>` of a layer's directory in the bundle. -/
structure BundlePath where
  id : String
  module : String
  deriving DecidableEq

def UabLayer.path (layer : UabLayer) : BundlePath :=
  ⟨layer.info.id, layer.info.packageInfoV2Module⟩

/-- The layers as the meta information lists them, and the `info.json` of
    each `layers/<id>/<module>`. -/
structure Bundle where
  layers : List UabLayer
  infos : List (BundlePath × PackageInfoV2)

namespace Bundle

/-- Write an `info.json`. -/
def write (b : Bundle) (path : BundlePath) (info : PackageInfoV2) : Bundle :=
  { b with infos := (path, info) :: b.infos.filter fun e => e.1 ≠ path }

/-- Copy the `info.json` of a layer, with `update_existing`, and list the
    layer. -/
def add (b : Bundle) (layer : UabLayer) (newer : Bool) : Bundle :=
  let b' := { b with layers := b.layers ++ [layer] }
  if (b.infos.lookup layer.path).isSome && !newer then b' else b'.write layer.path layer.info

/-- Read the `info.json` of the app, set its uuid and write it again. -/
def writeUuid (b : Bundle) (path : BundlePath) (uuid : String) : Bundle :=
  match b.infos.lookup path with
  | none => b
  | some info => b.write path { info with uuid := some uuid }

end Bundle

namespace UABPackager

/-- The loop of `prepareBundle` over the layers. After an app it goes on
    only if some layer was minified. -/
def packLayers (packager : UABPackager) : List SourceLayer → Bundle → Except String Bundle
  | [], b => .ok b
  | layer :: rest, b => do
      let info ← layer.info
      let (minified, _) ← packager.filteringFiles layer
      let b := b.add ⟨info, minified⟩ layer.newer
      if info.kind = "app" then
        if b.layers.any UabLayer.minified then
          packager.packLayers rest (b.writeUuid (UabLayer.path ⟨info, minified⟩) packager.uuid)
        else .ok b
      else packager.packLayers rest b

/-- `prepareBundle`. -/
def prepareBundle (packager : UABPackager) : Except String Bundle :=
  packager.packLayers packager.layers ⟨[], []⟩

/-- A layer of the list, up to the first app, loses a file. -/
def minifiesAny (packager : UABPackager) : List SourceLayer → Bool
  | [] => false
  | layer :: rest =>
      match layer.info, packager.filteringFiles layer with
      | .ok info, .ok (minified, _) =>
          minified || (info.kind != "app" && packager.minifiesAny rest)
      | _, _ => false

/-- The uuid that the `info.json` of the app has in the bundle. -/
def appUuid (packager : UABPackager) (app : UabLayer) : Option String :=
  if packager.minifiesAny packager.layers then some packager.uuid else app.info.uuid

end UABPackager

/-- The app layer that the installation looks for. -/
def appLayerOf (layers : List UabLayer) : Option UabLayer :=
  layers.find? fun layer => layer.info.kind == "app"

/-! ## Section 3: The app's `info.json` -/

namespace Bundle

theorem lookup_write (b : Bundle) (path p : BundlePath) (info : PackageInfoV2) :
    (b.write path info).infos.lookup p = if p = path then some info else b.infos.lookup p :=
  lookup_set path p info b.infos

@[simp] theorem layers_add (b : Bundle) (layer : UabLayer) (newer : Bool) :
    (b.add layer newer).layers = b.layers ++ [layer] := by
  unfold add
  simp only
  split <;> rfl

theorem lookup_add_ne (b : Bundle) {layer : UabLayer} {p : BundlePath} (h : p ≠ layer.path)
    (newer : Bool) : (b.add layer newer).infos.lookup p = b.infos.lookup p := by
  unfold add
  simp only
  split
  · rfl
  · exact (lookup_write _ _ _ _).trans (if_neg h)

/-- The first layer with its key is copied. -/
theorem lookup_add_self {b : Bundle} {layer : UabLayer} (h : b.infos.lookup layer.path = none)
    (newer : Bool) : (b.add layer newer).infos.lookup layer.path = some layer.info := by
  unfold add
  simp only [h, Option.isSome_none, Bool.false_and, Bool.false_eq_true, if_false]
  exact (lookup_write _ _ _ _).trans (if_pos rfl)

@[simp] theorem layers_writeUuid (b : Bundle) (path : BundlePath) (uuid : String) :
    (b.writeUuid path uuid).layers = b.layers := by
  unfold writeUuid
  split <;> rfl

theorem lookup_writeUuid (b : Bundle) (path p : BundlePath) (uuid : String) :
    (b.writeUuid path uuid).infos.lookup p =
      if p = path then (b.infos.lookup path).map fun info => { info with uuid := some uuid }
      else b.infos.lookup p := by
  unfold writeUuid
  cases hlookup : b.infos.lookup path with
  | none =>
    simp only
    by_cases hp : p = path
    · rw [if_pos hp, hp, hlookup]
      rfl
    · rw [if_neg hp]
  | some info => exact lookup_write _ _ _ _

end Bundle

namespace UABPackager

variable {packager : UABPackager} {layer : SourceLayer} {rest : List SourceLayer} {b b' : Bundle}

/-- **Step**: what one round has done. -/
theorem packLayers_cons (h : packager.packLayers (layer :: rest) b = .ok b') :
    ∃ info minified files, layer.info = .ok info ∧
      packager.filteringFiles layer = .ok (minified, files) ∧
      ((info.kind = "app" ∧ (b.add ⟨info, minified⟩ layer.newer).layers.any UabLayer.minified = false ∧
          b' = b.add ⟨info, minified⟩ layer.newer) ∨
        (info.kind = "app" ∧ (b.add ⟨info, minified⟩ layer.newer).layers.any UabLayer.minified = true ∧
          packager.packLayers rest ((b.add ⟨info, minified⟩ layer.newer).writeUuid
            (UabLayer.path ⟨info, minified⟩) packager.uuid) = .ok b') ∨
        (info.kind ≠ "app" ∧
          packager.packLayers rest (b.add ⟨info, minified⟩ layer.newer) = .ok b')) := by
  unfold packLayers at h
  simp only [bind_eq_ok_iff] at h
  obtain ⟨info, hinfo, ⟨minified, files⟩, hfiles, h⟩ := h
  refine ⟨info, minified, files, hinfo, hfiles, ?_⟩
  by_cases happ : info.kind = "app"
  · rw [if_pos happ] at h
    cases hany : (b.add ⟨info, minified⟩ layer.newer).layers.any UabLayer.minified with
    | true =>
      rw [hany] at h
      exact .inr (.inl ⟨happ, rfl, h⟩)
    | false =>
      rw [hany] at h
      cases h
      exact .inl ⟨happ, rfl, rfl⟩
  · rw [if_neg happ] at h
    exact .inr (.inr ⟨happ, h⟩)

/-- **Run**: layers are added, and nothing else in the bundle changes. -/
theorem packLayers_spec (h : packager.packLayers rest b = .ok b') :
    ∃ more, b'.layers = b.layers ++ more ∧
      ∀ p, p ∉ more.map UabLayer.path → b'.infos.lookup p = b.infos.lookup p := by
  induction rest generalizing b with
  | nil =>
    cases h
    exact ⟨[], by simp, fun _ _ => rfl⟩
  | cons layer rest ih =>
    obtain ⟨info, minified, files, -, -, ⟨-, -, rfl⟩ | ⟨-, -, hrest⟩ | ⟨-, hrest⟩⟩ :=
      packLayers_cons h
    · refine ⟨[⟨info, minified⟩], by simp, fun p hp => ?_⟩
      exact b.lookup_add_ne (by simpa using hp) layer.newer
    · obtain ⟨more, hlayers, hlookup⟩ := ih hrest
      refine ⟨⟨info, minified⟩ :: more, by simp [hlayers], fun p hp => ?_⟩
      rw [List.map_cons, List.mem_cons, not_or] at hp
      rw [hlookup p hp.2, Bundle.lookup_writeUuid, if_neg hp.1, b.lookup_add_ne hp.1]
    · obtain ⟨more, hlayers, hlookup⟩ := ih hrest
      refine ⟨⟨info, minified⟩ :: more, by simp [hlayers], fun p hp => ?_⟩
      rw [List.map_cons, List.mem_cons, not_or] at hp
      rw [hlookup p hp.2, b.lookup_add_ne hp.1]

theorem appInfo_of_packLayers {app : UabLayer} (h : packager.packLayers rest b = .ok b')
    (hnone : appLayerOf b.layers = none)
    (hfresh : ∀ p, p ∉ b.layers.map UabLayer.path → b.infos.lookup p = none)
    (hpaths : (b'.layers.map UabLayer.path).Nodup) (happ : appLayerOf b'.layers = some app) :
    b'.infos.lookup app.path = some { app.info with
      uuid :=
        if b.layers.any UabLayer.minified || packager.minifiesAny rest then some packager.uuid
        else app.info.uuid } := by
  induction rest generalizing b with
  | nil =>
    cases h
    rw [hnone] at happ
    cases happ
  | cons layer rest ih =>
    obtain ⟨info, minified, files, hinfo, hfiles, hcase⟩ := packLayers_cons h
    have hminifies : packager.minifiesAny (layer :: rest) =
        (minified || (info.kind != "app" && packager.minifiesAny rest)) := by
      rw [minifiesAny, hinfo, hfiles]
    have hany : (b.add ⟨info, minified⟩ layer.newer).layers.any UabLayer.minified =
        (b.layers.any UabLayer.minified || minified) := by
      simp
    -- the paths before this layer are others
    have hnew : ∀ more, b'.layers = (b.add ⟨info, minified⟩ layer.newer).layers ++ more →
        b.infos.lookup (UabLayer.path ⟨info, minified⟩) = none ∧
          UabLayer.path ⟨info, minified⟩ ∉ more.map UabLayer.path := by
      intro more hmore
      rw [hmore, Bundle.layers_add, List.append_assoc, List.map_append, List.nodup_append] at hpaths
      obtain ⟨-, hlater, hbefore⟩ := hpaths
      refine ⟨hfresh _ fun hmem => ?_, ?_⟩
      · exact hbefore _ hmem (UabLayer.path ⟨info, minified⟩) (by simp) rfl
      · simpa using (List.nodup_cons.1 hlater).1
    -- if the layer is an app, it is the one that is found
    have hfirst : ∀ more, info.kind = "app" →
        b'.layers = (b.add ⟨info, minified⟩ layer.newer).layers ++ more →
        app = ⟨info, minified⟩ := by
      intro more hkind hmore
      rw [hmore, Bundle.layers_add, List.append_assoc, appLayerOf, List.find?_append] at happ
      rw [appLayerOf] at hnone
      rw [hnone] at happ
      simpa [hkind, eq_comm] using happ
    rcases hcase with ⟨hkind, hfalse, rfl⟩ | ⟨hkind, htrue, hrest⟩ | ⟨hkind, hrest⟩
    · -- the loop ends here
      obtain rfl := hfirst [] hkind (by simp)
      rw [Bundle.lookup_add_self (hnew [] (by simp)).1]
      rw [hany] at hfalse
      have hno : (b.layers.any UabLayer.minified || packager.minifiesAny (layer :: rest)) =
          false := by
        rw [hminifies, hkind]
        simpa using hfalse
      rw [if_neg (by rw [hno]; decide)]
    · obtain ⟨more, hmore, hlookup⟩ := packLayers_spec hrest
      rw [Bundle.layers_writeUuid] at hmore
      obtain rfl := hfirst more hkind hmore
      obtain ⟨hnone', hnot⟩ := hnew more hmore
      rw [hlookup _ hnot, Bundle.lookup_writeUuid, if_pos rfl, Bundle.lookup_add_self hnone']
      rw [hany] at htrue
      have hyes : (b.layers.any UabLayer.minified || packager.minifiesAny (layer :: rest)) =
          true := by
        rw [hminifies, hkind]
        simpa using htrue
      rw [if_pos hyes]
      rfl
    · have hsame : (b.layers.any UabLayer.minified || packager.minifiesAny (layer :: rest)) =
          ((b.add ⟨info, minified⟩ layer.newer).layers.any UabLayer.minified ||
            packager.minifiesAny rest) := by
        have hother : (info.kind != "app") = true := by simpa using hkind
        rw [hany, hminifies, hother, Bool.true_and, Bool.or_assoc]
      rw [hsame]
      refine ih hrest ?_ fun p hp => ?_
      · rw [appLayerOf] at hnone ⊢
        rw [Bundle.layers_add, List.find?_append, hnone]
        simp [hkind]
      · rw [Bundle.layers_add, List.map_append, List.mem_append, not_or] at hp
        rw [b.lookup_add_ne (by simpa using hp.2)]
        exact hfresh p hp.1

/-- **The app in the bundle** has the `info.json` of its layer, with the
    uuid of the packager if a layer up to it was minified. -/
theorem appInfo_of_prepareBundle {bundle : Bundle} (h : packager.prepareBundle = .ok bundle)
    (hpaths : (bundle.layers.map UabLayer.path).Nodup) {app : UabLayer}
    (happ : appLayerOf bundle.layers = some app) :
    bundle.infos.lookup app.path = some { app.info with uuid := packager.appUuid app } := by
  have hinfo := appInfo_of_packLayers h rfl (fun _ _ => rfl) hpaths happ
  rw [hinfo, appUuid]
  simp

end UABPackager

end Linglong
