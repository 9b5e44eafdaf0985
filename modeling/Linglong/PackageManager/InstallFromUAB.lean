import Linglong.Package.UABPackager
import Linglong.PackageManager.DeferredRemoval
import Linglong.Repo.Import

/-! # Installing a UAB

    `installFromUAB` (`package_manager.cpp`) imports the layers of a UAB, the
    app first. A base or runtime whose complete version is there already is
    skipped; a minified one is imported with the uuid of the UAB as its
    sub-reference. Then the old version of the app is removed.

    The result depends on what ostree computes as the checksum of an
    imported layer, on the containers that are running and on the answer of
    the user; all of them are parameters.

    1. The job.
    2. A job that succeeds gets to its end (`Unfinished`).
    3. What the imports add (`imported_layers`).
    4. Removing the old version leaves other packages alone (`Leaves`).
-/

namespace Linglong

open Framework RepositoryCacheLayersItem

/-! ## Section 1: The job -/

/-- `api::types::v1::UabMetaInfo`. -/
structure UabMetaInfo where
  uuid : String
  layers : List UabLayer

/-- `package::UABFile`: what reading the file gives. -/
structure UABFile where
  metaInfo : UabMetaInfo
  mountUab : Except String Unit
  /-- The bundle has a directory `layers`. -/
  hasLayersDir : Bool
  /-- `layers/<id>/<module>`, or an error if its status cannot be had. -/
  layerDir : BundlePath → Except String LayerDir
  extractSignData : Except String (Option String)

/-- What happens while the job waits for the user: a `Cancel` call may
    arrive, and the reply is "yes" or something else. -/
structure Interaction where
  canceled : Bool
  agreed : Bool

namespace Repo

/-- The test that skips a layer: the completed reference has the same
    version, and the module is there. An empty directory is not valid. -/
def hasVersion (s : Repo) (fuzzy : FuzzyReference) (ref : Reference) (module : String) : Bool :=
  match s.clearReferenceLocal fuzzy with
  | .error _ => false
  | .ok localRef =>
      match s.getLayerDir localRef module none with
      | .error _ => false
      | .ok content => content.isSome && ref.version.eq localRef.version

/-- What the job does after the imports; a failure is only logged. -/
def afterImports (containers : Containers) (oldRef : Option Reference) (s : Repo) : Repo :=
  match oldRef with
  | some old => (removeAfterInstall containers old (s.getModuleList old) s).1
  | none => after mergeModules s

end Repo

namespace Job

/-- State of the loop over the layers. -/
structure Importing where
  job : Job
  actions : List (Repo → Repo)
  returned : Bool

/-- Report an error and return. -/
def Importing.stop (p : Importing) (e : String) : Importing :=
  { p with job := p.job.call (.reportError ⟨-1, e⟩), returned := true }

/-- Import one layer and register the undo action. -/
def Importing.importLayer (p : Importing) (dir : LayerDir) (info : PackageInfoV2)
    (ref : Reference) (overlays : List String) (subRef : Option String) (commit : String) :
    Importing :=
  match p.job.perform (Repo.importLayerDir dir overlays subRef commit) with
  | (job, .error e) => { p with job := job }.stop e
  | (job, .ok _) =>
      { p with
        job := job
        actions := (fun s => after (Repo.remove ref info.packageInfoV2Module subRef) s) ::
          p.actions }

/-- A round of the loop once the layer's directory was read. -/
def Importing.importOrSkip (p : Importing) (file : UABFile) (layer : UabLayer) (dir : LayerDir)
    (info : PackageInfoV2) (ref : Reference) (commit : String) : Importing :=
  if layer.info.kind = "app" then
    match file.extractSignData with
    | .error e => p.stop e
    | .ok overlay => p.importLayer dir info ref overlay.toList none commit
  else
    match FuzzyReference.parse (ref.id ++ "/" ++ ref.version.toString) with
    -- the code reads the failed result all the same
    | .error e => p.stop e
    | .ok fuzzy =>
        if p.job.repo.hasVersion fuzzy ref info.packageInfoV2Module then p
        else
          p.importLayer dir info ref [] (if layer.minified then some file.metaInfo.uuid else none)
            commit

/-- One round of the loop over the layers. -/
def importRound (file : UABFile) (checksum : UabLayer → String) (layer : UabLayer)
    (p : Importing) : Importing :=
  if p.job.isDone then { p with returned := true }
  else
    match file.layerDir layer.path with
    | .error e =>
        { p with
          job := p.job.fail ("get status of" ++ layer.path.id ++ "/" ++ layer.path.module ++
            "failed:" ++ e)
          returned := true }
    | .ok dir =>
        if dir.present = false then
          { p with
            job := p.job.fail ("layer directory " ++ dir.path ++ " doesn't exist")
            returned := true }
        else
          match dir.info with
          | .error e => p.stop e
          | .ok info =>
              match Reference.fromPackageInfo info with
              | .error e => p.stop e
              | .ok ref => p.importOrSkip file layer dir info ref (checksum layer)

/-- The loop over the layers. -/
def importLoop (file : UABFile) (checksum : UabLayer → String) :
    List UabLayer → Importing → Importing :=
  loopUntil Importing.returned (importRound file checksum)

/-- An upgrade asks the user first. -/
def awaitReply (j : Job) : Option Interaction → Job
  | none => j
  | some interaction =>
      let j := if interaction.canceled then j.call .cancel else j
      if interaction.agreed then j else j.call (.updateState .canceled "canceled" none)

/-- The job that `installFromUAB` sets. -/
def installFromUAB (j : Job) (file : UABFile) (checksum : UabLayer → String)
    (interaction : Option Interaction) (containers : Containers) (oldRef : Option Reference)
    (layerInfos : List UabLayer) : Job :=
  let j := j.awaitReply interaction
  if j.isDone then j
  else
    let j := j.call (.updateState .processing "installing uab" none)
    let j := j.call (.updateSubState .preAction "prepare environment")
    match file.mountUab with
    | .error e => j.call (.reportError ⟨-1, e⟩)
    | .ok _ =>
        if j.isDone then j
        else if file.hasLayersDir = false then j.fail "the contents of this uab file are invalid"
        else
          let p := importLoop file checksum layerInfos ⟨j, [], false⟩
          if p.returned then { p.job with repo := rollback p.actions p.job.repo }
          else
            { p.job with repo := p.job.repo.afterImports containers oldRef }.call
              (.updateState .succeed "install uab successfully" none)

end Job

/-- `layerInfos`: the app layer comes first. -/
def UABFile.layerInfos (file : UABFile) (app : UabLayer) : List UabLayer :=
  app :: file.metaInfo.layers.eraseP fun layer => layer.info.kind == "app"

/-! ## Section 2: Jobs that succeed -/

namespace PackageTask

/-- The task has not succeeded, and not all of its parts are completed. -/
def Unfinished (t : PackageTask) : Prop := t.state ≠ .succeed ∧ t.taskParts.toNat ≠ t.refs.size

/-- The call neither completes a part nor the task. -/
def Call.isPlain : Call → Bool
  | .updateState .succeed _ _ | .updateState .partCompleted _ _ => false
  | _ => true

theorem Unfinished.updateState {t : PackageTask} (h : t.Unfinished) {s : State}
    (hsucceed : s ≠ .succeed) (hpart : s ≠ .partCompleted) (msg : String) (o : Option SubState) :
    (t.updateState s msg o).Unfinished := by
  obtain ⟨-, hparts⟩ := h
  unfold Unfinished
  rw [updateState_state, updateState_taskParts, updateState_refs, if_neg hpart, stateAfter,
    partsAfter, if_neg hpart, if_neg hparts]
  exact ⟨hsucceed, hparts⟩

/-- **Step**: plain calls do not finish a task. -/
theorem Unfinished.apply {t : PackageTask} (h : t.Unfinished) {c : Call}
    (hc : c.isPlain = true) : (t.apply c).Unfinished := by
  cases c with
  | updateState s msg o =>
    refine h.updateState (fun hs => ?_) (fun hs => ?_) msg o
    · rw [hs] at hc
      cases hc
    · rw [hs] at hc
      cases hc
  | updateSubState ss msg =>
    unfold Unfinished
    rw [PackageTask.apply, updateSubState_state, updateSubState_taskParts, updateSubState_refs]
    exact h
  | updateTask part whole msg =>
    unfold Unfinished
    rw [PackageTask.apply, updateTask_state, updateTask_taskParts, updateTask_refs]
    exact h
  | reportError e => exact ⟨by simp [PackageTask.apply, reportError], h.2⟩
  | cancel =>
    show t.cancel.Unfinished
    unfold cancel
    split
    · exact h
    · have hflag : ({ t with cancelFlag := true } : PackageTask).Unfinished := h
      exact hflag.updateState (by decide) (by decide) _ _

end PackageTask

namespace Job

open PackageTask

section Rounds

variable {file : UABFile} {checksum : UabLayer → String} {layer : UabLayer} {p : Importing}
  {dir : LayerDir} {info : PackageInfoV2} {ref : Reference} {overlays : List String}
  {subRef : Option String} {commit : String}

theorem importLayer_unfinished (h : p.job.task.Unfinished) :
    (p.importLayer dir info ref overlays subRef commit).job.task.Unfinished := by
  unfold Importing.importLayer perform
  cases Repo.importLayerDir dir overlays subRef commit p.job.repo with
  | ok u s => exact h
  | error e s => exact h.apply (c := .reportError ⟨-1, e⟩) rfl

/-- **Step**: no round finishes the task. -/
theorem importRound_unfinished (h : p.job.task.Unfinished) :
    (importRound file checksum layer p).job.task.Unfinished := by
  have hstop : ∀ e, (p.stop e).job.task.Unfinished :=
    fun e => h.apply (c := .reportError ⟨-1, e⟩) rfl
  have hfail : ∀ msg, (p.job.fail msg).task.Unfinished :=
    fun msg => h.apply (c := .updateState .failed msg none) rfl
  unfold importRound
  split
  · exact h
  split
  · exact hfail _
  split
  · exact hfail _
  split
  · exact hstop _
  split
  · exact hstop _
  · unfold Importing.importOrSkip
    split
    · split
      · exact hstop _
      · exact importLayer_unfinished h
    · split
      · exact hstop _
      · split
        · exact h
        · exact importLayer_unfinished h

theorem importLayer_ok
    (h : (p.importLayer dir info ref overlays subRef commit).returned = false) :
    Repo.importLayerDir dir overlays subRef commit p.job.repo =
      .ok () (p.importLayer dir info ref overlays subRef commit).job.repo := by
  unfold Importing.importLayer perform at h ⊢
  cases hrun : Repo.importLayerDir dir overlays subRef commit p.job.repo with
  | ok u s => rfl
  | error e s =>
    rw [hrun] at h
    cases h

/-- The layer is one that the job skips. -/
def Skips (s : Repo) (layer : UabLayer) (info : PackageInfoV2) (ref : Reference) : Prop :=
  layer.info.kind ≠ "app" ∧
    ∃ fuzzy, FuzzyReference.parse (ref.id ++ "/" ++ ref.version.toString) = .ok fuzzy ∧
      s.hasVersion fuzzy ref info.packageInfoV2Module = true

/-- What a round has done after which the loop goes on. -/
theorem importRound_ok (h : (importRound file checksum layer p).returned = false) :
    ∃ dir info ref, file.layerDir layer.path = .ok dir ∧ dir.info = .ok info ∧
      Reference.fromPackageInfo info = .ok ref ∧
      ((Skips p.job.repo layer info ref ∧ importRound file checksum layer p = p) ∨
        (¬ Skips p.job.repo layer info ref ∧ ∃ overlays subRef,
          Repo.importLayerDir dir overlays subRef (checksum layer) p.job.repo =
            .ok () (importRound file checksum layer p).job.repo)) := by
  unfold importRound at h ⊢
  -- each of the error returns comes before the layer is imported
  split at h
  · cases h
  next hdone =>
  split at h
  · cases h
  next dir hdir =>
  split at h
  · cases h
  next hpresent =>
  split at h
  · cases h
  next info hinfo =>
  split at h
  · cases h
  next ref href =>
  refine ⟨dir, info, ref, hdir, hinfo, href, ?_⟩
  simp only [if_neg hdone, if_neg hpresent]
  unfold Importing.importOrSkip at h ⊢
  split at h
  · next hkind =>
    split at h
    · cases h
    · next overlay hsign =>
      right
      simp only [if_pos hkind]
      exact ⟨fun hskips => hskips.1 hkind, overlay.toList, none, importLayer_ok h⟩
  · next hkind =>
    split at h
    · cases h
    · next fuzzy hfuzzy =>
      simp only [if_neg hkind]
      -- a runtime or base that is there in this version is skipped
      by_cases hversion : p.job.repo.hasVersion fuzzy ref info.packageInfoV2Module = true
      · rw [if_pos hversion]
        exact .inl ⟨⟨hkind, fuzzy, hfuzzy, hversion⟩, rfl⟩
      · rw [if_neg hversion] at h ⊢
        refine .inr ⟨?_, [], _, importLayer_ok h⟩
        rintro ⟨-, fuzzy', hfuzzy', hversion'⟩
        rw [hfuzzy] at hfuzzy'
        cases hfuzzy'
        exact hversion hversion'

end Rounds

/-- Waiting for the user neither finishes the task nor touches the
    repository. -/
theorem awaitReply_spec {j : Job} (h : j.task.Unfinished) (interaction : Option Interaction) :
    (j.awaitReply interaction).task.Unfinished ∧ (j.awaitReply interaction).repo = j.repo := by
  unfold awaitReply
  split
  · exact ⟨h, rfl⟩
  · next interaction =>
    have hcancel : (if interaction.canceled then j.call .cancel else j).task.Unfinished ∧
        (if interaction.canceled then j.call .cancel else j).repo = j.repo := by
      split
      · exact ⟨h.apply (c := .cancel) rfl, rfl⟩
      · exact ⟨h, rfl⟩
    simp only
    split
    · exact hcancel
    · exact ⟨hcancel.1.apply (c := .updateState .canceled "canceled" none) rfl, hcancel.2⟩

/-- **A job that succeeds** has imported all layers. -/
theorem installFromUAB_succeed {j : Job} {file : UABFile} {checksum : UabLayer → String}
    {interaction : Option Interaction} {containers : Containers} {oldRef : Option Reference}
    {layerInfos : List UabLayer} (htask : j.task.Unfinished)
    (h : (j.installFromUAB file checksum interaction containers oldRef layerInfos).task.state =
      .succeed) :
    ∃ start : Job, start.repo = j.repo ∧
      (importLoop file checksum layerInfos ⟨start, [], false⟩).returned = false ∧
      (j.installFromUAB file checksum interaction containers oldRef layerInfos).repo =
        (importLoop file checksum layerInfos ⟨start, [], false⟩).job.repo.afterImports containers
          oldRef := by
  obtain ⟨hwait, hrepo⟩ := awaitReply_spec htask interaction
  unfold installFromUAB at h ⊢
  simp only at h ⊢
  split at h
  · exact absurd h hwait.1
  next hdone =>
  rw [if_neg hdone]
  have hstart := (hwait.apply (c := .updateState .processing "installing uab" none) rfl).apply
    (c := .updateSubState .preAction "prepare environment") rfl
  -- the job as it is when the UAB is mounted
  generalize hj : ((j.awaitReply interaction).call
    (.updateState .processing "installing uab" none)).call
    (.updateSubState .preAction "prepare environment") = start at h ⊢
  have hstart' : start.task.Unfinished := by
    rw [← hj]
    exact hstart
  have hrepo' : start.repo = j.repo := by
    rw [← hj]
    exact hrepo
  split at h
  · next e _ => exact absurd h (hstart'.apply (c := .reportError ⟨-1, e⟩) rfl).1
  next hmount =>
  split at h
  · exact absurd h hstart'.1
  next hdone' =>
  split at h
  · exact absurd h (hstart'.apply
      (c := .updateState .failed "the contents of this uab file are invalid" none) rfl).1
  next hdir =>
  refine ⟨start, hrepo', ?_⟩
  -- a round that does not return leaves the task unfinished
  have hloop : (importLoop file checksum layerInfos ⟨start, [], false⟩).job.task.Unfinished :=
    loopUntil_rel (R := fun p p' : Importing => p.job.task.Unfinished → p'.job.task.Unfinished)
      (fun _ h => h) (fun _ _ _ h h' => h' ∘ h) (fun _ _ h => importRound_unfinished h)
      layerInfos ⟨start, [], false⟩ hstart'
  simp only [if_neg hdone', if_neg hdir]
  split at h
  · exact absurd h hloop.1
  · next hreturned =>
    have hfalse : (importLoop file checksum layerInfos ⟨start, [], false⟩).returned = false := by
      simpa using hreturned
    rw [if_neg hreturned]
    exact ⟨hfalse, rfl⟩

end Job

/-! ## Section 3: What the imports add -/

/-- The `info.json` of a layer in the file. -/
def UABFile.infoOf (file : UABFile) (layer : UabLayer) : Option PackageInfoV2 :=
  (file.layerDir layer.path).toOption.bind fun dir => dir.info.toOption

/-- The commit holds a layer of the package. -/
def Outside.HoldsId (outside : Outside) (id commit : String) : Prop :=
  ∀ info, outside.commitInfo commit = .ok info → info.id = id

namespace Repo

/-- All refs, here and on the remote, lead to layers of their packages, and
    ostree resolves a ref without remote to one of the refs that are set. -/
structure Faithful (s : Repo) : Prop where
  refs : ∀ e ∈ s.ostreeRefs, s.outside.HoldsId e.1.ref.id e.2
  resolveRev : ∀ refs ref commit, s.outside.resolveRev refs ref = some commit →
    ∃ remote, (⟨remote, ref⟩, commit) ∈ refs
  pulls : ∀ reply ∈ s.pulls, ∀ ref commit, reply.status ref = .ok commit →
    s.outside.HoldsId ref.id commit

/-- Every item has the `info.json` of its commit and a directory with a
    checked out layer. -/
structure Stored (s : Repo) : Prop where
  recorded : DeferredRemoval.Recorded s
  dirs : ∀ item ∈ s.layers, ∃ commit, s.layerDirs.lookup item.commit = some (some commit)
  faithful : s.Faithful

/-- The test that skips a layer, on the items alone. -/
def listsVersion (s : Repo) (info : PackageInfoV2) : Bool :=
  match Reference.fromPackageInfo info with
  | .error _ => false
  | .ok ref =>
      match s.resolveDependency (ref.id ++ "/" ++ ref.version.toString) with
      | .error _ => false
      | .ok localRef =>
          (s.getLayerItem localRef info.packageInfoV2Module none).toOption.isSome &&
            ref.version.eq localRef.version

/-- The items with a layer of the UAB added, unless it is a dependency whose
    version is there already. -/
def addLayer (file : UABFile) (checksum : UabLayer → String) (s : Repo) (layer : UabLayer) : Repo :=
  match file.infoOf layer with
  | none => s
  | some info =>
      if layer.info.kind ≠ "app" ∧ s.listsVersion info = true then s
      else { s with layers := s.layers ++ [localItem (checksum layer) info] }

/-- The repository with the items that the layers of a UAB add. -/
def withLayers (file : UABFile) (checksum : UabLayer → String) (layers : List UabLayer)
    (s : Repo) : Repo :=
  layers.foldl (addLayer file checksum) s

/-! ### Lookups see items only -/

section Congr

variable {s s' : Repo} (houtside : s'.outside = s.outside) (hlayers : s'.layers = s.layers)

include houtside hlayers

theorem queryLayerItem_congr (query : RepoCacheQuery) :
    s'.queryLayerItem query = s.queryLayerItem query := by
  unfold queryLayerItem
  rw [houtside, hlayers]

theorem getLayerItem_congr (ref : Reference) (module : String) (subRef : Option String) :
    s'.getLayerItem ref module subRef = s.getLayerItem ref module subRef := by
  unfold getLayerItem
  simp only [queryLayerItem_congr houtside hlayers]

theorem resolveDependency_congr (text : String) :
    s'.resolveDependency text = s.resolveDependency text := by
  unfold resolveDependency clearReferenceLocal checkLocalArch searchLocal
  simp only [queryLayerItem_congr houtside hlayers, houtside]

theorem addLayer_congr (file : UABFile) (checksum : UabLayer → String) (layer : UabLayer) :
    (s'.addLayer file checksum layer).outside = (s.addLayer file checksum layer).outside ∧
      (s'.addLayer file checksum layer).layers = (s.addLayer file checksum layer).layers := by
  have hlists : ∀ info, s'.listsVersion info = s.listsVersion info := by
    intro info
    unfold listsVersion
    simp only [resolveDependency_congr houtside hlayers, getLayerItem_congr houtside hlayers]
  unfold addLayer
  cases file.infoOf layer with
  | none => exact ⟨houtside, hlayers⟩
  | some info =>
    simp only [hlists]
    split
    · exact ⟨houtside, hlayers⟩
    · exact ⟨houtside, by rw [hlayers]⟩

end Congr

@[simp] theorem outside_addLayer (file : UABFile) (checksum : UabLayer → String) (s : Repo)
    (layer : UabLayer) : (s.addLayer file checksum layer).outside = s.outside := by
  unfold addLayer
  split
  · rfl
  · split <;> rfl

@[simp] theorem outside_withLayers (file : UABFile) (checksum : UabLayer → String)
    (layers : List UabLayer) (s : Repo) :
    (s.withLayers file checksum layers).outside = s.outside := by
  induction layers generalizing s with
  | nil => rfl
  | cons layer layers ih => exact (ih _).trans (outside_addLayer file checksum s layer)

theorem withLayers_congr {file : UABFile} {checksum : UabLayer → String} {layers : List UabLayer}
    {s s' : Repo} (houtside : s'.outside = s.outside) (hlayers : s'.layers = s.layers) :
    (s'.withLayers file checksum layers).layers = (s.withLayers file checksum layers).layers := by
  induction layers generalizing s s' with
  | nil => exact hlayers
  | cons layer layers ih =>
    obtain ⟨houtside', hlayers'⟩ := addLayer_congr houtside hlayers file checksum layer
    exact ih houtside' hlayers'

/-! ### One import -/

/-- What is left of the stores once a checkout has been tried. -/
structure AddsAtMost (item : RepositoryCacheLayersItem) (s s' : Repo) : Prop where
  outside : s'.outside = s.outside
  ostreeRefs : s'.ostreeRefs = s.ostreeRefs
  pulls : s'.pulls = s.pulls
  layers : s'.layers = s.layers ∨ s'.layers = s.layers ++ [item]

theorem OnlyDir.addsAtMost {item : RepositoryCacheLayersItem} {s s' : Repo}
    (h : OnlyDir item.commit s s') : AddsAtMost item s s' :=
  ⟨h.outside, h.ostreeRefs, h.pulls, .inl h.layers⟩

theorem addsAtMost_addCheckedOut (item : RepositoryCacheLayersItem) (s : Repo) :
    AddsAtMost item s (after (addCheckedOut item) s) := by
  have hempty : OnlyDir item.commit s (after (ensureEmptyLayerDir item.commit) s) :=
    onlyDir_ensureEmptyLayerDir s
  cases hrun : ensureEmptyLayerDir item.commit s with
  | error e s₁ =>
    rw [after_of_error hrun] at hempty
    have hstop : addCheckedOut item s = .error e s₁ := bind_of_error hrun
    rw [after_of_error hstop]
    exact hempty.addsAtMost
  | ok u s₁ =>
    rw [after_of_ok hrun] at hempty
    have hstart : addCheckedOut item s = handleRepositoryUpdate item s₁ := bind_of_ok hrun
    have hcheckout : OnlyDir item.commit s₁ (after (checkoutLayer item) s₁) :=
      onlyDir_checkoutLayer s₁
    cases hrun' : checkoutLayer item s₁ with
    | error e s₂ =>
      rw [after_of_error hrun'] at hcheckout
      rw [after_of_error (hstart.trans (bind_of_error hrun'))]
      exact (hempty.trans hcheckout).addsAtMost
    | ok u s₂ =>
      rw [after_of_ok hrun'] at hcheckout
      have hadd : addCheckedOut item s = addLayerItem item s₂ := hstart.trans (bind_of_ok hrun')
      have hafter : after (addCheckedOut item) s = after (addLayerItem item) s₂ := by
        rw [after, after, hadd]
      have hboth := hempty.trans hcheckout
      rw [hafter]
      -- only the last step touches the cache
      rcases addLayerItem_cases item s₂ with ⟨e, herror⟩ | ⟨-, faults, json, hlast⟩
      · rw [after_of_error herror]
        exact hboth.addsAtMost
      · rw [hlast]
        refine ⟨hboth.outside, hboth.ostreeRefs, hboth.pulls, .inr ?_⟩
        show s₂.layers ++ [item] = s.layers ++ [item]
        rw [hboth.layers]

theorem AddsAtMost.of_ok {item : RepositoryCacheLayersItem} {s s' : Repo}
    (h : addCheckedOut item s = .ok () s') : AddsAtMost item s s' := by
  have hafter := addsAtMost_addCheckedOut item s
  rwa [after_of_ok h] at hafter

/-- **Step**: a successful import. -/
theorem Stored.importLayerDir {s s' : Repo} (h : s.Stored) {dir : LayerDir}
    {overlays : List String} {subRef : Option String} {commit : String} {info : PackageInfoV2}
    (hinfo : dir.info = .ok info) (hcommit : s.outside.commitInfo commit = .ok info)
    (hrun : Repo.importLayerDir dir overlays subRef commit s = .ok () s') :
    s'.Stored ∧ s'.outside = s.outside ∧ s'.layers = s.layers ++ [localItem commit info] := by
  obtain ⟨info', reference, htarget, hdone⟩ := importLayerDir_ok hrun
  obtain ⟨hinfo', href, -⟩ := importTarget_ok htarget
  rw [hinfo] at hinfo'
  cases hinfo'
  have houtside : s'.outside = s.outside := hdone.outside
  have hlayers : s'.layers = s.layers ++ [localItem commit info] := hdone.layers
  have hfresh : s.layerDirs.lookup commit = none := hdone.fresh
  -- no step of the import changes what pulls bring
  have hpulls : s'.pulls = s.pulls := by
    obtain ⟨⟨_, _⟩, s₁, hdemand, hrest⟩ := bind_ok_iff.1 hrun
    obtain ⟨-, rfl⟩ := demand_ok hdemand
    obtain ⟨_, s₂, hset, hadd⟩ := bind_ok_iff.1 hrest
    obtain ⟨_, s₃, hwrite, hset'⟩ := bind_ok_iff.1 hset
    obtain ⟨faults, rfl, -⟩ := (popsOnly_writeCommit _).of_ok hwrite
    cases hset'
    exact (AddsAtMost.of_ok hadd).pulls
  refine ⟨⟨fun item hitem => ?_, fun item hitem => ?_, ?_⟩, houtside, hlayers⟩
  · rw [houtside]
    rw [hlayers] at hitem
    rcases List.mem_append.1 hitem with hitem | hitem
    · exact h.recorded item hitem
    · rw [List.mem_singleton.1 hitem]
      exact hcommit
  · rw [hlayers] at hitem
    rcases List.mem_append.1 hitem with hitem | hitem
    · obtain ⟨content, hdir⟩ := h.dirs item hitem
      refine ⟨content, ?_⟩
      -- the new directory is not the one of an earlier item
      have hne : item.commit ≠ commit := by
        intro heq
        rw [heq, hfresh] at hdir
        cases hdir
      exact (hdone.dirs item.commit hne).trans hdir
    · rw [List.mem_singleton.1 hitem]
      obtain ⟨content, -, hdir⟩ := hdone.content
      exact ⟨content, hdir⟩
  · refine ⟨fun e he => ?_, by rw [houtside]; exact h.faithful.resolveRev,
      by rw [houtside, hpulls]; exact h.faithful.pulls⟩
    rw [houtside]
    rw [hdone.ostreeRefs] at he
    rcases List.mem_cons.1 he with rfl | he
    · intro info' hinfo'
      rw [hcommit] at hinfo'
      cases hinfo'
      exact (Reference.fromPackageInfo_ok href).2.2.2.symm
    · exact h.faithful.refs e (List.mem_of_mem_filter he)

end Repo

namespace Job

section Imports

variable {file : UABFile} {checksum : UabLayer → String}

/-- Where every item has its directory, items decide what is skipped. -/
theorem skips_iff {s : Repo} (h : s.Stored) {layer : UabLayer} {info : PackageInfoV2}
    {ref : Reference} (href : Reference.fromPackageInfo info = .ok ref) :
    Skips s layer info ref ↔ layer.info.kind ≠ "app" ∧ s.listsVersion info = true := by
  -- the directory is there iff the item is
  have hdir : ∀ localRef, (∃ content, s.getLayerDir localRef info.packageInfoV2Module none =
      .ok content ∧ content.isSome = true) ↔
      (s.getLayerItem localRef info.packageInfoV2Module none).toOption.isSome = true := by
    intro localRef
    constructor
    · rintro ⟨content, hcontent, -⟩
      obtain ⟨item, hitem, -⟩ := Repo.getLayerDir_ok_iff.1 hcontent
      rw [hitem]
      rfl
    · intro hsome
      cases hitem : s.getLayerItem localRef info.packageInfoV2Module none with
      | error e => simp [hitem, Except.toOption] at hsome
      | ok item =>
        obtain ⟨commit, hlookup⟩ := h.dirs item
          (mem_layersOf.1 (Repo.getLayerItem_mem hitem).1).1
        exact ⟨some commit, Repo.getLayerDir_ok_iff.2 ⟨item, hitem, hlookup⟩, rfl⟩
  have hhas : ∀ fuzzy, s.hasVersion fuzzy ref info.packageInfoV2Module = true ↔
      ∃ localRef, s.clearReferenceLocal fuzzy = .ok localRef ∧
        (s.getLayerItem localRef info.packageInfoV2Module none).toOption.isSome = true ∧
        ref.version.eq localRef.version = true := by
    intro fuzzy
    unfold Repo.hasVersion
    cases s.clearReferenceLocal fuzzy with
    | error e => simp
    | ok localRef =>
      simp only [Except.ok.injEq, exists_eq_left', ← hdir]
      cases s.getLayerDir localRef info.packageInfoV2Module none <;> simp
  have hlists : s.listsVersion info = true ↔
      ∃ localRef, s.resolveDependency (ref.id ++ "/" ++ ref.version.toString) = .ok localRef ∧
        (s.getLayerItem localRef info.packageInfoV2Module none).toOption.isSome = true ∧
        ref.version.eq localRef.version = true := by
    unfold Repo.listsVersion
    simp only [href]
    cases hresolve : s.resolveDependency (ref.id ++ "/" ++ ref.version.toString) with
    | error e => simp
    | ok localRef => simp
  rw [hlists]
  simp only [Skips, hhas, Repo.resolveDependency_ok_iff]
  constructor
  · rintro ⟨hkind, fuzzy, hfuzzy, localRef, hclear, hrest⟩
    exact ⟨hkind, localRef, ⟨fuzzy, hfuzzy, hclear⟩, hrest⟩
  · rintro ⟨hkind, localRef, ⟨fuzzy, hfuzzy, hclear⟩, hrest⟩
    exact ⟨hkind, fuzzy, hfuzzy, localRef, hclear, hrest⟩

/-- **Step**: a round after which the loop goes on. -/
theorem importRound_layers {layer : UabLayer} {p : Importing} (h : p.job.repo.Stored)
    (hcommits : ∀ layer info, file.infoOf layer = some info →
      p.job.repo.outside.commitInfo (checksum layer) = .ok info)
    (hround : (importRound file checksum layer p).returned = false) :
    (importRound file checksum layer p).job.repo.Stored ∧
      (importRound file checksum layer p).job.repo.outside = p.job.repo.outside ∧
      (importRound file checksum layer p).job.repo.layers =
        (p.job.repo.addLayer file checksum layer).layers := by
  obtain ⟨dir, info, ref, hdir, hinfo, href, hcase⟩ := importRound_ok hround
  have hinfoOf : file.infoOf layer = some info := by
    rw [UABFile.infoOf, hdir]
    simp [Except.toOption, hinfo]
  unfold Repo.addLayer
  rw [hinfoOf]
  simp only
  rcases hcase with ⟨hskips, hsame⟩ | ⟨hskips, overlays, subRef, hrun⟩
  · rw [hsame, if_pos ((skips_iff h href).1 hskips)]
    exact ⟨h, rfl, rfl⟩
  · rw [if_neg (mt (skips_iff h href).2 hskips)]
    exact h.importLayerDir hinfo (hcommits layer info hinfoOf) hrun

/-- **Run**: the items after a loop that got to its end. -/
theorem imported_layers {start : Job} {layerInfos : List UabLayer} (h : start.repo.Stored)
    (hcommits : ∀ layer info, file.infoOf layer = some info →
      start.repo.outside.commitInfo (checksum layer) = .ok info)
    (hloop : (importLoop file checksum layerInfos ⟨start, [], false⟩).returned = false) :
    (importLoop file checksum layerInfos ⟨start, [], false⟩).job.repo.Stored ∧
      (importLoop file checksum layerInfos ⟨start, [], false⟩).job.repo.outside =
        start.repo.outside ∧
      (importLoop file checksum layerInfos ⟨start, [], false⟩).job.repo.layers =
        (start.repo.withLayers file checksum layerInfos).layers := by
  -- the layers that are still to come would lead to the same items in the end
  have hinv := loopUntil_inv_nil (f := importRound file checksum)
    (I := fun rest p => p.job.repo.Stored ∧ p.job.repo.outside = start.repo.outside ∧
      (p.job.repo.withLayers file checksum rest).layers =
        (start.repo.withLayers file checksum layerInfos).layers)
    (fun layer rest p hp hround => by
      obtain ⟨hstored, houtside, hlayers⟩ := hp
      obtain ⟨hstored', houtside', hlayers'⟩ := importRound_layers hstored
        (by rw [houtside]; exact hcommits) hround
      refine ⟨hstored', houtside'.trans houtside, ?_⟩
      rw [← hlayers]
      have hadd := Repo.outside_addLayer file checksum p.job.repo layer
      exact Repo.withLayers_congr (houtside'.trans hadd.symm) hlayers')
    (l := layerInfos) (s := ⟨start, [], false⟩) ⟨h, rfl, rfl⟩ hloop
  exact hinv

end Imports

end Job

/-! ## Section 4: Removing the old version -/

namespace Repo

/-- The items of one package. -/
def itemsOf (id : String) (s : Repo) : List RepositoryCacheLayersItem :=
  s.layers.filter fun item => item.info.id == id

/-- The package keeps its items. -/
structure Leaves (id : String) (s s' : Repo) : Prop where
  outside : s'.outside = s.outside
  faithful : s.Faithful → s'.Faithful
  items : s.Faithful → s'.itemsOf id = s.itemsOf id

theorem Faithful.mono {s s' : Repo} (h : s.Faithful) (houtside : s'.outside = s.outside)
    (hrefs : s'.ostreeRefs ⊆ s.ostreeRefs) (hpulls : s'.pulls ⊆ s.pulls) : s'.Faithful where
  refs := fun e he => by rw [houtside]; exact h.refs e (hrefs he)
  resolveRev := by rw [houtside]; exact h.resolveRev
  pulls := fun reply hreply => by rw [houtside]; exact h.pulls reply (hpulls hreply)

/-- Changing the first match does not touch what cannot match. -/
theorem filter_setDeletedFirst_of_disjoint {p q : RepositoryCacheLayersItem → Bool}
    {deleted : Option Bool} (h : ∀ a, p a = true → q a = false)
    (hmark : ∀ a, q { a with deleted := deleted } = q a) (l : List RepositoryCacheLayersItem) :
    (setDeletedFirst p deleted l).filter q = l.filter q := by
  induction l with
  | nil => rfl
  | cons a l ih =>
    unfold setDeletedFirst
    by_cases hp : p a = true
    · have hq : ¬ q a = true := by simp [h a hp]
      have hq' : ¬ q { a with deleted := deleted } = true := by rwa [hmark]
      rw [if_pos hp, List.filter_cons_of_neg hq, List.filter_cons_of_neg hq']
    · rw [if_neg hp, List.filter_cons, List.filter_cons, ih]

section Leaves

variable {id : String}

theorem Leaves.refl (s : Repo) : Leaves id s s := ⟨rfl, fun h => h, fun _ => rfl⟩

theorem Leaves.trans {s₁ s₂ s₃ : Repo} (h : Leaves id s₁ s₂) (h' : Leaves id s₂ s₃) :
    Leaves id s₁ s₃ where
  outside := h'.outside.trans h.outside
  faithful := fun hf => h'.faithful (h.faithful hf)
  items := fun hf => (h'.items (h.faithful hf)).trans (h.items hf)

instance : Std.Refl (Leaves id) := ⟨Leaves.refl⟩

instance : IsTrans Repo (Leaves id) := ⟨fun _ _ _ => Leaves.trans⟩

theorem leaves_mergeModules : Within (Leaves id) mergeModules := by
  intro s
  have hframe := mergeFrame_mergeModules s
  refine ⟨hframe.outside, fun hf => hf.mono hframe.outside ?_ ?_, fun _ => ?_⟩
  · rw [hframe.ostreeRefs]
    exact List.Subset.refl _
  · rw [hframe.pulls]
    exact List.Subset.refl _
  · rw [itemsOf, itemsOf, hframe.layers]

/-- What matches a layer of another package is none of this one. -/
theorem id_ne_of_matchesItem {ref : Reference} (hne : ref.id ≠ id)
    {item b : RepositoryCacheLayersItem} (hitem : item.isLayerOf ref = true)
    (hmatch : item.matchesItem b = true) : (b.info.id == id) = false := by
  have hid : b.info.id = ref.id := by
    obtain ⟨-, -, -, hid, -⟩ := matchesItem_iff.1 hmatch
    rw [← hid]
    exact (isLayerOf_iff.1 hitem).1
  rw [hid]
  exact beq_false_of_ne hne

theorem leaves_markDeleted {ref : Reference} (hne : ref.id ≠ id) (deleted : Bool)
    (module : String) : Within (Leaves id) (markDeleted ref deleted module) := by
  intro s
  rcases markDeleted_cases ref deleted module s with ⟨e, faults, -, hrun, -⟩ |
    ⟨layer, faults, -, hlayer, hrun⟩
  · rw [after_of_error hrun]
    exact ⟨rfl, fun hf => hf.mono rfl (List.Subset.refl _) (List.Subset.refl _), fun _ => rfl⟩
  · rw [after_of_ok hrun]
    have hof := (mem_layersOf.1 (getLayerItem_mem hlayer).1).2
    refine ⟨rfl, fun hf => hf.mono rfl (List.Subset.refl _) (List.Subset.refl _), fun _ => ?_⟩
    exact filter_setDeletedFirst_of_disjoint (p := layer.matchesItem)
      (q := fun item => item.info.id == id)
      (fun _ hb => id_ne_of_matchesItem hne hof hb) (fun _ => rfl) s.layers

theorem leaves_remove {ref : Reference} (hne : ref.id ≠ id) (module : String)
    (subRef : Option String) : Within (Leaves id) (remove ref module subRef) := by
  intro s
  rcases remove_cases ref module subRef s with ⟨e, faults, -, hrun, -⟩ |
    ⟨layer, faults, json, dirs, -, hlayer, hrun, -, -⟩
  · rw [after_of_error hrun]
    exact ⟨rfl, fun hf => hf.mono rfl (List.Subset.refl _) (List.Subset.refl _), fun _ => rfl⟩
  · rw [hrun]
    have hof := (mem_layersOf.1 (getLayerItem_mem hlayer).1).2
    refine ⟨rfl, fun hf => hf.mono rfl (List.filter_subset_self _) (List.Subset.refl _), fun _ => ?_⟩
    exact filter_eraseP_of_disjoint (fun _ hb => id_ne_of_matchesItem hne hof hb) s.layers

theorem leaves_ostreePull (s : Repo) (ref : OstreeRef) : Leaves id s (s.ostreePull ref).1 := by
  unfold ostreePull
  split
  · exact .refl s
  · next reply rest hpulls =>
    have hrest : rest ⊆ s.pulls := by
      rw [hpulls]
      exact List.subset_cons_self _ _
    simp only
    split
    · next commit hcommit =>
      refine ⟨rfl, fun hf => ⟨fun e he => ?_, hf.resolveRev, fun r hr => hf.pulls r (hrest hr)⟩,
        fun _ => rfl⟩
      rcases List.mem_cons.1 he with rfl | he
      · exact hf.pulls reply (by simp [hpulls]) ref commit hcommit
      · exact hf.refs e (List.mem_of_mem_filter he)
    · exact ⟨rfl, fun hf => hf.mono rfl (List.Subset.refl _) hrest, fun _ => rfl⟩

/-- The commit of a ref is a layer of the ref's package. -/
theorem Faithful.pulledItem {s : Repo} (h : s.Faithful) {ref : OstreeRef}
    {item : RepositoryCacheLayersItem} (hitem : s.pulledItem ref = .ok item) :
    item.info.id = ref.id := by
  unfold Repo.pulledItem at hitem
  cases hrev : s.outside.resolveRev s.ostreeRefs ref with
  | none => simp [hrev] at hitem
  | some commit =>
    rw [hrev] at hitem
    obtain ⟨remote, hmem⟩ := h.resolveRev _ _ _ hrev
    cases hinfo : s.outside.commitInfo commit with
    | error e => simp [hinfo, Except.map] at hitem
    | ok info =>
      simp only [hinfo, Except.map, Except.ok.injEq] at hitem
      rw [← hitem]
      exact h.refs _ hmem info hinfo

theorem leaves_finishPull {ref : OstreeRef} (hne : ref.id ≠ id) (s : Repo) :
    Leaves id s (s.finishPull ref).1 := by
  have hafter : (s.finishPull ref).1 = after (checkoutPulled ref) s := by
    unfold finishPull after
    cases checkoutPulled ref s <;> rfl
  have hrun := checkoutPulled_run ref s
  rw [hafter]
  cases hitem : s.pulledItem ref with
  | error e =>
    rw [hitem] at hrun
    rw [after_of_error hrun]
    exact .refl s
  | ok item =>
    rw [hitem] at hrun
    have hadds := addsAtMost_addCheckedOut item s
    have hsame : after (checkoutPulled ref) s = after (addCheckedOut item) s := by
      rw [after, after, hrun]
    rw [hsame]
    refine ⟨hadds.outside, fun hf => hf.mono hadds.outside ?_ ?_, fun hf => ?_⟩
    · rw [hadds.ostreeRefs]
      exact List.Subset.refl _
    · rw [hadds.pulls]
      exact List.Subset.refl _
    · -- what is added has another id
      have hid : (item.info.id == id) = false := by
        rw [hf.pulledItem hitem]
        exact beq_false_of_ne hne
      unfold itemsOf
      rcases hadds.layers with hlayers | hlayers
      · rw [hlayers]
      · rw [hlayers, List.filter_append]
        simp [hid]

theorem leaves_pull {ref : Reference} (hne : ref.id ≠ id) (module : String) (s : Repo) :
    Leaves id s (s.pull ref module).1 := by
  have hfirst : Leaves id s (s.ostreePull (ostreeSpecFromReferenceV2 ref module none)).1 :=
    leaves_ostreePull s _
  -- a second try, under the old name of the module
  have hold : ∀ s : Repo, Leaves id s (s.pullOldName ref module).1 := by
    intro s
    have hsecond : Leaves id s (s.ostreePull (ostreeSpecFromReference ref module)).1 :=
      leaves_ostreePull s _
    unfold pullOldName
    simp only
    rcases hreply : s.ostreePull (ostreeSpecFromReference ref module) with ⟨s', calls, status⟩
    rw [hreply] at hsecond
    cases status with
    | ok commit => exact hsecond.trans (leaves_finishPull hne s')
    | noSuchBranch e => exact hsecond
    | error e => exact hsecond
  unfold pull
  simp only
  rcases hreply : s.ostreePull (ostreeSpecFromReferenceV2 ref module none) with ⟨s', calls, status⟩
  rw [hreply] at hfirst
  cases status with
  | ok commit => exact hfirst.trans (leaves_finishPull hne s')
  | error e => exact hfirst
  | noSuchBranch e =>
    simp only
    split
    · exact hfirst.trans (hold s')
    · exact hfirst.trans (leaves_finishPull hne s')

/-- **The end of the job** leaves other packages alone. -/
theorem leaves_afterImports {containers : Containers} {oldRef : Option Reference}
    (hne : ∀ old ∈ oldRef, old.id ≠ id) (s : Repo) :
    Leaves id s (s.afterImports containers oldRef) := by
  unfold afterImports
  cases oldRef with
  | none => exact leaves_mergeModules s
  | some old =>
    have hold : old.id ≠ id := hne old rfl
    exact removeAfterInstall_within (fun deleted module => leaves_markDeleted hold deleted module)
      (fun _ => ⟨fun module => leaves_remove hold module none,
        fun module => leaves_pull hold module, leaves_mergeModules⟩) _ s

/-- The same for the directories of a reference. -/
theorem keepsLayers_afterImports {containers : Containers} {oldRef : Option Reference}
    {ref : Reference} (hne : ∀ old ∈ oldRef, old.id ≠ ref.id) (s : Repo) :
    DeferredRemoval.KeepsLayers ref s (s.afterImports containers oldRef) := by
  unfold afterImports
  cases oldRef with
  | none => exact DeferredRemoval.keepsLayers_mergeModules s
  | some old =>
    have hold : ¬ SameLayers old ref := fun hsame => hne old rfl hsame.1
    exact (DeferredRemoval.operationFrame_keepsLayers ref).removeAfterInstall_rel
      (fun _ => ⟨hold, DeferredRemoval.keepsLayers_mergeModules⟩) _ s

end Leaves

end Repo

end Linglong
