import Linglong.Builder.ModulePlacement
import Linglong.PackageManager.Frame
import Linglong.Repo.Import
import Linglong.Repo.NewestVersion

/-! # Building a Project

    `Builder::build` (`linglong_builder.cpp`) takes a project through its
    stages: sources are fetched, base and runtime are pulled, the build runs
    in a container, its files are sorted into modules, and each module
    becomes a layer of the local repository.

    The layers of an earlier build have to go first, since `importLayerDir`
    refuses a module that exists. They go after all the stages that depend
    on the project, and nothing brings them back.

    What the stages outside of the repository do is up to `BuildStages`:
    whether each of them works. `installModule` and `copyDir` have models of
    their own.

    1. The project, the options and the stages.
    2. The modules and the package.
    3. Dependencies.
    4. The stages before the commit, the commit, `build`.
    5. What a build leaves alone (`build_keeps`).
-/

namespace Linglong.Builder

open Framework RepositoryCacheLayersItem Repo

/-! ## Section 1: Projects -/

/-- `api::types::v1::BuilderProjectModules`. -/
structure BuilderProjectModules where
  files : List String
  name : String
  deriving DecidableEq

/-- `api::types::v1::BuilderProject` with its package. -/
structure BuilderProject where
  id : String
  version : String
  kind : String
  architecture : Option String
  base : String
  runtime : Option String
  command : Option (List String)
  modules : Option (List BuilderProjectModules)
  hasSources : Bool

/-- `BuilderBuildOptions`. -/
structure BuilderBuildOptions where
  fullDevelop : Bool := false
  skipFetchSource : Bool := false
  skipPullDepend : Bool := false
  skipRunContainer : Bool := false
  skipCommitOutput : Bool := false

/-- How the stages outside of the repository end. -/
structure BuildStages where
  /-- `fetchSources`. -/
  fetchSources : Except String Unit
  /-- Writing `entry.sh`, and emptying `linglong/output`. -/
  writeEntry : Except String Unit
  /-- Creating the container over base and runtime, and running it. -/
  runContainer : ModuleDir → Option ModuleDir → Except String Unit
  /-- Copying the full `develop` module, and `installModule`. -/
  installFiles : List BuilderProjectModules → Except String Unit
  /-- Making `binary/entries`. -/
  generateEntries : Except String Unit
  /-- Writing the `info.json` of a module, by its place in the list. -/
  writeInfo : Nat → Except String Unit
  /-- Copying `linglong.yaml` to where there is none. -/
  copyYaml : Nat → Except String Unit
  /-- The checksum of the commit of a module. -/
  checksum : Nat → String
  /-- What reading the tweak of a version that is not there gives. -/
  strayTweak : Bool

/-! ## Section 2: Modules and package -/

/-- `currentReference`. -/
def currentReference (outside : Outside) (project : BuilderProject) : Except String Reference := do
  let version ← Version.parse project.version
  let architecture ← (project.architecture.map Architecture.parse).getD outside.cpuArch
  Reference.create "main" project.id version architecture

/-- The checks of `parseProjectConfig` on what it has read. -/
def parseProjectConfig (project : BuilderProject) : Except String BuilderProject := do
  let version ← Version.parse project.version
  if version.tweak.isNone then
    .error ("Please ensure the package.version number has three parts formatted as " ++
      "'MAJOR.MINOR.PATCH.TWEAK'")
  else if (project.modules.getD []).any fun module => module.name == "binary" then
    .error ("configuration of binary modules is not allowed. see " ++
      "https://linglong.space/guide/ll-builder/modules.html")
  else if project.kind = "app" ∧ project.command.isNone then
    .error "'command' field is missing, app should hava command as the default startup command"
  else return project

/-- The module `develop` of a project that has none. -/
def defaultDevelop : BuilderProjectModules :=
  ⟨InstallModule.developRules.map String.ofList, "develop"⟩

/-- `projectModules`. -/
def projectModules (project : BuilderProject) (options : BuilderBuildOptions) :
    List BuilderProjectModules :=
  let modules := project.modules.getD []
  let hasDevelop := modules.any fun module => module.name == "develop"
  if !options.fullDevelop && !hasDevelop then modules ++ [defaultDevelop] else modules

/-- The modules in the order in which they are committed. -/
def moduleNames (project : BuilderProject) (options : BuilderBuildOptions) : List String :=
  ["binary"] ++ (if options.fullDevelop then ["develop"] else []) ++
    (projectModules project options).map BuilderProjectModules.name

/-- `fuzzyRef->version->tweak`. -/
def BuildStages.hasTweak (stages : BuildStages) (fuzzyRef : FuzzyReference) : Bool :=
  match fuzzyRef.version with
  | some version => version.tweak.isSome
  | none => stages.strayTweak

/-- How a dependency is written down: "if the base version is likes 20.0.0,
    we should also write 20.0.0 to info.json". -/
def BuildStages.dependencyText (stages : BuildStages) (fuzzyRef : FuzzyReference)
    (ref : Reference) : String :=
  if stages.hasTweak fuzzyRef then ref.toString
  else { ref with version := { ref.version with tweak := none } }.toString

/-- A dependency: as it was asked for, and what was found. -/
structure Dependency where
  fuzzyRef : FuzzyReference
  ref : Reference
  dir : ModuleDir

/-- The `info.json` of the layers, but for the module. -/
def packageInfo (project : BuilderProject) (stages : BuildStages) (arch : Architecture)
    (ref : Reference) (base : Dependency) (runtime : Option Dependency) : PackageInfoV2 where
  arch := [arch.toString]
  base := stages.dependencyText base.fuzzyRef base.ref
  channel := ref.channel
  id := project.id
  kind := project.kind
  packageInfoV2Module := ""
  runtime := runtime.map fun r => stages.dependencyText r.fuzzyRef r.ref
  uuid := none
  version := project.version

/-! ## Section 3: Dependencies -/

/-- Use a result that does not come from the repository. -/
def given {α : Type} (result : Except String α) : RepoM α := demand fun _ => result

/-- `clearReference` without a fallback: in the repository or in the remote. -/
def clearDependency (fuzzyRef : FuzzyReference) (onlyLocal : Bool) : RepoM Reference := fun s =>
  if onlyLocal then demand (fun s => s.clearReferenceLocal fuzzyRef) s
  else
    match s.listRemote with
    | (s', _, list) => given (remoteReference fuzzyRef "binary" list) s'

/-- `repo.pull` with a temporary task of which the state is looked at. -/
def pullLayer (ref : Reference) (module : String) : RepoM Unit := fun s =>
  match s.pull ref module with
  | (s', calls) =>
      if ((PackageTask.createTemporaryTask "temporary").run calls).state = .failed then
        .error ("pull " ++ ref.toString ++ " failed") s'
      else .ok () s'

/-- `pullDependency`. -/
def pullDependency (fuzzyRef : FuzzyReference) (module : String) (onlyLocal : Bool) :
    RepoM Reference := do
  let ref ← clearDependency fuzzyRef onlyLocal
  if onlyLocal then return ref
  let s ← get
  match s.getLayerDir ref module none with
  | .ok _ => return ref
  | .error _ =>
      pullLayer ref module
      return ref

/-- Both modules of a dependency, put together by `mergeModules`. -/
def pullModules (text : String) (onlyLocal : Bool) : RepoM (FuzzyReference × Reference) := do
  let fuzzyRef ← given (FuzzyReference.parse text)
  let _ ← pullDependency fuzzyRef "binary" onlyLocal
  let ref ← pullDependency fuzzyRef "develop" onlyLocal
  mergeModules
  return (fuzzyRef, ref)

/-- The base. If it has no merged directory the build ends, also when the
    directory of `develop` is there. -/
def pullBase (text : String) (onlyLocal : Bool) : RepoM Dependency := do
  let (fuzzyRef, ref) ← pullModules text onlyLocal
  let dir ← demand fun s => s.getMergedModuleDir ref false
  return ⟨fuzzyRef, ref, dir⟩

/-- The runtime. It falls back to the directory of `develop`. -/
def pullRuntime (text : String) (onlyLocal : Bool) : RepoM Dependency := do
  let (fuzzyRef, ref) ← pullModules text onlyLocal
  let dir ← demand fun s =>
    match s.getMergedModuleDir ref false with
    | .ok dir => .ok dir
    | .error _ => (s.getLayerDir ref "develop" none).map ModuleDir.layer
  return ⟨fuzzyRef, ref, dir⟩

/-! ## Section 4: Stages -/

/-- What there is to commit. -/
structure Output where
  ref : Reference
  info : PackageInfoV2

/-- "Fetch Source Stage". -/
def fetchSourceStage (project : BuilderProject) (options : BuilderBuildOptions)
    (stages : BuildStages) : RepoM Unit :=
  if project.hasSources && !options.skipFetchSource then given stages.fetchSources else pure ()

/-- The runtime, if the project has one. -/
def pullProjectRuntime (project : BuilderProject) (onlyLocal : Bool) :
    RepoM (Option Dependency) :=
  match project.runtime with
  | some text => some <$> pullRuntime text onlyLocal
  | none => pure none

/-- "Run Container Stage". -/
def runContainerStage (project : BuilderProject) (stages : BuildStages) (base : Dependency)
    (runtime : Option Dependency) : RepoM Reference := do
  given stages.writeEntry
  let ref ← demand fun s => currentReference s.outside project
  given (stages.runContainer base.dir (runtime.map Dependency.dir))
  return ref

/-- The entries of everything but a runtime, and the check of the command
    after them. -/
def generateEntries (project : BuilderProject) (stages : BuildStages) : RepoM Unit :=
  if project.kind = "runtime" then pure ()
  else do
    given stages.generateEntries
    given (if project.command.getD [] = [] then
      .error "command field is required, please specify!" else .ok ())

/-- The stages of `build` before the layers are touched. -/
def runStages (project : BuilderProject) (options : BuilderBuildOptions) (stages : BuildStages) :
    RepoM (Option Output) := do
  let arch ← demand fun s => s.outside.cpuArch
  fetchSourceStage project options stages
  let base ← pullBase project.base options.skipPullDepend
  let runtime ← pullProjectRuntime project options.skipPullDepend
  if options.skipRunContainer then return none
  let ref ← runContainerStage project stages base runtime
  if options.skipCommitOutput then return none
  given (stages.installFiles (projectModules project options))
  generateEntries project stages
  return some ⟨ref, packageInfo project stages arch ref base runtime⟩

/-- The loop over `existsModules`; a module that stays is only logged. -/
def removeModules (ref : Reference) (modules : List String) : RepoM Unit :=
  modules.forM fun module => tryCatch (remove ref module none) fun _ => pure ()

/-- The output of a module. -/
def moduleOutput (info : PackageInfoV2) (module : String) : LayerDir :=
  ⟨"linglong/output/" ++ module, true, .ok { info with packageInfoV2Module := module }⟩

/-- One round of the loop over the modules, after the modules `done`. -/
def commitModule (stages : BuildStages) (info : PackageInfoV2) (done : List String)
    (module : String) : RepoM Unit := do
  given (stages.writeInfo done.length)
  given (if module ∈ done then .error "copy linglong.yaml to output failed: File exists"
    else stages.copyYaml done.length)
  importLayerDir (moduleOutput info module) [] none (stages.checksum done.length)

/-- The loop over the modules. -/
def commitModules (stages : BuildStages) (info : PackageInfoV2) :
    List String → List String → RepoM Unit
  | _, [] => pure ()
  | done, module :: rest => do
      commitModule stages info done module
      commitModules stages info (done ++ [module]) rest

/-- The end of the commit stage: the old layers go, the new ones come. -/
def commitOutput (stages : BuildStages) (output : Output) (modules : List String) :
    RepoM Unit := do
  let s ← get
  removeModules output.ref (s.getModuleList output.ref)
  commitModules stages output.info [] modules
  mergeModules

/-- `Builder::build`. -/
def build (project : BuilderProject) (options : BuilderBuildOptions) (stages : BuildStages) :
    RepoM Unit := do
  match ← runStages project options stages with
  | none => return ()
  | some output => commitOutput stages output (moduleNames project options)

/-! ## Section 5: What a build leaves alone -/

instance : Std.Refl Grown := ⟨Grown.refl⟩

instance : IsTrans Repo Grown := ⟨fun _ _ _ => Grown.trans⟩

theorem within_demand {R : Repo → Repo → Prop} [Std.Refl R] {α : Type}
    (answer : Repo → Except String α) : Within R (demand answer) := by
  intro s
  unfold after demand
  cases answer s <;> exact refl_of R s

theorem grown_mergeModules : Within Grown mergeModules := by
  intro s
  have hframe := mergeFrame_mergeModules s
  exact .of_eq hframe.outside hframe.layers hframe.layerDirs

theorem grown_clearDependency (fuzzyRef : FuzzyReference) (onlyLocal : Bool) :
    Within Grown (clearDependency fuzzyRef onlyLocal) := by
  intro s
  cases onlyLocal with
  | true => exact within_demand (fun s => s.clearReferenceLocal fuzzyRef) s
  | false =>
    have hlist : Grown s s.listRemote.1 := by
      unfold listRemote
      split
      · exact .refl s
      · exact .of_eq rfl rfl rfl
    refine hlist.trans ?_
    exact within_demand (fun _ => remoteReference fuzzyRef "binary" s.listRemote.2.2) _

theorem after_pullLayer (ref : Reference) (module : String) (s : Repo) :
    after (pullLayer ref module) s = (s.pull ref module).1 := by
  unfold after pullLayer
  by_cases hfailed : ((PackageTask.createTemporaryTask "temporary").run
      (s.pull ref module).2).state = .failed
  · simp only [if_pos hfailed]
  · simp only [if_neg hfailed]

theorem grown_pullDependency (fuzzyRef : FuzzyReference) (module : String) (onlyLocal : Bool) :
    Within Grown (pullDependency fuzzyRef module onlyLocal) := by
  refine within_bind (grown_clearDependency _ _) fun ref => within_ite (fun _ => within_pure _)
    fun _ => within_bind within_get fun s => ?_
  split
  · exact within_pure _
  · refine within_bind (fun s => ?_) fun _ => within_pure _
    rw [after_pullLayer]
    exact grown_pull s ref module

theorem grown_pullModules (text : String) (onlyLocal : Bool) :
    Within Grown (pullModules text onlyLocal) :=
  within_bind (within_demand _) fun _ => within_bind (grown_pullDependency _ _ _) fun _ =>
    within_bind (grown_pullDependency _ _ _) fun _ => within_bind grown_mergeModules fun _ =>
    within_pure _

theorem grown_pullBase (text : String) (onlyLocal : Bool) :
    Within Grown (pullBase text onlyLocal) :=
  within_bind (grown_pullModules _ _) fun _ => within_bind (within_demand _) fun _ =>
    within_pure _

theorem grown_pullRuntime (text : String) (onlyLocal : Bool) :
    Within Grown (pullRuntime text onlyLocal) :=
  within_bind (grown_pullModules _ _) fun _ => within_bind (within_demand _) fun _ =>
    within_pure _

theorem grown_fetchSourceStage (project : BuilderProject) (options : BuilderBuildOptions)
    (stages : BuildStages) : Within Grown (fetchSourceStage project options stages) :=
  within_ite (fun _ => within_demand _) fun _ => within_pure _

theorem grown_pullProjectRuntime (project : BuilderProject) (onlyLocal : Bool) :
    Within Grown (pullProjectRuntime project onlyLocal) := by
  unfold pullProjectRuntime
  cases project.runtime with
  | none => exact within_pure _
  | some text => exact within_bind (grown_pullRuntime _ _) fun _ => within_pure _

theorem grown_runContainerStage (project : BuilderProject) (stages : BuildStages)
    (base : Dependency) (runtime : Option Dependency) :
    Within Grown (runContainerStage project stages base runtime) :=
  within_bind (within_demand _) fun _ => within_bind (within_demand _) fun _ =>
    within_bind (within_demand _) fun _ => within_pure _

theorem grown_generateEntries (project : BuilderProject) (stages : BuildStages) :
    Within Grown (generateEntries project stages) :=
  within_ite (fun _ => within_pure _) fun _ => within_bind (within_demand _) fun _ =>
    within_demand _

/-- The stages before the commit only add layers. -/
theorem grown_runStages (project : BuilderProject) (options : BuilderBuildOptions)
    (stages : BuildStages) : Within Grown (runStages project options stages) := by
  refine within_bind (within_demand _) fun arch => ?_
  refine within_bind (grown_fetchSourceStage _ _ _) fun _ => ?_
  refine within_bind (grown_pullBase _ _) fun base => ?_
  refine within_bind (grown_pullProjectRuntime _ _) fun runtime => ?_
  refine within_ite (fun _ => within_pure _) fun _ => ?_
  refine within_bind (grown_runContainerStage _ _ _ _) fun ref => ?_
  refine within_ite (fun _ => within_pure _) fun _ => within_bind (within_demand _) fun _ => ?_
  exact within_bind (grown_generateEntries _ _) fun _ => within_pure _

/-- What it takes to get to the commit. -/
structure Produces (project : BuilderProject) (options : BuilderBuildOptions)
    (stages : BuildStages) : Prop where
  skipRunContainer : options.skipRunContainer = false
  writeEntry : stages.writeEntry = .ok ()
  runContainer : ∃ base runtime, stages.runContainer base runtime = .ok ()
  skipCommitOutput : options.skipCommitOutput = false
  installFiles : stages.installFiles (projectModules project options) = .ok ()
  entries : project.kind ≠ "runtime" →
    stages.generateEntries = .ok () ∧ project.command.getD [] ≠ []

theorem given_ok {α : Type} {result : Except String α} {s s' : Repo} {a : α}
    (h : given result s = .ok a s') : result = .ok a ∧ s' = s :=
  demand_ok h

theorem runContainerStage_ok {project : BuilderProject} {stages : BuildStages} {base : Dependency}
    {runtime : Option Dependency} {s s' : Repo} {ref : Reference}
    (h : runContainerStage project stages base runtime s = .ok ref s') :
    stages.writeEntry = .ok () ∧ currentReference s.outside project = .ok ref ∧
      stages.runContainer base.dir (runtime.map Dependency.dir) = .ok () ∧ s' = s := by
  obtain ⟨_, s₁, hentry, h₁⟩ := bind_ok_iff.1 h
  obtain ⟨_, s₂, href, h₂⟩ := bind_ok_iff.1 h₁
  obtain ⟨_, s₃, hrun, h₃⟩ := bind_ok_iff.1 h₂
  cases h₃
  obtain ⟨hentry', rfl⟩ := given_ok hentry
  obtain ⟨href', rfl⟩ := demand_ok href
  obtain ⟨hrun', rfl⟩ := given_ok hrun
  exact ⟨hentry', href', hrun', rfl⟩

theorem generateEntries_ok {project : BuilderProject} {stages : BuildStages} {s s' : Repo}
    (h : generateEntries project stages s = .ok () s') (hkind : project.kind ≠ "runtime") :
    stages.generateEntries = .ok () ∧ project.command.getD [] ≠ [] := by
  unfold generateEntries at h
  rw [if_neg hkind] at h
  obtain ⟨_, s₁, hentries, h₁⟩ := bind_ok_iff.1 h
  obtain ⟨hcommand, -⟩ := given_ok h₁
  refine ⟨(given_ok hentries).1, fun hempty => ?_⟩
  rw [if_pos hempty] at hcommand
  cases hcommand

/-- What is known once there is an output. -/
theorem runStages_ok {project : BuilderProject} {options : BuilderBuildOptions}
    {stages : BuildStages} {output : Output} {s s' : Repo}
    (h : runStages project options stages s = .ok (some output) s') :
    Produces project options stages ∧
      currentReference s.outside project = .ok output.ref ∧
      ∃ arch base runtime, s.outside.cpuArch = .ok arch ∧
        output.info = packageInfo project stages arch output.ref base runtime := by
  obtain ⟨arch, s₁, harch, h₁⟩ := bind_ok_iff.1 h
  obtain ⟨_, s₂, hfetch, h₂⟩ := bind_ok_iff.1 h₁
  obtain ⟨base, s₃, hbase, h₃⟩ := bind_ok_iff.1 h₂
  obtain ⟨runtime, s₄, hruntime, h₄⟩ := bind_ok_iff.1 h₃
  have hfirst : Grown s s₂ := by
    rw [← (demand_ok harch).2]
    exact (grown_fetchSourceStage _ _ _).of_ok hfetch
  have hgrown : Grown s s₄ := (hfirst.trans ((grown_pullBase _ _).of_ok hbase)).trans
    ((grown_pullProjectRuntime _ _).of_ok hruntime)
  cases hskip : options.skipRunContainer with
  | true =>
    rw [if_pos hskip] at h₄
    cases h₄
  | false =>
    rw [if_neg (by simp [hskip])] at h₄
    obtain ⟨ref, s₅, hcontainer, h₅⟩ := bind_ok_iff.1 h₄
    obtain ⟨hentry, href, hrun, -⟩ := runContainerStage_ok hcontainer
    cases hskip' : options.skipCommitOutput with
    | true =>
      rw [if_pos hskip'] at h₅
      cases h₅
    | false =>
      rw [if_neg (by simp [hskip'])] at h₅
      obtain ⟨_, s₆, hfiles, h₆⟩ := bind_ok_iff.1 h₅
      obtain ⟨_, s₇, hentries, h₇⟩ := bind_ok_iff.1 h₆
      cases h₇
      rw [hgrown.outside] at href
      exact ⟨⟨hskip, hentry, ⟨_, _, hrun⟩, hskip', (given_ok hfiles).1,
        generateEntries_ok hentries⟩, href, arch, base, runtime, (demand_ok harch).1, rfl⟩

/-! ### Imports -/

/-- A step that may add the layer of a directory that was not there. -/
structure Adds (item : RepositoryCacheLayersItem) (s s' : Repo) : Prop where
  outside : s'.outside = s.outside
  layers : s'.layers = s.layers ∨
    s'.layers = s.layers ++ [item] ∧ s.layerDirs.lookup item.commit = none
  dirs : ∀ name, (s.layerDirs.lookup name).isSome = true →
    s'.layerDirs.lookup name = s.layerDirs.lookup name

theorem Adds.of_eq {item : RepositoryCacheLayersItem} {s s' : Repo}
    (houtside : s'.outside = s.outside) (hlayers : s'.layers = s.layers)
    (hdirs : s'.layerDirs = s.layerDirs) : Adds item s s' where
  outside := houtside
  layers := .inl hlayers
  dirs := fun name _ => by rw [hdirs]

theorem Adds.grown {item : RepositoryCacheLayersItem} {s s' : Repo} (h : Adds item s s') :
    Grown s s' where
  outside := h.outside
  dirs := h.dirs
  layers := by
    rcases h.layers with hlayers | ⟨hlayers, hfresh⟩
    · exact ⟨[], by simp [hlayers], by simp⟩
    · exact ⟨[item], hlayers, by simpa using hfresh⟩

theorem adds_addCheckedOut (item : RepositoryCacheLayersItem) :
    Within (Adds item) (addCheckedOut item) := by
  intro s
  rcases ensureEmptyLayerDir_cases item.commit s with ⟨e, hrun⟩ | hfresh
  · rw [addCheckedOut, after_of_error (bind_of_error hrun)]
    exact .of_eq rfl rfl rfl
  -- the directory that is made is the only one that changes
  have hdirs : ∀ {s' : Repo}, OnlyDir item.commit s s' → ∀ name,
      (s.layerDirs.lookup name).isSome = true →
        s'.layerDirs.lookup name = s.layerDirs.lookup name := by
    intro s' honly name hname
    refine honly.dirs name fun heq => ?_
    rw [heq, hfresh] at hname
    cases hname
  have honly : ∀ {s' : Repo}, OnlyDir item.commit s s' → Adds item s s' := fun h =>
    ⟨h.outside, .inl h.layers, hdirs h⟩
  cases hempty : ensureEmptyLayerDir item.commit s with
  | error e s₁ =>
    rw [addCheckedOut, after_of_error (bind_of_error hempty)]
    exact honly (onlyDir_ensureEmptyLayerDir.of_error hempty)
  | ok _ s₁ =>
    have hfirst := onlyDir_ensureEmptyLayerDir.of_ok hempty
    rw [addCheckedOut, after_bind_of_ok hempty]
    cases hcheckout : checkoutLayer item s₁ with
    | error e s₂ =>
      rw [handleRepositoryUpdate, after_of_error (bind_of_error hcheckout)]
      exact honly (hfirst.trans (onlyDir_checkoutLayer.of_error hcheckout))
    | ok _ s₂ =>
      have hboth := hfirst.trans (onlyDir_checkoutLayer.of_ok hcheckout)
      rw [handleRepositoryUpdate, after_bind_of_ok hcheckout]
      rcases addLayerItem_cases item s₂ with ⟨e, hadd⟩ | ⟨-, faults, json, hadd⟩
      · rw [after_of_error hadd]
        exact honly hboth
      · rw [hadd]
        have hkept := hdirs hboth
        refine ⟨hboth.outside, .inr ⟨?_, hfresh⟩, hkept⟩
        show s₂.layers ++ [item] = s.layers ++ [item]
        rw [hboth.layers]

theorem commitDirToRepo_of_ok {dirs : List String} {s s₁ : Repo} (refspec : OstreeRef)
    (commit : String) (h : writeCommit dirs s = .ok () s₁) :
    commitDirToRepo dirs refspec commit s = .ok () (s₁.setRef ⟨"local", refspec⟩ commit) :=
  bind_of_ok h

theorem commitDirToRepo_of_error {dirs : List String} {s s₁ : Repo} {e : String}
    (refspec : OstreeRef) (commit : String) (h : writeCommit dirs s = .error e s₁) :
    commitDirToRepo dirs refspec commit s = .error e s₁ :=
  bind_of_error h

/-- An import adds the layer that `info.json` describes, or none. -/
theorem adds_importLayerDir {dir : LayerDir} {info : PackageInfoV2} (hinfo : dir.info = .ok info)
    (overlays : List String) (subRef : Option String) (commit : String) :
    Within (Adds (localItem commit info)) (importLayerDir dir overlays subRef commit) := by
  intro s
  cases htarget : s.importTarget dir subRef with
  | error e =>
    rw [importLayerDir, after_of_error (bind_of_error (demand_of_error htarget))]
    exact .of_eq rfl rfl rfl
  | ok target =>
    obtain ⟨info', reference⟩ := target
    obtain rfl : info' = info := by
      have hsame := (importTarget_ok htarget).1
      rw [hinfo] at hsame
      cases hsame
      rfl
    rw [importLayerDir, after_bind_of_ok (demand_of_ok htarget)]
    simp only
    cases hwrite : writeCommit (dir.path :: overlays) s with
    | error e s₁ =>
      have hcommit := fun refspec => commitDirToRepo_of_error refspec commit hwrite
      obtain ⟨faults, rfl, -⟩ := (popsOnly_writeCommit _).of_error hwrite
      rw [after_of_error (bind_of_error (hcommit _))]
      exact .of_eq rfl rfl rfl
    | ok _ s₁ =>
      have hcommit := fun refspec => commitDirToRepo_of_ok refspec commit hwrite
      obtain ⟨faults, rfl, -⟩ := (popsOnly_writeCommit _).of_ok hwrite
      rw [after_bind_of_ok (hcommit _)]
      obtain ⟨houtside, hlayers, hdirs⟩ := adds_addCheckedOut (localItem commit info') _
      exact ⟨houtside, hlayers, hdirs⟩

/-! ### The commit stage -/

/-- The layers of one reference may go and come. -/
structure Rebuilt (ref : Reference) (s s' : Repo) : Prop where
  others : ∀ item ∈ s.layers, item.isLayerOf ref = false → item ∈ s'.layers
  dirs : ∀ name, (s.layerDirs.lookup name).isSome = true →
    (∀ l ∈ s.layers, l.isLayerOf ref = true → l.commit ≠ name) →
    s'.layerDirs.lookup name = s.layerDirs.lookup name
  own : ∀ l ∈ s'.layers, l.isLayerOf ref = true →
    (∃ l₀ ∈ s.layers, l₀.isLayerOf ref = true ∧ l₀.commit = l.commit) ∨
      s.layerDirs.lookup l.commit = none

section Rebuilt

variable {ref : Reference}

theorem rebuilt_of_grown {s s' : Repo} (h : Grown s s') : Rebuilt ref s s' := by
  obtain ⟨new, hlayers, hnew⟩ := h.layers
  refine ⟨fun item hitem _ => ?_, fun name hname _ => h.dirs name hname, fun l hl hlayer => ?_⟩
  · rw [hlayers]
    exact List.mem_append_left _ hitem
  · rw [hlayers] at hl
    rcases List.mem_append.1 hl with hl | hl
    · exact .inl ⟨l, hl, hlayer, rfl⟩
    · exact .inr (hnew l hl)

theorem Rebuilt.refl (s : Repo) : Rebuilt ref s s := rebuilt_of_grown (.refl s)

theorem Rebuilt.trans {s₁ s₂ s₃ : Repo} (h : Rebuilt ref s₁ s₂) (h' : Rebuilt ref s₂ s₃) :
    Rebuilt ref s₁ s₃ := by
  refine ⟨fun item hitem hother => h'.others item (h.others item hitem hother) hother, ?_, ?_⟩
  · intro name hname hother
    have hfirst := h.dirs name hname hother
    have hname' : (s₂.layerDirs.lookup name).isSome = true := by rw [hfirst, hname]
    refine (h'.dirs name hname' ?_).trans hfirst
    -- a layer that came has another directory
    rintro l hl hlayer rfl
    rcases h.own l hl hlayer with ⟨l₀, hl₀, hlayer₀, hcommit⟩ | hnone
    · exact hother l₀ hl₀ hlayer₀ hcommit
    · rw [hnone] at hname
      cases hname
  · intro l hl hlayer
    rcases h'.own l hl hlayer with ⟨l₁, hl₁, hlayer₁, hcommit⟩ | hnone
    · rw [← hcommit]
      exact h.own l₁ hl₁ hlayer₁
    · by_contra hnot
      obtain ⟨hnew, hsome⟩ := not_or.1 hnot
      have hname : (s₁.layerDirs.lookup l.commit).isSome = true :=
        Option.isSome_iff_ne_none.2 hsome
      have hother : ∀ l₀ ∈ s₁.layers, l₀.isLayerOf ref = true → l₀.commit ≠ l.commit :=
        fun l₀ hl₀ hlayer₀ hcommit => hnew ⟨l₀, hl₀, hlayer₀, hcommit⟩
      rw [← h.dirs l.commit hname hother, hnone] at hname
      cases hname

instance : Std.Refl (Rebuilt ref) := ⟨Rebuilt.refl⟩

instance : IsTrans Repo (Rebuilt ref) := ⟨fun _ _ _ => Rebuilt.trans⟩

theorem rebuilt_remove (module : String) : Within (Rebuilt ref) (remove ref module none) := by
  intro s
  rcases remove_cases ref module none s with ⟨e, faults, -, hrun, -⟩ |
    ⟨layer, faults, json, dirs, -, hitem, hrun, hdirs, -⟩
  · rw [after_of_error hrun]
    exact rebuilt_of_grown (.of_eq rfl rfl rfl)
  obtain ⟨hlayer, hown⟩ := mem_layersOf.1 (getLayerItem_mem hitem).1
  rw [hrun]
  refine ⟨fun item hmem hother => ?_, fun name _ hother => ?_, fun l hl hl' => ?_⟩
  · -- what matches the layer belongs to the reference as well
    refine (List.mem_eraseP_of_neg fun hmatch => ?_).2 hmem
    rw [isLayerOf_of_matchesItem hmatch, hown] at hother
    cases hother
  · show dirs.lookup name = s.layerDirs.lookup name
    rcases hdirs with rfl | rfl
    · rfl
    · exact lookup_filter_ne (hother layer hlayer hown).symm s.layerDirs
  · exact .inl ⟨l, List.mem_of_mem_eraseP hl, hl', rfl⟩

theorem rebuilt_removeModules (modules : List String) :
    Within (Rebuilt ref) (removeModules ref modules) :=
  within_forM fun module _ => within_tryCatch (rebuilt_remove module) fun _ => within_pure _

theorem grown_commitModules (stages : BuildStages) (info : PackageInfoV2) (modules : List String) :
    ∀ done, Within Grown (commitModules stages info done modules) := by
  induction modules with
  | nil => exact fun _ => within_pure _
  | cons module rest ih =>
    intro done
    refine within_bind (within_bind (within_demand _) fun _ => within_bind (within_demand _)
      fun _ => fun s => ?_) fun _ => ih _
    exact (adds_importLayerDir rfl _ _ _ s).grown

theorem rebuilt_commitOutput (stages : BuildStages) (output : Output) (modules : List String) :
    Within (Rebuilt output.ref) (commitOutput stages output modules) := by
  refine within_bind within_get fun s => within_bind (rebuilt_removeModules _) fun _ => ?_
  refine within_bind (fun s => ?_) fun _ => fun s => ?_
  · exact rebuilt_of_grown (grown_commitModules stages output.info modules [] s)
  · exact rebuilt_of_grown (grown_mergeModules s)

end Rebuilt

/-- **Main result.** Let no two layers have one commit. A layer that is
    there with its directory stays there with it, unless it belongs to the
    package that is built and the stages before the commit have given an
    output: none of them failed, and the container and the commit were not
    skipped. -/
theorem build_keeps (project : BuilderProject) (options : BuilderBuildOptions)
    (stages : BuildStages) {s : Repo}
    (hcommits : (s.layers.map RepositoryCacheLayersItem.commit).Nodup)
    {item : RepositoryCacheLayersItem} (hitem : item ∈ s.layers)
    (hdir : (s.layerDirs.lookup item.commit).isSome = true) :
    (item ∈ (after (build project options stages) s).layers ∧
      (after (build project options stages) s).layerDirs.lookup item.commit =
        s.layerDirs.lookup item.commit) ∨
    ∃ output s₁, runStages project options stages s = .ok (some output) s₁ ∧
      currentReference s.outside project = .ok output.ref ∧ item.isLayerOf output.ref = true := by
  have hstages := grown_runStages project options stages s
  have hgrown : ∀ s', Grown s s' →
      item ∈ s'.layers ∧ s'.layerDirs.lookup item.commit = s.layerDirs.lookup item.commit := by
    intro s' h
    obtain ⟨new, hlayers, -⟩ := h.layers
    rw [hlayers]
    exact ⟨List.mem_append_left _ hitem, h.dirs _ hdir⟩
  unfold build
  cases hrun : runStages project options stages s with
  | error e s₁ =>
    left
    rw [after_of_error hrun] at hstages
    rw [after_of_error (bind_of_error hrun)]
    exact hgrown s₁ hstages
  | ok found s₁ =>
    rw [after_of_ok hrun] at hstages
    rw [after_bind_of_ok hrun]
    cases found with
    | none => exact .inl (hgrown s₁ hstages)
    | some output =>
      obtain ⟨-, href, -⟩ := runStages_ok hrun
      cases hown : item.isLayerOf output.ref with
      | true => exact .inr ⟨output, s₁, rfl, href, hown⟩
      | false =>
        left
        have hcommit := rebuilt_commitOutput stages output (moduleNames project options) s₁
        have hall := (rebuilt_of_grown hstages).trans hcommit
        refine ⟨hall.others item hitem hown, hall.dirs _ hdir fun l hl hlayer heq => ?_⟩
        rw [List.inj_on_of_nodup_map hcommits hl hitem heq, hown] at hlayer
        cases hlayer

/-- A layer of a package that the builder has in its repository. -/
def localLayer (commit id module : String) : RepositoryCacheLayersItem :=
  localItem commit { PackageInfoV2.onMain id "1.0.0.0" module with base := "" }

/-- A base, and the package of an earlier build. -/
def demoRepo : Repo :=
  ofLayers (.ofCommits []) [localLayer "b1" "org.base" "binary",
    localLayer "b2" "org.base" "develop", localLayer "o1" "org.demo" "binary",
    localLayer "o2" "org.demo" "develop"] [] []

/-- An app that lists the given modules. -/
def demoProject (modules : List String) : BuilderProject where
  id := "org.demo"
  version := "1.0.0.0"
  kind := "app"
  architecture := none
  base := "org.base/1.0.0"
  runtime := none
  command := some ["demo"]
  modules := some (modules.map fun name => ⟨[], name⟩)
  hasSources := false

/-- Stages that all work, but for the container perhaps. -/
def demoStages (container : Except String Unit) : BuildStages where
  fetchSources := .ok ()
  writeEntry := .ok ()
  runContainer := fun _ _ => container
  installFiles := fun _ => .ok ()
  generateEntries := .ok ()
  writeInfo := fun _ => .ok ()
  copyYaml := fun _ => .ok ()
  checksum := fun n => "n" ++ String.ofList (List.replicate n 'n')
  strayTweak := false

/-- "Only use local files." -/
def offline : BuilderBuildOptions := { skipFetchSource := true, skipPullDepend := true }

theorem build_keeps_brokenBuild :
    let s' := after (build (demoProject []) offline (demoStages (.error "exit 2"))) demoRepo
    localLayer "o1" "org.demo" "binary" ∈ s'.layers ∧
      s'.layerDirs.lookup "o1" = some (some "o1") := by
  have hitem : localLayer "o1" "org.demo" "binary" ∈ demoRepo.layers := by decide
  rcases build_keeps (demoProject []) offline (demoStages (.error "exit 2")) (by decide) hitem
    (by decide) with h | ⟨_, _, hrun, -, -⟩
  · exact h
  · obtain ⟨_, _, hcontainer⟩ := (runStages_ok hrun).1.runContainer
    cases hcontainer

end Linglong.Builder
