import Linglong.Builder.Build
import Linglong.PackageManager.UninstallModules
import Linglong.Repo.Atomicity

/-! # What a Build Commits

    The commit stage of `Builder::build` removes the layers of the package
    and imports one layer for each module. A removal that fails is only
    logged, an import that fails ends the build. So what is left is a part
    of the old layers, followed by the first of the new ones.

    `importLayerDir` refuses a module that is there under its name or, for
    `binary` and `runtime`, under the other one. It is the only check of the
    names of the modules, and it comes when the old layers are gone.

    1. Removing the old layers (`view_removeModules`).
    2. Adding the new ones (`commitModules_layers`).
    3. What a build leaves (`build_view`).
    4. Names of modules (`nodup_of_commitModules`).
    5. Without faults (`build_returns_iff`).
-/

namespace Linglong.Builder

open Framework RepositoryCacheLayersItem Repo

/-! ## Section 1: Removing the old layers -/

/-- The modules of the list for which `remove` ends in an error. -/
def failedRemovals (ref : Reference) : List String → Repo → List String
  | [], _ => []
  | module :: rest, s =>
      let failed := failedRemovals ref rest (after (remove ref module none) s)
      if returns (remove ref module none) s then failed else module :: failed

/-- The layers of the reference can all be removed. -/
structure Own (ref : Reference) (s : Repo) : Prop where
  unique : UniqueModules (s.view ref)
  refs : ∀ l ∈ s.view ref, (s.resolveRefspec (ostreeRefSpecFromLayerItem l)).isSome = true
  setRef : s.NoFaults .setRef

section RemoveModules

variable {ref : Reference}

/-- A round of the loop goes on in any case. -/
theorem removeModules_cons (module : String) (rest : List String) (s : Repo) :
    removeModules ref (module :: rest) s =
      removeModules ref rest (after (remove ref module none) s) := by
  refine bind_of_ok (a := ()) ?_
  show (tryCatch (remove ref module none) fun _ => pure () : RepoM Unit) s = _
  rw [tryCatch_run, after]
  cases remove ref module none s <;> rfl

theorem removeModules_run (modules : List String) (s : Repo) :
    removeModules ref modules s = .ok () (after (removeModules ref modules) s) := by
  induction modules generalizing s with
  | nil => rfl
  | cons module rest ih =>
    unfold after
    rw [removeModules_cons]
    exact ih _

/-- Some layers of the reference may go, all others stay. -/
structure Drops (ref : Reference) (s s' : Repo) : Prop where
  outside : s'.outside = s.outside
  view : (s'.view ref).Sublist (s.view ref)
  others : s'.layersOfOthers ref = s.layersOfOthers ref

theorem drops_remove (module : String) (s : Repo) :
    Drops ref s (after (remove ref module none) s) := by
  rcases remove_cases ref module none s with ⟨e, faults, -, hrun, -⟩ |
    ⟨layer, faults, json, dirs, -, hitem, hrun, -, -⟩
  · rw [after_of_error hrun]
    exact ⟨rfl, List.Sublist.refl _, rfl⟩
  · rw [hrun]
    exact ⟨rfl, List.eraseP_sublist.filter _,
      others_eraseP_matches (mem_layersOf.1 (getLayerItem_mem hitem).1).2 s.layers⟩

theorem drops_refl (s : Repo) : Drops ref s s := ⟨rfl, List.Sublist.refl _, rfl⟩

instance : Std.Refl (Drops ref) := ⟨drops_refl⟩

instance : IsTrans Repo (Drops ref) where
  trans := fun _ _ _ h h' =>
    ⟨h'.outside.trans h.outside, h'.view.trans h.view, h'.others.trans h.others⟩

theorem drops_removeModules (modules : List String) :
    Within (Drops ref) (removeModules ref modules) :=
  within_forM fun module _ => within_tryCatch (drops_remove module) fun _ => within_pure _

theorem after_removeModules_cons (module : String) (rest : List String) (s : Repo) :
    after (removeModules ref (module :: rest)) s =
      after (removeModules ref rest) (after (remove ref module none) s) := by
  rw [after, removeModules_cons]
  rfl

/-- How many layers of the reference have the module, under either name. -/
def moduleCount (ref : Reference) (name : String) (s : Repo) : Nat :=
  (s.view ref).countP fun l => l.moduleName == name

/-- **Step**: a removal that works takes a layer of its module. -/
theorem moduleCount_remove {module : String} {s s' : Repo}
    (h : remove ref module none s = .ok () s') (name : String) :
    moduleCount ref name s =
      moduleCount ref name s' + (if normModule module == name then 1 else 0) := by
  obtain ⟨b, hperm, hlayer, hmodule⟩ := perm_of_remove h
  have hview : (s.view ref).Perm (b :: s'.view ref) := by
    have hfilter := hperm.symm.filter (isLayerOf ref)
    rwa [List.filter_cons_of_pos hlayer] at hfilter
  rw [moduleCount, hview.countP_eq, List.countP_cons, hmodule]
  rfl

/-- **Run**: of each module as many layers go as removals of it work. -/
theorem moduleCount_removeModules (modules : List String) (name : String) : ∀ s : Repo,
    moduleCount ref name (after (removeModules ref modules) s) +
        modules.countP (fun module => normModule module == name) ≤
      moduleCount ref name s +
        (failedRemovals ref modules s).countP fun module => normModule module == name := by
  induction modules with
  | nil => exact fun _ => le_rfl
  | cons module rest ih =>
    intro s
    have hrest := ih (after (remove ref module none) s)
    rw [after_removeModules_cons, failedRemovals, List.countP_cons]
    cases hrun : remove ref module none s with
    | ok u s₁ =>
      have hstep := moduleCount_remove hrun name
      have hreturns : returns (remove ref module none) s = true := by rw [returns, hrun]
      rw [if_pos hreturns]
      rw [after_of_ok hrun] at hrest ⊢
      omega
    | error e s₁ =>
      -- a removal that fails may have taken the layer all the same
      have hless : moduleCount ref name (after (remove ref module none) s) ≤
          moduleCount ref name s := (drops_remove module s).view.countP_le
      have hfails : ¬ returns (remove ref module none) s = true := by simp [returns, hrun]
      rw [if_neg hfails, List.countP_cons]
      omega

/-- Of each module no more layers are left than removals of it fail. -/
theorem moduleCount_le_failedRemovals (s : Repo) (name : String) :
    moduleCount ref name (after (removeModules ref (s.getModuleList ref)) s) ≤
      (failedRemovals ref (s.getModuleList ref) s).countP
        fun module => normModule module == name := by
  have hrun := @moduleCount_removeModules ref (s.getModuleList ref) name s
  have hall : (s.getModuleList ref).countP (fun module => normModule module == name) =
      moduleCount ref name s := by
    rw [(s.getModuleList_perm ref).countP_eq, List.countP_map]
    rfl
  omega

/-- **Step**: one module goes if it is there. -/
theorem own_remove {s : Repo} (h : Own ref s) (module : String) :
    Own ref (after (remove ref module none) s) ∧
      (after (remove ref module none) s).view ref =
        dropModule (normModule module) (s.view ref) := by
  rcases remove_cases ref module none s with ⟨e, faults, hpops, hrun, hfault⟩ |
    ⟨layer, faults, json, dirs, hpops, hitem, hrun, -, -⟩
  · rw [after_of_error hrun]
    refine ⟨⟨h.unique, h.refs, h.setRef.of_pops hpops⟩, ?_⟩
    -- a layer that is found could have been removed
    refine (dropModule_eq_self fun l hl hmodule => ?_).symm
    have hfound := getLayerItem_eq h.unique hl hmodule
    exact hfault l hfound (h.refs l hl) h.setRef
  · obtain ⟨hview, hmodule⟩ := getLayerItem_mem hitem
    have hdrop : layersOf ref (s.layers.eraseP layer.matchesItem) =
        dropModule (normModule module) (s.view ref) := by
      rw [← hmodule]
      exact layersOf_eraseP h.unique hview
    rw [hrun]
    refine ⟨⟨?_, fun l hl => ?_, h.setRef.of_pops hpops⟩, hdrop⟩
    · exact h.unique.sublist ((List.eraseP_sublist.filter _).map _)
    · replace hl : l ∈ layersOf ref (s.layers.eraseP layer.matchesItem) := hl
      rw [hdrop, dropModule, List.mem_filter, decide_eq_true_iff, ← hmodule] at hl
      have hne : ostreeRefSpecFromLayerItem l ≠ ostreeRefSpecFromLayerItem layer := by
        intro heq
        have hname : l.info.packageInfoV2Module = layer.info.packageInfoV2Module :=
          congrArg (fun spec : OstreeRefSpec => spec.ref.module) heq
        exact hl.2 (by rw [moduleName, moduleName, hname])
      show ((s.dropRef _).resolveRefspec _).isSome = true
      rw [resolveRefspec_dropRef hne]
      exact h.refs l hl.1

/-- **Run**: the modules of the list go. -/
theorem own_removeModules (modules : List String) : ∀ {s : Repo}, Own ref s →
    Own ref (after (removeModules ref modules) s) ∧
      ∀ l ∈ (after (removeModules ref modules) s).view ref,
        l ∈ s.view ref ∧ l.moduleName ∉ modules.map normModule := by
  induction modules with
  | nil => exact fun h => ⟨h, fun l hl => ⟨hl, by simp⟩⟩
  | cons module rest ih =>
    intro s h
    obtain ⟨hround, hview⟩ := own_remove h module
    obtain ⟨hown, hleft⟩ := ih hround
    rw [after_removeModules_cons]
    refine ⟨hown, fun l hl => ?_⟩
    obtain ⟨hmem, hname⟩ := hleft l hl
    rw [hview, dropModule, List.mem_filter, decide_eq_true_iff] at hmem
    refine ⟨hmem.1, ?_⟩
    rw [List.map_cons, List.mem_cons, not_or]
    exact ⟨hmem.2, hname⟩

/-- All layers of the reference go. -/
theorem view_removeModules {s : Repo} (h : Own ref s) :
    (after (removeModules ref (s.getModuleList ref)) s).view ref = [] := by
  refine List.eq_nil_iff_forall_not_mem.2 fun l hl => ?_
  obtain ⟨hview, hname⟩ := (own_removeModules (s.getModuleList ref) h).2 l hl
  refine hname (List.mem_map.2 ⟨l.info.packageInfoV2Module, ?_, rfl⟩)
  exact (s.getModuleList_perm ref).mem_iff.2 (List.mem_map.2 ⟨l, hview, rfl⟩)

end RemoveModules

/-! ## Section 2: Adding the new ones -/

/-- The layer of a module, by its place in the list. -/
def newItem (stages : BuildStages) (info : PackageInfoV2) (place : Nat) (module : String) :
    RepositoryCacheLayersItem :=
  localItem (stages.checksum place) { info with packageInfoV2Module := module }

/-- The layers of the modules, from a place on. -/
def newItems (stages : BuildStages) (info : PackageInfoV2) :
    Nat → List String → List RepositoryCacheLayersItem
  | _, [] => []
  | place, module :: rest =>
      newItem stages info place module :: newItems stages info (place + 1) rest

section CommitModules

variable {stages : BuildStages} {info : PackageInfoV2} {done : List String} {module : String}

/-- A round that returns has passed the stages and the import. -/
theorem commitModule_ok {s s' : Repo} (h : commitModule stages info done module s = .ok () s') :
    module ∉ done ∧ importLayerDir (moduleOutput info module) [] none
      (stages.checksum done.length) s = .ok () s' := by
  obtain ⟨_, s₁, hwrite, h₁⟩ := bind_ok_iff.1 h
  obtain ⟨_, s₂, hcopy, h₂⟩ := bind_ok_iff.1 h₁
  obtain ⟨-, rfl⟩ := given_ok hwrite
  obtain ⟨hcopy', rfl⟩ := given_ok hcopy
  refine ⟨fun hmem => ?_, h₂⟩
  rw [if_pos hmem] at hcopy'
  cases hcopy'

instance (item : RepositoryCacheLayersItem) : Std.Refl (Adds item) :=
  ⟨fun _ => .of_eq rfl rfl rfl⟩

theorem within_given {R : Repo → Repo → Prop} [Std.Refl R] {α β : Type} {result : Except String α}
    {f : α → RepoM β} (hf : ∀ a, Within R (f a)) : Within R (given result >>= f) := by
  intro s
  cases result with
  | error e => exact refl_of R s
  | ok a => exact hf a s

/-- **Step**: a round adds its layer or none. -/
theorem adds_commitModule (stages : BuildStages) (info : PackageInfoV2) (done : List String)
    (module : String) : Within (Adds (newItem stages info done.length module))
      (commitModule stages info done module) :=
  within_given fun _ => within_given fun _ => adds_importLayerDir rfl _ _ _

/-- A round that returns has added its layer. -/
theorem layers_of_commitModule {s s' : Repo}
    (h : commitModule stages info done module s = .ok () s') :
    s'.layers = s.layers ++ [newItem stages info done.length module] := by
  obtain ⟨info', reference, htarget, hdone⟩ := importLayerDir_ok (commitModule_ok h).2
  obtain ⟨hinfo, -⟩ := importTarget_ok htarget
  cases hinfo
  exact hdone.layers

/-- **Run**: the loop adds the layers of the first modules, and of all of
    them if it returns. -/
theorem commitModules_layers (stages : BuildStages) (info : PackageInfoV2)
    (modules : List String) : ∀ (done : List String) (s : Repo), ∃ k ≤ modules.length,
      (after (commitModules stages info done modules) s).layers =
        s.layers ++ (newItems stages info done.length modules).take k ∧
      (returns (commitModules stages info done modules) s = true → k = modules.length) := by
  induction modules with
  | nil =>
    intro done s
    exact ⟨0, by simp, (List.append_nil s.layers).symm, by simp⟩
  | cons module rest ih =>
    intro done s
    unfold commitModules
    cases hrun : commitModule stages info done module s with
    | error e s₁ =>
      have hadds := adds_commitModule stages info done module s
      rw [after_of_error hrun] at hadds
      have hreturns : returns (commitModule stages info done module >>= fun _ =>
          commitModules stages info (done ++ [module]) rest) s = false := by
        rw [returns, bind_of_error hrun]
      rw [after_of_error (bind_of_error hrun), hreturns]
      rcases hadds.layers with hlayers | ⟨hlayers, -⟩
      · exact ⟨0, by simp, by simp [hlayers], by simp⟩
      · -- the file could not be written
        exact ⟨1, by simp, by simp [hlayers, newItems], by simp⟩
    | ok _ s₁ =>
      have hlayers := layers_of_commitModule hrun
      obtain ⟨k, hk, hrest, hreturns⟩ := ih (done ++ [module]) s₁
      rw [List.length_append, List.length_singleton] at hrest
      refine ⟨k + 1, by simpa using hk, ?_, fun h => ?_⟩
      · rw [after_bind_of_ok hrun, hrest, hlayers, newItems, List.take_succ_cons,
          List.append_assoc, List.singleton_append]
      · rw [returns, bind_of_ok hrun] at h
        rw [List.length_cons, hreturns h]

end CommitModules

/-! ## Section 3: What a build leaves -/

/-- The package is the one that the reference names. -/
def Names (ref : Reference) (info : PackageInfoV2) : Prop :=
  info.id = ref.id ∧ info.channel = ref.channel ∧ info.version = ref.version.toString

section Outcome

variable {stages : BuildStages} {ref : Reference} {info : PackageInfoV2}

theorem isLayerOf_of_mem_newItems (hnames : Names ref info) {place : Nat} {modules : List String}
    {l : RepositoryCacheLayersItem} (hl : l ∈ newItems stages info place modules) :
    l.isLayerOf ref = true := by
  induction modules generalizing place with
  | nil => simp [newItems] at hl
  | cons module rest ih =>
    rcases List.mem_cons.1 hl with rfl | hl
    · exact isLayerOf_iff.2 hnames
    · exact ih hl

theorem layersOf_append_newItems (stages : BuildStages) (hnames : Names ref info)
    (layers : List RepositoryCacheLayersItem) (place k : Nat) (modules : List String) :
    layersOf ref (layers ++ (newItems stages info place modules).take k) =
        layersOf ref layers ++ (newItems stages info place modules).take k ∧
      (layers ++ (newItems stages info place modules).take k).filter (fun l => !l.isLayerOf ref) =
        layers.filter fun l => !l.isLayerOf ref := by
  have hall : ∀ l ∈ (newItems stages info place modules).take k, l.isLayerOf ref = true :=
    fun l hl => isLayerOf_of_mem_newItems hnames (List.mem_of_mem_take hl)
  have hnone : ((newItems stages info place modules).take k).filter
      (fun l => !l.isLayerOf ref) = [] :=
    List.filter_eq_nil_iff.2 fun l hl => by simp [hall l hl]
  unfold layersOf
  rw [List.filter_append, List.filter_append, List.filter_eq_self.2 hall, hnone, List.append_nil]
  exact ⟨rfl, rfl⟩

/-- What the commit stage leaves: layers of which the removal failed and
    the first of the new ones. -/
theorem commitOutput_view (stages : BuildStages) {output : Output}
    (hnames : Names output.ref output.info) (modules : List String) (s : Repo) :
    ∃ kept k, kept.Sublist (s.view output.ref) ∧ k ≤ modules.length ∧
      (after (commitOutput stages output modules) s).view output.ref =
        kept ++ (newItems stages output.info 0 modules).take k ∧
      (after (commitOutput stages output modules) s).layersOfOthers output.ref =
        s.layersOfOthers output.ref ∧
      (returns (commitOutput stages output modules) s = true → k = modules.length) ∧
      (∀ name, kept.countP (fun l => l.moduleName == name) ≤
        (failedRemovals output.ref (s.getModuleList output.ref) s).countP
          fun module => normModule module == name) ∧
      (Own output.ref s → kept = []) := by
  have hdrops : Drops output.ref s
      (after (removeModules output.ref (s.getModuleList output.ref)) s) := drops_removeModules _ s
  have hstart : commitOutput stages output modules s =
      (commitModules stages output.info [] modules >>= fun _ => mergeModules)
        (after (removeModules output.ref (s.getModuleList output.ref)) s) :=
    (bind_of_ok (get_run s)).trans (bind_of_ok (removeModules_run _ s))
  have hempty := fun h : Own output.ref s => view_removeModules h
  have hfailed := fun name => @moduleCount_le_failedRemovals output.ref s name
  generalize after (removeModules output.ref (s.getModuleList output.ref)) s = s₁ at *
  obtain ⟨k, hk, hlayers, hreturns⟩ := commitModules_layers stages output.info modules [] s₁
  obtain ⟨hown, hothers⟩ := layersOf_append_newItems stages hnames s₁.layers 0 k modules
  -- merging does not change the layers
  have hafter : (after (commitOutput stages output modules) s).layers =
      s₁.layers ++ (newItems stages output.info 0 modules).take k ∧
      (returns (commitOutput stages output modules) s = true → k = modules.length) := by
    unfold after returns at *
    rw [hstart, bind_run]
    cases hrun : commitModules stages output.info [] modules s₁ with
    | error e s₂ =>
      rw [hrun] at hlayers
      exact ⟨hlayers, by simp⟩
    | ok _ s₂ =>
      rw [hrun] at hlayers hreturns
      refine ⟨?_, fun _ => hreturns rfl⟩
      exact (mergeFrame_mergeModules s₂).layers.trans hlayers
  refine ⟨s₁.view output.ref, k, hdrops.view, hk, ?_, ?_, hafter.2, hfailed, hempty⟩
  · rw [view, hafter.1, hown]
    rfl
  · rw [layersOfOthers, hafter.1, hothers]
    exact hdrops.others

/-- A version text without a line break names the package. -/
theorem names_of_runStages {project : BuilderProject} {options : BuilderBuildOptions}
    {output : Output} {s s₁ : Repo}
    (h : runStages project options stages s = .ok (some output) s₁)
    (hline : project.version.toList.getLast? ≠ some '\n') : Names output.ref output.info := by
  obtain ⟨-, href, arch, base, runtime, -, hinfo⟩ := runStages_ok h
  unfold currentReference at href
  simp only [bind_eq_ok_iff, Reference.create_eq_ok_iff] at href
  obtain ⟨version, hversion, arch', -, -, hid, hver, -⟩ := href
  rw [hinfo]
  refine ⟨hid.symm, rfl, ?_⟩
  rw [hver]
  exact ((Version.toString_eq_iff hversion).2 hline).symm

/-- **Main result.** Let the version text have no line break at its end.
    Once the stages before the commit have worked, the layers of the package
    are old ones, of each module no more than removals of it failed, and the
    first of the new ones, all of them if the build succeeds. Other packages
    keep theirs. If no two old layers have one module, each has its ref and
    refs can be deleted, no old layer is left, however the build ends. -/
theorem build_view {project : BuilderProject} {options : BuilderBuildOptions}
    {stages : BuildStages} {output : Output} {s s₁ : Repo}
    (hrun : runStages project options stages s = .ok (some output) s₁)
    (hline : project.version.toList.getLast? ≠ some '\n') :
    ∃ kept k, kept.Sublist (s₁.view output.ref) ∧ k ≤ (moduleNames project options).length ∧
      (after (build project options stages) s).view output.ref =
        kept ++ (newItems stages output.info 0 (moduleNames project options)).take k ∧
      (after (build project options stages) s).layersOfOthers output.ref =
        s₁.layersOfOthers output.ref ∧
      (returns (build project options stages) s = true →
        k = (moduleNames project options).length) ∧
      (∀ name, kept.countP (fun l => l.moduleName == name) ≤
        (failedRemovals output.ref (s₁.getModuleList output.ref) s₁).countP
          fun module => normModule module == name) ∧
      (Own output.ref s₁ → kept = []) := by
  have hbuild : build project options stages s =
      commitOutput stages output (moduleNames project options) s₁ := bind_of_ok hrun
  have hview := commitOutput_view stages (names_of_runStages hrun hline)
    (moduleNames project options) s₁
  unfold after returns at *
  rw [hbuild]
  exact hview

end Outcome

/-! ### An example -/

def demoRef : Reference := Reference.onMain "org.demo" 0 (by decide)

/-- The build of a project up to the commit, in the repository of an
    earlier build. -/
def runDemo (modules : List String) : RepoM (Option Output) :=
  runStages (demoProject modules) offline (demoStages (.ok ()))

/-- Whether there is an output with the right reference. -/
def hasOutput (modules : List String) : Bool :=
  match runDemo modules demoRepo with
  | .ok (some output) _ => output.ref == demoRef
  | _ => false

theorem exists_output {modules : List String} (h : hasOutput modules = true) :
    ∃ output, runDemo modules demoRepo = .ok (some output) (after (runDemo modules) demoRepo) ∧
      output.ref = demoRef := by
  unfold hasOutput at h
  cases hrun : runDemo modules demoRepo with
  | error e s => simp [hrun] at h
  | ok found s =>
    rw [after_of_ok hrun]
    rw [hrun] at h
    cases found with
    | none => simp at h
    | some output => exact ⟨output, rfl, by simpa using h⟩

theorem own_runDemo : Own demoRef (after (runDemo ["doc", "runtime"]) demoRepo) where
  unique := by
    have hview : (after (runDemo ["doc", "runtime"]) demoRepo).view demoRef =
        [localLayer "o1" "org.demo" "binary", localLayer "o2" "org.demo" "develop"] := by decide
    rw [hview]
    unfold UniqueModules
    decide
  refs := by decide
  setRef := by
    unfold NoFaults
    decide

theorem build_view_runtime : ∃ info k, k ≤ 4 ∧
    (after (build (demoProject ["doc", "runtime"]) offline (demoStages (.ok ()))) demoRepo).view
      demoRef = (newItems (demoStages (.ok ())) info 0 ["binary", "doc", "runtime", "develop"]).take
        k := by
  have hout : hasOutput ["doc", "runtime"] = true := by decide
  obtain ⟨output, hrun, href⟩ := exists_output hout
  obtain ⟨kept, k, -, hk, hview, -, -, -, hown⟩ := build_view hrun (by decide)
  rw [href] at hview hown
  refine ⟨output.info, k, hk, hview.trans ?_⟩
  rw [hown own_runDemo, List.nil_append]
  rfl

/-! ## Section 4: Names of modules -/

section ModuleNames

variable {stages : BuildStages} {ref : Reference} {info : PackageInfoV2}

/-- The layers of the modules `done`, which are all that the reference has. -/
structure Building (ref : Reference) (done : List String) (s : Repo) : Prop where
  modules : (s.view ref).map moduleName = done.map normModule
  dirs : ∀ l ∈ s.view ref, (s.layerDirs.lookup l.commit).isSome = true
  distinct : (done.map normModule).Nodup

theorem Building.unique {done : List String} {s : Repo} (h : Building ref done s) :
    UniqueModules (s.view ref) := by
  rw [UniqueModules, h.modules]
  exact h.distinct

/-- A module is found exactly if it is one of those. -/
theorem Building.getLayerDir_isOk_iff {done : List String} {s : Repo} (h : Building ref done s)
    (module : String) : (∃ dir, s.getLayerDir ref module none = .ok dir) ↔
      normModule module ∈ done.map normModule := by
  constructor
  · rintro ⟨dir, hdir⟩
    obtain ⟨layer, hlayer, -⟩ := getLayerDir_ok_iff.1 hdir
    obtain ⟨hview, hmodule⟩ := getLayerItem_mem hlayer
    rw [← h.modules, ← hmodule]
    exact List.mem_map_of_mem hview
  · intro hmem
    rw [← h.modules] at hmem
    obtain ⟨l, hl, hmodule⟩ := List.mem_map.1 hmem
    obtain ⟨dir, hdir⟩ := Option.isSome_iff_exists.1 (h.dirs l hl)
    exact ⟨dir, getLayerDir_ok_iff.2 ⟨l, getLayerItem_eq h.unique hl hmodule, hdir⟩⟩

/-- The reference that an import finds in `info.json` has the layers of the
    package. -/
theorem sameLayers_of_names (hnames : Names ref info) {reference : Reference}
    (href : Reference.fromPackageInfo info = .ok reference) : SameLayers reference ref := by
  obtain ⟨hid, hchannel, hversion⟩ := hnames
  obtain ⟨hparse, -, hchannel', hid'⟩ := Reference.fromPackageInfo_ok href
  refine ⟨hid'.trans hid, hchannel'.trans hchannel, ?_⟩
  rw [← hversion]
  rw [hversion] at hparse
  rw [(Version.toString_eq_iff hparse).2 (ref.version.getLast_toString), hversion]

theorem getLayerDir_of_sameLayers {reference : Reference} (h : SameLayers reference ref) {s : Repo}
    {module : String} : (∃ dir, s.getLayerDir reference module none = .ok dir) ↔
      ∃ dir, s.getLayerDir ref module none = .ok dir := by
  have hview : s.view reference = s.view ref := by
    unfold view layersOf
    exact congrArg (fun p => s.layers.filter p) (funext fun item => h.isLayerOf item)
  simp only [getLayerDir_ok_iff]
  refine exists_congr fun dir => exists_congr fun layer => and_congr_left' ?_
  exact ⟨getLayerItem_of_view rfl hview.symm, getLayerItem_of_view rfl hview⟩

/-- **Step**: a round that returns has added a module that was not there. -/
theorem Building.commitModule {done : List String} {module : String} {s s' : Repo}
    (h : Building ref done s) (hnames : Names ref info)
    (hrun : commitModule stages info done module s = .ok () s') :
    Building ref (done ++ [module]) s' := by
  have hlayers := layers_of_commitModule hrun
  have hadds : Adds _ s s' := (adds_commitModule stages info done module).of_ok hrun
  obtain ⟨-, himport⟩ := commitModule_ok hrun
  obtain ⟨info', reference, htarget, hdone⟩ := importLayerDir_ok himport
  obtain ⟨hinfo, href, e, hdir⟩ := importTarget_ok htarget
  cases hinfo
  have hnames' : Names ref { info with packageInfoV2Module := module } := hnames
  have hnew : normModule module ∉ done.map normModule := by
    rw [← h.getLayerDir_isOk_iff, ← getLayerDir_of_sameLayers (sameLayers_of_names hnames' href)]
    rintro ⟨dir, hok⟩
    rw [hdir] at hok
    cases hok
  have hview : s'.view ref = s.view ref ++ [newItem stages info done.length module] := by
    have hitem : (newItem stages info done.length module).isLayerOf ref = true :=
      isLayerOf_iff.2 hnames
    rw [view, hlayers, layersOf, List.filter_append, List.filter_cons_of_pos hitem,
      List.filter_nil]
    rfl
  refine ⟨?_, fun l hl => ?_, ?_⟩
  · rw [hview, List.map_append, List.map_append, h.modules]
    rfl
  · rw [hview] at hl
    rcases List.mem_append.1 hl with hl | hl
    · rw [hadds.dirs _ (h.dirs l hl)]
      exact h.dirs l hl
    · obtain ⟨commit, -, hcontent⟩ := hdone.content
      rw [List.mem_singleton.1 hl]
      exact Option.isSome_iff_exists.2 ⟨_, hcontent⟩
  · rw [List.map_append, List.map_singleton, ← List.concat_eq_append]
    exact List.Nodup.concat hnew h.distinct

/-- **Run**: a loop that returns has added modules of different names. -/
theorem nodup_of_commitModules (hnames : Names ref info) (modules : List String) :
    ∀ (done : List String) (s s' : Repo), Building ref done s →
      commitModules stages info done modules s = .ok () s' →
      ((done ++ modules).map normModule).Nodup := by
  induction modules with
  | nil =>
    intro done s s' h _
    rw [List.append_nil]
    exact h.distinct
  | cons module rest ih =>
    intro done s s' h hrun
    obtain ⟨_, s₁, hround, hrest⟩ := bind_ok_iff.1 hrun
    have hall := ih (done ++ [module]) s₁ s' (h.commitModule hnames hround) hrest
    rwa [List.append_assoc] at hall

end ModuleNames

/-! ## Section 5: Without faults -/

/-- No local step fails. -/
def Faultless (s : Repo) : Prop := ∀ step, s.NoFaults step

/-- Faults are used up. -/
def FewerFaults (s s' : Repo) : Prop := s.Pops s'.faults

instance : Std.Refl FewerFaults := ⟨fun _ _ => List.suffix_refl _⟩

instance : IsTrans Repo FewerFaults := ⟨fun _ _ _ h h' => h.trans h'⟩

theorem Faultless.of_fewer {s s' : Repo} (h : Faultless s) (hfewer : FewerFaults s s') :
    Faultless s' := fun step => (h step).of_pops hfewer

section FewerFaults

theorem fewerFaults_fallible (step : Step) (message : String) :
    Within FewerFaults (fallible step message) := by
  intro s
  have hpop : FewerFaults s (s.popFault step) := s.pops_popFault step
  unfold after fallible
  cases (s.faults step).headD false <;> exact hpop

/-- A change of anything but the faults. -/
theorem fewerFaults_modify {f : Repo → Repo} (h : ∀ s, (f s).faults = s.faults) :
    Within FewerFaults (modify f : RepoM PUnit) := by
  refine within_set_of f fun s step => ?_
  rw [h]

theorem fewerFaults_writeCommit (dirs : List String) : Within FewerFaults (writeCommit dirs) :=
  within_bind (fewerFaults_fallible _ _) fun _ =>
    within_bind (within_forM fun _ _ => fewerFaults_fallible _ _) fun _ =>
    within_bind (fewerFaults_fallible _ _) fun _ =>
    within_bind (fewerFaults_fallible _ _) fun _ => fewerFaults_fallible _ _

theorem fewerFaults_checkoutLayer (item : RepositoryCacheLayersItem) :
    Within FewerFaults (checkoutLayer item) := by
  refine within_bind (fewerFaults_fallible _ _) fun _ => ?_
  refine within_bind (fewerFaults_modify fun _ => rfl) fun _ => ?_
  refine within_bind (fewerFaults_fallible _ _) fun _ => ?_
  refine within_bind (fewerFaults_modify fun _ => rfl) fun _ => ?_
  refine within_bind (within_demand _) fun _ => ?_
  refine within_bind (fewerFaults_modify fun _ => rfl) fun _ => ?_
  exact within_bind (fewerFaults_fallible _ _) fun _ => fewerFaults_modify fun _ => rfl

theorem fewerFaults_writeToDisk : Within FewerFaults writeToDisk :=
  within_bind (fewerFaults_fallible _ _) fun _ => fewerFaults_modify fun _ => rfl

theorem fewerFaults_addCheckedOut (item : RepositoryCacheLayersItem) :
    Within FewerFaults (addCheckedOut item) := by
  refine within_bind (within_bind (within_demand _) fun _ => within_bind
    (fewerFaults_fallible _ _) fun _ => fewerFaults_modify fun _ => rfl) fun _ => ?_
  refine within_bind (fewerFaults_checkoutLayer item) fun _ => within_bind (within_demand _)
    fun _ => within_bind (fewerFaults_modify fun _ => rfl) fun _ => fewerFaults_writeToDisk

theorem fewerFaults_importLayerDir (dir : LayerDir) (overlays : List String)
    (subRef : Option String) (commit : String) :
    Within FewerFaults (importLayerDir dir overlays subRef commit) :=
  within_bind (within_demand _) fun _ => within_bind
    (within_bind (fewerFaults_writeCommit _) fun _ => fewerFaults_modify fun _ => rfl) fun _ =>
    fewerFaults_addCheckedOut _

theorem fewerFaults_removeModules (ref : Reference) (modules : List String) :
    Within FewerFaults (removeModules ref modules) := by
  refine within_forM fun module _ => within_tryCatch (fun s => ?_) fun _ => within_pure _
  rcases remove_cases ref module none s with ⟨e, faults, hpops, hrun, -⟩ |
    ⟨layer, faults, json, dirs, hpops, -, hrun, -, -⟩
  · rw [after_of_error hrun]
    exact hpops
  · rw [hrun]
    exact hpops

end FewerFaults

/-- Without faults the computation returns, and there are still none. -/
def Clean {α : Type} (m : RepoM α) : Prop :=
  ∀ s, Faultless s → ∃ a s', m s = .ok a s' ∧ Faultless s'

section Clean

variable {α β : Type}

theorem clean_pure (a : α) : Clean (pure a) := fun s h => ⟨a, s, rfl, h⟩

theorem clean_get : Clean get := fun s h => ⟨s, s, rfl, h⟩

theorem clean_bind {m : RepoM α} {f : α → RepoM β} (hm : Clean m) (hf : ∀ a, Clean (f a)) :
    Clean (m >>= f) := by
  intro s h
  obtain ⟨a, s₁, hrun, h₁⟩ := hm s h
  obtain ⟨b, s₂, hrun', h₂⟩ := hf a s₁ h₁
  exact ⟨b, s₂, (bind_of_ok hrun).trans hrun', h₂⟩

theorem clean_fallible (step : Step) (message : String) : Clean (fallible step message) := by
  intro s h
  rcases fallible_cases step message s with ⟨hrun, -⟩ | ⟨-, hhead⟩
  · exact ⟨(), _, hrun, h.of_fewer (s.pops_popFault step)⟩
  · exact absurd ((h step).headD.symm.trans hhead) (by decide)

theorem clean_modify {f : Repo → Repo} (h : ∀ s, (f s).faults = s.faults) :
    Clean (modify f : RepoM PUnit) := by
  refine fun s hs => ⟨_, f s, rfl, fun step => ?_⟩
  unfold NoFaults
  rw [h]
  exact hs step

theorem clean_forM {γ : Type} {f : γ → RepoM PUnit} (l : List γ) (h : ∀ c, Clean (f c)) :
    Clean (l.forM f) := by
  induction l with
  | nil => exact clean_pure _
  | cons c l ih => exact clean_bind (h c) fun _ => ih

theorem clean_tryCatch {m : RepoM α} {f : String → RepoM α} (h : Clean m) :
    Clean (tryCatch m f) := by
  intro s hs
  obtain ⟨a, s', hrun, hs'⟩ := h s hs
  refine ⟨a, s', ?_, hs'⟩
  rw [tryCatch_run, hrun]

theorem clean_buildMergedDir (record : RepositoryCacheMergedItem) :
    Clean (buildMergedDir record) := by
  refine clean_bind (clean_fallible _ _) fun _ => clean_bind (clean_modify fun _ => rfl) fun _ => ?_
  refine clean_bind (clean_fallible _ _) fun _ => clean_bind (clean_modify fun _ => rfl) fun _ => ?_
  refine clean_bind (clean_forM _ fun commit => clean_bind (clean_fallible _ _) fun _ =>
    clean_modify fun _ => rfl) fun _ => ?_
  refine clean_bind (clean_fallible _ _) fun _ => clean_bind (clean_modify fun _ => rfl) fun _ => ?_
  exact clean_bind (clean_fallible _ _) fun _ => clean_modify fun _ => rfl

theorem clean_mergeGroup (key : String) (group : List RepositoryCacheLayersItem) :
    Clean (mergeGroup key group) := by
  refine clean_bind clean_get fun s => ?_
  split
  · exact clean_pure _
  split
  · exact clean_pure _
  split
  · split
    · exact clean_pure _
    · exact clean_bind (clean_buildMergedDir _) fun _ => clean_pure _
  · exact clean_bind (clean_buildMergedDir _) fun _ => clean_pure _

theorem clean_mergeGroups (groups : List (String × List RepositoryCacheLayersItem)) :
    Clean (mergeGroups groups) := by
  induction groups with
  | nil => exact clean_pure _
  | cons g groups ih =>
    exact clean_bind (clean_mergeGroup g.1 g.2) fun _ => clean_bind ih fun _ => clean_pure _

theorem clean_mergeModules : Clean mergeModules := by
  refine clean_bind clean_get fun s => clean_bind (clean_mergeGroups _) fun records => ?_
  refine clean_bind (clean_bind (clean_modify fun _ => rfl) fun _ => clean_bind
    (clean_fallible _ _) fun _ => clean_modify fun _ => rfl) fun _ => ?_
  refine clean_bind (clean_fallible _ _) fun _ => clean_bind clean_get fun s =>
    clean_forM _ fun dir => ?_
  split
  · exact clean_pure _
  · exact clean_tryCatch (clean_bind (clean_fallible _ _) fun _ => clean_modify fun _ => rfl)

end Clean

theorem Faultless.fails {s : Repo} (h : Faultless s) (step : Step) (n : Nat) :
    s.fails step n = false := by
  unfold Repo.fails
  rw [List.getD_eq_getElem?_getD]
  cases hget : (s.faults step)[n]? with
  | none => rfl
  | some b => exact h step b (List.mem_of_getElem? hget)

/-- The stages of the commit work, and ostree finds new checksums. -/
structure Ready (stages : BuildStages) (s : Repo) (start count : Nat) : Prop where
  writeInfo : ∀ n, start ≤ n → n < count → stages.writeInfo n = .ok ()
  copyYaml : ∀ n, start ≤ n → n < count → stages.copyYaml n = .ok ()
  fresh : ∀ n, start ≤ n → n < count → s.layerDirs.lookup (stages.checksum n) = none
  distinct : ∀ m n, start ≤ m → m < n → n < count → stages.checksum m ≠ stages.checksum n

section Returns

variable {stages : BuildStages} {ref : Reference} {info : PackageInfoV2}

theorem addCheckedOut_of_finishes {item : RepositoryCacheLayersItem} {s : Repo}
    (h : Finishes s item) : ∃ s', addCheckedOut item s = .ok () s' := by
  have houtcome := addOutcome_addCheckedOut item s
  cases hadd : addCheckedOut item s with
  | ok _ s' => exact ⟨s', rfl⟩
  | error e s' =>
    rw [hadd] at houtcome
    exact absurd h houtcome.1

/-- An import with a plain name and a new checksum works. -/
theorem importLayerDir_returns {dir : LayerDir} {commit : String} {s : Repo}
    {reference : Reference} (hclean : Faultless s)
    (htarget : s.importTarget dir none = .ok (info, reference)) (hplain : PlainName info none)
    (hfresh : s.layerDirs.lookup commit = none)
    (hnew : s.layers.any (localItem commit info).matchesItem = false) :
    ∃ s', importLayerDir dir [] none commit s = .ok () s' := by
  obtain ⟨s₁, hwrite, -⟩ := (takes_writeCommit [dir.path]).ok s fun n _ => hclean.fails _ n
  have hclean₁ : Faultless s₁ := hclean.of_fewer ((fewerFaults_writeCommit _).of_ok hwrite)
  have hsame : s₁.layers = s.layers ∧ s₁.layerDirs = s.layerDirs := by
    obtain ⟨faults, rfl, -⟩ := (popsOnly_writeCommit _).of_ok hwrite
    exact ⟨rfl, rfl⟩
  have hrun : importLayerDir dir [] none commit s =
      addCheckedOut (localItem commit info) (s₁.committed info reference none commit) := by
    unfold importLayerDir
    rw [bind_of_ok (demand_of_ok htarget)]
    exact bind_of_ok (commitDirToRepo_of_ok _ commit hwrite)
  rw [hrun]
  have hspec := (refSpec_eq_iff (importTarget_ok htarget).2.1 none commit).2 hplain
  -- nothing stops the checkout
  refine addCheckedOut_of_finishes ⟨?_, fun n _ => ?_, ?_, ?_, ?_, ?_⟩
  · exact (congrArg (List.lookup commit) hsame.2).trans hfresh
  · exact hclean₁.fails .layerDir n
  · unfold committed
    rw [hspec]
    exact Option.isSome_iff_exists.2 ⟨commit, List.lookup_cons_self⟩
  · exact hclean₁.fails .checkout 0
  · exact (congrArg (fun l => l.any (localItem commit info).matchesItem) hsame.1).trans hnew
  · exact hclean₁.fails .writeCache 0

/-- **Step**: without faults a round returns if its module is not there. -/
theorem Building.commitModule_returns {done : List String} {module : String} {s : Repo}
    (h : Building ref done s) (hnames : Names ref info) {reference : Reference}
    (href : Reference.fromPackageInfo info = .ok reference) (hclean : Faultless s)
    {count : Nat} (hready : Ready stages s done.length count) (hcount : done.length < count)
    (hruntime : module ≠ "runtime") (hnew : normModule module ∉ done.map normModule) :
    ∃ s', Builder.commitModule stages info done module s = .ok () s' := by
  have hdone : module ∉ done := fun hmem => hnew (List.mem_map_of_mem hmem)
  have hstart : Builder.commitModule stages info done module s =
      importLayerDir (moduleOutput info module) [] none (stages.checksum done.length) s := by
    unfold Builder.commitModule
    rw [hready.writeInfo _ le_rfl hcount, if_neg hdone, hready.copyYaml _ le_rfl hcount]
    rfl
  have htarget : s.importTarget (moduleOutput info module) none =
      .ok ({ info with packageInfoV2Module := module }, reference) := by
    unfold importTarget moduleOutput
    rw [if_neg (by simp)]
    refine bind_eq_ok_iff.2 ⟨_, rfl, bind_eq_ok_iff.2 ⟨reference, href, ?_⟩⟩
    -- the module is not there
    cases hfound : s.getLayerDir reference module none with
    | error e => rfl
    | ok dir =>
      have hsame := sameLayers_of_names hnames href
      exact absurd ((h.getLayerDir_isOk_iff module).1
        ((getLayerDir_of_sameLayers hsame).1 ⟨dir, hfound⟩)) hnew
  rw [hstart]
  refine importLayerDir_returns hclean htarget ⟨hruntime, rfl, ?_⟩
    (hready.fresh _ le_rfl hcount) (List.any_eq_false.2 fun l hl hmatch => hnew ?_)
  · show info.version.toList.getLast? ≠ some '\n'
    rw [hnames.2.2]
    exact ref.version.getLast_toString
  · have hlayer : l.isLayerOf ref = true := by
      rw [isLayerOf_of_matchesItem hmatch]
      exact isLayerOf_iff.2 hnames
    have hmodule : normModule module = l.moduleName := (moduleName_of_matchesItem hmatch).symm
    rw [← h.modules, hmodule]
    exact List.mem_map_of_mem (mem_layersOf.2 ⟨hl, hlayer⟩)

/-- A round takes the first of the new checksums. -/
theorem Ready.next {done : List String} {module : String} {s s' : Repo} {count : Nat}
    (h : Ready stages s done.length count)
    (hrun : Builder.commitModule stages info done module s = .ok () s') :
    Ready stages s' (done ++ [module]).length count := by
  obtain ⟨info', reference, htarget, hdone⟩ := importLayerDir_ok (commitModule_ok hrun).2
  rw [List.length_append, List.length_singleton]
  refine ⟨fun n hn => h.writeInfo n (by omega), fun n hn => h.copyYaml n (by omega),
    fun n hn hlt => ?_, fun m n hm => h.distinct m n (by omega)⟩
  have hne : stages.checksum n ≠ stages.checksum done.length :=
    (h.distinct done.length n le_rfl (by omega) hlt).symm
  exact (hdone.dirs _ hne).trans (h.fresh n (by omega) hlt)

/-- **Run**: without faults the loop returns if all names are different. -/
theorem commitModules_returns (hnames : Names ref info) {reference : Reference}
    (href : Reference.fromPackageInfo info = .ok reference) (modules : List String) :
    ∀ (done : List String) (s : Repo), Building ref done s → Faultless s →
      Ready stages s done.length (done ++ modules).length → "runtime" ∉ modules →
      ((done ++ modules).map normModule).Nodup →
      ∃ s', commitModules stages info done modules s = .ok () s' ∧ Faultless s' := by
  induction modules with
  | nil => exact fun done s _ hclean _ _ _ => ⟨s, rfl, hclean⟩
  | cons module rest ih =>
    intro done s h hclean hready hruntime hnodup
    have hcount : done.length < (done ++ module :: rest).length := by simp
    have hlist : done ++ module :: rest = done ++ [module] ++ rest := by simp
    have hnew : normModule module ∉ done.map normModule := by
      rw [List.map_append, List.map_cons, List.nodup_middle, List.nodup_cons] at hnodup
      exact fun hmem => hnodup.1 (List.mem_append_left _ hmem)
    obtain ⟨s₁, hround⟩ := h.commitModule_returns hnames href hclean hready hcount
      (fun heq => hruntime (by simp [heq])) hnew
    have hclean₁ : Faultless s₁ := hclean.of_fewer
      ((fewerFaults_importLayerDir _ _ _ _).of_ok (commitModule_ok hround).2)
    have hready₁ := hready.next hround
    rw [hlist] at hready₁ hnodup
    obtain ⟨s', hrest, hclean'⟩ := ih (done ++ [module]) s₁ (h.commitModule hnames hround) hclean₁
      hready₁ (fun hmem => hruntime (List.mem_cons_of_mem _ hmem)) hnodup
    exact ⟨s', (bind_of_ok hround).trans hrest, hclean'⟩

/-- Removing layers makes no directories. -/
theorem lookup_removeModules (modules : List String) {s : Repo} {name : String}
    (h : s.layerDirs.lookup name = none) :
    (after (removeModules ref modules) s).layerDirs.lookup name = none := by
  induction modules generalizing s with
  | nil => exact h
  | cons module rest ih =>
    rw [after_removeModules_cons]
    refine ih ?_
    rcases remove_cases ref module none s with ⟨e, faults, -, hrun, -⟩ |
      ⟨layer, faults, json, dirs, -, -, hrun, hdirs, -⟩
    · rw [after_of_error hrun]
      exact h
    · rw [hrun]
      show dirs.lookup name = none
      rcases hdirs with rfl | rfl
      · exact h
      · by_cases hname : name = layer.commit
        · rw [hname]
          exact lookup_filter_self _ _
        · exact (lookup_filter_ne hname s.layerDirs).trans h

/-- Without faults the commit stage works exactly if no two modules have one
    name. -/
theorem commitOutput_returns_iff {output : Output} (hnames : Names output.ref output.info)
    {reference : Reference} (href : Reference.fromPackageInfo output.info = .ok reference)
    {s : Repo} (hown : Own output.ref s) (hclean : Faultless s) {modules : List String}
    (hready : Ready stages s 0 modules.length) (hruntime : "runtime" ∉ modules ∨
      "binary" ∈ modules) :
    returns (commitOutput stages output modules) s = true ↔ (modules.map normModule).Nodup := by
  have hstart : commitOutput stages output modules s =
      (commitModules stages output.info [] modules >>= fun _ => mergeModules)
        (after (removeModules output.ref (s.getModuleList output.ref)) s) :=
    (bind_of_ok (get_run s)).trans (bind_of_ok (removeModules_run _ s))
  have hview := view_removeModules hown
  have hclean₁ := hclean.of_fewer
    (fewerFaults_removeModules output.ref (s.getModuleList output.ref) s)
  have hready₁ : Ready stages (after (removeModules output.ref (s.getModuleList output.ref)) s)
      0 modules.length :=
    ⟨hready.writeInfo, hready.copyYaml, fun n hn hlt =>
      lookup_removeModules _ (hready.fresh n hn hlt), hready.distinct⟩
  generalize after (removeModules output.ref (s.getModuleList output.ref)) s = s₁ at *
  have hbuilding : Building output.ref [] s₁ :=
    ⟨by rw [hview]; rfl, by simp [hview], by simp⟩
  unfold returns
  rw [hstart]
  constructor
  · intro h
    obtain ⟨_, s', hrun⟩ := exists_of_returns h
    obtain ⟨_, s₂, hmodules, -⟩ := bind_ok_iff.1 hrun
    exact nodup_of_commitModules hnames modules [] s₁ s₂ hbuilding hmodules
  · intro hnodup
    have hnot : "runtime" ∉ modules := by
      rcases hruntime with hnot | hbinary
      · exact hnot
      · intro hmem
        have hsame := List.inj_on_of_nodup_map hnodup hmem hbinary rfl
        exact absurd hsame (by decide)
    obtain ⟨s₂, hmodules, hclean₂⟩ := commitModules_returns hnames href modules [] s₁
      hbuilding hclean₁ hready₁ hnot hnodup
    obtain ⟨_, s', hmerge, -⟩ := clean_mergeModules s₂ hclean₂
    rw [bind_of_ok hmodules, hmerge]

/-- The names of the modules that a project lists. -/
def listedNames (project : BuilderProject) : List String :=
  (project.modules.getD []).map BuilderProjectModules.name

theorem map_normModule_eq_self {names : List String} (h : "runtime" ∉ names) :
    names.map normModule = names := by
  conv_rhs => rw [← List.map_id names]
  refine List.map_congr_left fun name hname => ?_
  exact normModule_eq_self_iff.2 fun heq => h (heq ▸ hname)

theorem moduleNames_eq (project : BuilderProject) (options : BuilderBuildOptions) :
    moduleNames project options =
      "binary" :: ((if options.fullDevelop then ["develop"] else []) ++ (listedNames project ++
        (if options.fullDevelop = false ∧ "develop" ∉ listedNames project then ["develop"]
          else []))) := by
  have hany : (project.modules.getD []).any (fun module => module.name == "develop") =
      decide ("develop" ∈ listedNames project) := by
    rw [Bool.eq_iff_iff]
    simp [listedNames]
  unfold moduleNames projectModules
  simp only [hany]
  cases options.fullDevelop <;> by_cases hmem : "develop" ∈ listedNames project <;>
    simp [hmem, defaultDevelop] <;> simp [listedNames]

/-- When the modules that are committed have different names. -/
theorem nodup_moduleNames_iff {project : BuilderProject} (options : BuilderBuildOptions)
    (hbinary : "binary" ∉ listedNames project) :
    ((moduleNames project options).map normModule).Nodup ↔
      (listedNames project).Nodup ∧ "runtime" ∉ listedNames project ∧
        (options.fullDevelop = true → "develop" ∉ listedNames project) := by
  rw [moduleNames_eq]
  by_cases hruntime : "runtime" ∈ listedNames project
  · -- the old name of `binary`
    refine iff_of_false (fun h => ?_) fun h => h.2.1 hruntime
    rw [List.map_cons, List.nodup_cons] at h
    refine h.1 (List.mem_map.2 ⟨"runtime", ?_, rfl⟩)
    simp [hruntime]
  · rw [map_normModule_eq_self]
    · cases options.fullDevelop with
      | true => simp [hbinary, hruntime, and_comm]
      | false =>
        by_cases hdevelop : "develop" ∈ listedNames project
        · simp [hbinary, hruntime, hdevelop]
        · have hconcat := List.nodup_concat (listedNames project) "develop"
          rw [List.concat_eq_append] at hconcat
          simp [hbinary, hruntime, hdevelop, hconcat]
    · simp only [List.mem_cons, List.mem_append, not_or]
      refine ⟨by decide, ?_, hruntime, ?_⟩ <;> split <;> simp

/-- **Main result.** Let the configuration be accepted, its version text
    have no line break at its end, and the architecture of the host be known.
    Let the stages before the commit work, the old layers be such that they
    can be removed, the stages of the commit work with new checksums, and no
    step of the repository fail. Then the build succeeds exactly if no name
    is listed twice, `runtime` is not listed, and `develop` is not listed if
    the full `develop` module is asked for. It finds out when the old layers
    have been removed. -/
theorem build_returns_iff {project : BuilderProject} {options : BuilderBuildOptions}
    {stages : BuildStages} {output : Output} {s s₁ : Repo}
    (hconfig : parseProjectConfig project = .ok project)
    (hline : project.version.toList.getLast? ≠ some '\n') (hhost : s.outside.cpuArch ≠ .ok .unknow)
    (hrun : runStages project options stages s = .ok (some output) s₁)
    (hown : Own output.ref s₁) (hclean : Faultless s₁)
    (hready : Ready stages s₁ 0 (moduleNames project options).length) :
    returns (build project options stages) s = true ↔
      (listedNames project).Nodup ∧ "runtime" ∉ listedNames project ∧
        (options.fullDevelop = true → "develop" ∉ listedNames project) := by
  have hnames := names_of_runStages hrun hline
  obtain ⟨-, href, arch, base, runtime, harch, hinfo⟩ := runStages_ok hrun
  unfold parseProjectConfig at hconfig
  obtain ⟨version, hversion, hconfig⟩ := bind_eq_ok_iff.1 hconfig
  -- what the checks of the configuration say
  split at hconfig
  · cases hconfig
  next htweak =>
  split at hconfig
  · cases hconfig
  next hany =>
  have hbinary : "binary" ∉ listedNames project := by
    simpa [listedNames] using hany
  -- the package names a reference
  have hreference : ∃ reference, Reference.fromPackageInfo output.info = .ok reference := by
    have harch' : Architecture.parse arch.toString = .ok arch := by
      rw [harch] at hhost
      cases arch <;> first | rfl | exact absurd rfl hhost
    rw [hinfo]
    unfold Reference.fromPackageInfo
    refine ⟨⟨output.ref.channel, output.ref.id, version, arch, output.ref.channel_ne,
      output.ref.id_ne⟩, bind_eq_ok_iff.2 ⟨version, hversion, ?_⟩⟩
    rw [if_neg htweak]
    refine bind_eq_ok_iff.2 ⟨arch, harch', Reference.create_eq_ok_iff.2 ⟨rfl, ?_, rfl, rfl⟩⟩
    rw [← hnames.1, hinfo]
  obtain ⟨reference, hreference⟩ := hreference
  have hbuild : build project options stages s =
      commitOutput stages output (moduleNames project options) s₁ := bind_of_ok hrun
  rw [← nodup_moduleNames_iff options hbinary,
    ← commitOutput_returns_iff hnames hreference hown hclean hready
      (.inr (by rw [moduleNames_eq]; exact List.mem_cons_self)), returns, hbuild]
  rfl

end Returns

theorem faultless_runDemo : Faultless (after (runDemo ["doc", "runtime"]) demoRepo) := by
  intro step
  unfold NoFaults
  cases step <;> decide

theorem ready_runDemo : Ready (demoStages (.ok ()))
    (after (runDemo ["doc", "runtime"]) demoRepo) 0 4 where
  writeInfo := fun _ _ _ => rfl
  copyYaml := fun _ _ _ => rfl
  fresh := by decide
  distinct := by
    have hall : ∀ n < 4, ∀ m < n, (demoStages (.ok ())).checksum m ≠
        (demoStages (.ok ())).checksum n := by decide
    exact fun m n _ hlt hn => hall n hn m hlt

theorem build_returns_iff_runtime :
    returns (build (demoProject ["doc", "runtime"]) offline (demoStages (.ok ()))) demoRepo =
        true ↔
      ["doc", "runtime"].Nodup ∧ "runtime" ∉ ["doc", "runtime"] ∧
        (offline.fullDevelop = true → "develop" ∉ ["doc", "runtime"]) := by
  have hout : hasOutput ["doc", "runtime"] = true := by decide
  obtain ⟨output, hrun, href⟩ := exists_output hout
  exact build_returns_iff rfl (by decide) (by decide) hrun (href ▸ own_runDemo)
    faultless_runDemo ready_runDemo

end Linglong.Builder
