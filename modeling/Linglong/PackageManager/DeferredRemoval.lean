import Linglong.Framework.Machine
import Linglong.PackageManager.Frame
import Linglong.PackageManager.PruneSafety

/-! # Deferred Removal

    An upgrade does not remove the old version of an app that is running. It
    marks its layers deleted, and `deferredUninstall` removes them later,
    unless a container of the app is still listed. Until then the app needs
    the directories `layers/<commit>` of its layers, and `merged/<id>` if it
    was started from there.

    Which directories survive depends on all operations in between. The
    layer directories are safe: every operation removes layers of references
    it has looked up, and each of these looks skips marked layers or running
    apps. The merged directory is not: `mergeModules` groups the layers that
    are not marked and then removes all directories without a record.

    1. The machine of operations.
    2. What has to be kept, and when it is.
    3. Layer directories.
    4. Merged directories.
    5. Runs (`kept_of_meets`).
-/

namespace Linglong

open Framework RepositoryCacheLayersItem

namespace DeferredRemoval

/-! ## Section 1: Operations -/

/-- An operation of the package manager; jobs come with their task. -/
inductive Operation where
  | install (task : PackageTask) (newRef : Reference) (oldRef : Option Reference)
      (modules : List String)
  | update (task : PackageTask) (upgradeList : List (Reference × Reference))
  | uninstall (task : PackageTask) (ref : Reference) (module : String)
  | prune
  | deferredUninstall
  | mergeModules

/-- An operation and the containers that it finds. -/
structure Event where
  operation : Operation
  containers : Containers

/-- What an operation does to the repository. -/
def perform (s : Repo) (e : Event) : Repo :=
  match e.operation with
  | .install task newRef oldRef modules =>
      (Job.installJob ⟨s, task⟩ e.containers newRef oldRef modules).repo
  | .update task upgradeList => (Job.updateJob ⟨s, task⟩ e.containers upgradeList).repo
  | .uninstall task ref module => (Job.uninstall ⟨s, task⟩ ref module).repo
  | .prune => s.prune.1
  | .deferredUninstall => s.deferredUninstall e.containers
  | .mergeModules => after Repo.mergeModules s

/-- One operation after the other. Which of them follow, what they find and
    which of their steps fail is open. -/
def machine : Machine Repo Event where
  next := fun s e => some (perform s e)

/-! ## Section 2: What is kept, and when -/

/-- A container of the reference is listed, and its layers are marked
    deleted. -/
def Deferred (r : Reference) (s : Repo) (e : Event) : Prop :=
  (∀ item ∈ s.view r, item.isDeleted = true) ∧
    ∃ running, e.containers = .ok running ∧ r.toString ∈ running

/-- The directories of the reference that were there are still there. -/
structure Kept (r : Reference) (s s' : Repo) : Prop where
  layers : ∀ item ∈ s.view r, (s.layerDirs.lookup item.commit).isSome = true →
    (s'.layerDirs.lookup item.commit).isSome = true
  merged : ∀ id, s.getMergedModuleDir r true = .ok (.merged id) →
    (s'.mergedDirs.lookup id).isSome = true

/-- The cache has for each layer what the `info.json` of its commit says. -/
def Recorded (s : Repo) : Prop :=
  ∀ item ∈ s.layers, s.outside.commitInfo item.commit = .ok item.info

/-- The operation looks for layers of other references than `r`, or it can
    tell that `r` is running.

    * Installing `r` itself takes the marks away, and undoing the
      installation removes the layers. The request `Uninstall` refuses a
      running app, its job does not look again.
    * `isRefBusy` compares texts. A version that has the layers of `r` but
      another architecture is not busy.
    * `Prune` and `deferredUninstall` make references from layers; such a
      reference should have the layers it was made from. -/
def Spares (r : Reference) (s : Repo) (e : Event) : Prop :=
  match e.operation with
  | .install _ newRef oldRef _ => ¬ Repo.SameLayers newRef r ∧
      ∀ old ∈ oldRef, Repo.SameLayers old r → old.arch = r.arch
  | .update _ upgradeList => ∀ pair ∈ upgradeList, ¬ Repo.SameLayers pair.2 r ∧
      (Repo.SameLayers pair.1 r → pair.1.arch = r.arch)
  | .uninstall _ ref _ => ¬ Repo.SameLayers ref r
  | .prune => ∀ item ∈ s.layers, ∀ ref, Reference.fromPackageInfo item.info = .ok ref →
      Repo.SameLayers ref r → item.isLayerOf r = true
  | .deferredUninstall => ∀ item ∈ s.layers, ∀ ref, Reference.fromPackageInfo item.info = .ok ref →
      ∀ ref', Reference.parse ref.toString = .ok ref' → Repo.SameLayers ref' r →
        ref.toString = r.toString
  | .mergeModules => True

/-- The operation gets to `mergeModules`. A job does not if its task is done
    before, `Update` does not if the old version of the app is running,
    `Prune` and `deferredUninstall` do not if there is nothing to look at. -/
def Merges (s : Repo) (e : Event) : Prop :=
  match e.operation with
  | .install task newRef _ modules => Job.InstallMerges ⟨s, task⟩ newRef modules
  | .update task upgradeList => isTaskDone task.subState = false ∧
      Job.UpdateLoopMerges ⟨s, task⟩ e.containers upgradeList
  | .uninstall task ref module => Job.UninstallMerges ⟨s, task⟩ ref module
  | .prune => s.pruneTarget ≠ [] ∧ s.prune.2.2 = .ok ()
  | .deferredUninstall => ∃ group ∈ (s.outside.map.groups (s.removableGroups e.containers)).head?,
      ∃ ref, Reference.parse group.1 = .ok ref
  | .mergeModules => True

/-! ## Section 3: Layer directories -/

/-- The commit holds a layer of the reference. -/
def HoldsLayerOf (outside : Outside) (r : Reference) (commit : String) : Prop :=
  ∃ info, outside.commitInfo commit = .ok info ∧ info.id = r.id ∧ info.channel = r.channel ∧
    info.version = r.version.toString

/-- No directory with a layer of the reference is removed. -/
structure KeepsLayers (r : Reference) (s s' : Repo) : Prop where
  outside : s'.outside = s.outside
  recorded : Recorded s → Recorded s'
  dirs : Recorded s → ∀ commit, HoldsLayerOf s.outside r commit →
    (s.layerDirs.lookup commit).isSome = true → (s'.layerDirs.lookup commit).isSome = true

section KeepsLayers

variable {r : Reference}

theorem KeepsLayers.of_eq {s s' : Repo} (houtside : s'.outside = s.outside)
    (hlayers : s'.layers = s.layers) (hdirs : s'.layerDirs = s.layerDirs) :
    KeepsLayers r s s' where
  outside := houtside
  recorded := by
    intro h
    unfold Recorded at h ⊢
    rwa [hlayers, houtside]
  dirs := fun _ commit _ hsome => by rwa [hdirs]

theorem KeepsLayers.trans {s₁ s₂ s₃ : Repo} (h : KeepsLayers r s₁ s₂)
    (h' : KeepsLayers r s₂ s₃) : KeepsLayers r s₁ s₃ where
  outside := h'.outside.trans h.outside
  recorded := h'.recorded ∘ h.recorded
  dirs := by
    intro hrecorded commit hholds hsome
    have hholds' : HoldsLayerOf s₂.outside r commit := by rwa [h.outside]
    exact h'.dirs (h.recorded hrecorded) commit hholds' (h.dirs hrecorded commit hholds hsome)

theorem keepsLayers_pull (s : Repo) (ref : Reference) (module : String) :
    KeepsLayers r s (s.pull ref module).1 := by
  obtain ⟨hframe, hlayers⟩ := s.pull_spec ref module
  refine ⟨hframe.outside, ?_, fun _ commit _ hsome => by rwa [hframe.dirs commit hsome]⟩
  intro hrecorded item hitem
  rw [hframe.outside]
  rcases hlayers with ⟨hlayers, -⟩ | ⟨_, new, -, hnew⟩
  · rw [hlayers] at hitem
    exact hrecorded item hitem
  · rw [hnew.layers] at hitem
    rcases List.mem_append.1 hitem with hitem | hitem
    · exact hrecorded item hitem
    · rw [List.mem_singleton.1 hitem]
      exact hnew.info

/-- Setting a mark changes neither commits nor infos. -/
theorem mem_setDeletedFirst {p : RepositoryCacheLayersItem → Bool} {deleted : Option Bool}
    {layers : List RepositoryCacheLayersItem} {item : RepositoryCacheLayersItem}
    (h : item ∈ setDeletedFirst p deleted layers) :
    ∃ b ∈ layers, item.commit = b.commit ∧ item.info = b.info := by
  induction layers with
  | nil => cases h
  | cons b layers ih =>
    unfold setDeletedFirst at h
    split at h
    · rcases List.mem_cons.1 h with rfl | h
      · exact ⟨b, by simp, rfl, rfl⟩
      · exact ⟨item, by simp [h], rfl, rfl⟩
    · rcases List.mem_cons.1 h with rfl | h
      · exact ⟨item, by simp, rfl, rfl⟩
      · obtain ⟨c, hc, hsame⟩ := ih h
        exact ⟨c, by simp [hc], hsame⟩

theorem keepsLayers_markDeleted (s : Repo) (ref : Reference) (deleted : Bool) (module : String) :
    KeepsLayers r s (after (Repo.markDeleted ref deleted module) s) := by
  rcases Repo.markDeleted_cases ref deleted module s with ⟨e, faults, -, hrun, -⟩ |
    ⟨layer, faults, -, -, hrun⟩
  · rw [after_of_error hrun]
    exact .of_eq rfl rfl rfl
  · rw [after_of_ok hrun]
    refine ⟨rfl, ?_, fun _ _ _ hsome => hsome⟩
    intro hrecorded item hitem
    obtain ⟨b, hb, hcommit, hinfo⟩ := mem_setDeletedFirst hitem
    rw [hcommit, hinfo]
    exact hrecorded b hb

/-- A removal keeps all directories but that of the layer it finds. -/
theorem remove_dirs (s : Repo) (ref : Reference) (module : String) (subRef : Option String) :
    (after (Repo.remove ref module subRef) s).outside = s.outside ∧
      (after (Repo.remove ref module subRef) s).layers.Sublist s.layers ∧
      ∀ commit, (s.layerDirs.lookup commit).isSome = true →
        (∀ layer, s.getLayerItem ref module subRef = .ok layer → commit ≠ layer.commit) →
        ((after (Repo.remove ref module subRef) s).layerDirs.lookup commit).isSome = true := by
  rcases Repo.remove_cases ref module subRef s with ⟨e, faults, -, hrun, -⟩ |
    ⟨layer, faults, json, dirs, -, hlayer, hrun, hdirs, -⟩
  · rw [after_of_error hrun]
    exact ⟨rfl, List.Sublist.refl _, fun _ hsome _ => hsome⟩
  · rw [hrun]
    refine ⟨rfl, List.eraseP_sublist, ?_⟩
    intro commit hsome hne
    show (dirs.lookup commit).isSome = true
    rcases hdirs with rfl | rfl
    · exact hsome
    · show ((s.layerDirs.filter fun d => d.1 ≠ layer.commit).lookup commit).isSome = true
      rwa [lookup_filter_ne (hne layer hlayer)]

theorem Recorded.of_sublist {s s' : Repo} (h : Recorded s) (houtside : s'.outside = s.outside)
    (hlayers : s'.layers.Sublist s.layers) : Recorded s' := by
  intro item hitem
  rw [houtside]
  exact h item (hlayers.subset hitem)

/-- The layers of other references have other commits. -/
theorem keepsLayers_remove (s : Repo) {ref : Reference} (module : String)
    (subRef : Option String) (href : ¬ Repo.SameLayers ref r) :
    KeepsLayers r s (after (Repo.remove ref module subRef) s) := by
  obtain ⟨houtside, hlayers, hdirs⟩ := remove_dirs s ref module subRef
  refine ⟨houtside, fun hrecorded => hrecorded.of_sublist houtside hlayers, ?_⟩
  intro hrecorded commit hholds hsome
  refine hdirs commit hsome ?_
  rintro layer hlayer rfl
  obtain ⟨hmem, hof⟩ := mem_layersOf.1 (Repo.getLayerItem_mem hlayer).1
  obtain ⟨info, hinfo, hid, hchannel, hversion⟩ := hholds
  have hsame : layer.info = info := by
    have := (hrecorded layer hmem).symm.trans hinfo
    exact Except.ok.inj this
  have hof' : layer.isLayerOf r = true := by
    rw [isLayerOf_iff, hsame]
    exact ⟨hid, hchannel, hversion⟩
  rw [Repo.isLayerOf_of_not_sameLayers href hof] at hof'
  cases hof'

/-- What is removed again was not there when it was pulled. -/
theorem keepsLayers_undoPull {s s' : Repo} {ref : Reference} (hmissing : s.Missing ref)
    (hgrown : Repo.Grown s s') (h : KeepsLayers r s s') :
    KeepsLayers r s (Job.undoPull ref "binary" s') := by
  obtain ⟨houtside, hlayers, hdirs⟩ := remove_dirs s' ref "binary" none
  refine ⟨houtside.trans h.outside,
    fun hrecorded => (h.recorded hrecorded).of_sublist houtside hlayers, ?_⟩
  intro hrecorded commit hholds hsome
  refine hdirs commit (h.dirs hrecorded commit hholds hsome) ?_
  rintro layer hlayer rfl
  rw [hmissing.lookup_eq_none hgrown hlayer] at hsome
  cases hsome

/-- Every operation on other references keeps the layers of `r`. -/
theorem operationFrame_keepsLayers (r : Reference) :
    OperationFrame (KeepsLayers r) fun ref => ¬ Repo.SameLayers ref r where
  refl := fun _ => .of_eq rfl rfl rfl
  trans := .trans
  popFault := fun _ _ => .of_eq rfl rfl rfl
  remove := fun s _ module subRef href => keepsLayers_remove s module subRef href
  remotes := fun _ _ => .of_eq rfl rfl rfl
  pull := keepsLayers_pull
  markDeleted := keepsLayers_markDeleted
  undoPull := fun _ _ _ => keepsLayers_undoPull

theorem keepsLayers_mergeModules (s : Repo) : KeepsLayers r s (after Repo.mergeModules s) :=
  have hframe := Repo.mergeFrame_mergeModules s
  .of_eq hframe.outside hframe.layers hframe.layerDirs

end KeepsLayers

section Step

variable {r : Reference} {s : Repo} {e : Event}

theorem toString_eq_of_sameLayers {ref : Reference} (hsame : Repo.SameLayers ref r)
    (harch : ref.arch = r.arch) : ref.toString = r.toString := by
  obtain ⟨hid, hchannel, hversion⟩ := hsame
  rw [Reference.toString, Reference.toString, hid, hchannel, hversion, harch]

/-- A free version has other layers than the running one. -/
theorem Deferred.not_sameLayers (h : Deferred r s e) {ref : Reference}
    (harch : Repo.SameLayers ref r → ref.arch = r.arch)
    (hfree : isRefBusy e.containers ref = .ok false) : ¬ Repo.SameLayers ref r := by
  intro hsame
  obtain ⟨-, running, hcontainers, hrunning⟩ := h
  rw [← toString_eq_of_sameLayers hsame (harch hsame)] at hrunning
  have hbusy : isRefBusy e.containers ref = .ok true := by
    rw [hcontainers]
    show Except.ok (running.contains ref.toString) = Except.ok true
    rw [List.contains_iff_mem.2 hrunning]
  rw [hbusy] at hfree
  cases hfree

/-- `Prune` makes its references from layers that are not marked. -/
theorem Deferred.not_sameLayers_of_pruneTarget (h : Deferred r s e)
    (hspares : ∀ item ∈ s.layers, ∀ ref, Reference.fromPackageInfo item.info = .ok ref →
      Repo.SameLayers ref r → item.isLayerOf r = true)
    {ref : Reference} (href : (ref, 0) ∈ s.pruneTarget) : ¬ Repo.SameLayers ref r := by
  intro hsame
  obtain ⟨⟨item, hitem, hdeleted, hlists⟩, -⟩ := (s.mem_pruneTarget ref).1 href
  have hinfo : Reference.fromPackageInfo item.info = .ok ref := by
    simp only [Repo.listsRef, Bool.and_eq_true, beq_iff_eq] at hlists
    cases hfrom : Reference.fromPackageInfo item.info with
    | error e => simp [hfrom, Except.toOption] at hlists
    | ok y =>
      have hy : y = ref := by simpa [hfrom, Except.toOption] using hlists.2
      rw [hy]
  have hmarked := h.1 item (mem_layersOf.2 ⟨hitem, hspares item hitem ref hinfo hsame⟩)
  rw [hdeleted] at hmarked
  cases hmarked

/-- `deferredUninstall` leaves out the references whose text is listed. -/
theorem Deferred.not_sameLayers_of_group (h : Deferred r s e)
    (hspares : ∀ item ∈ s.layers, ∀ ref, Reference.fromPackageInfo item.info = .ok ref →
      ∀ ref', Reference.parse ref.toString = .ok ref' → Repo.SameLayers ref' r →
        ref.toString = r.toString)
    {group : String × List RepositoryCacheLayersItem}
    (hgroup : group ∈ s.removableGroups e.containers) {ref : Reference}
    (href : Reference.parse group.1 = .ok ref) : ¬ Repo.SameLayers ref r := by
  intro hsame
  obtain ⟨-, running, hcontainers, hrunning⟩ := h
  obtain ⟨hfree, item, hitem, -, y, hy, htext⟩ := Repo.mem_removableGroups hgroup
  have htoString : y.toString = r.toString :=
    hspares item hitem y hy ref (by rw [htext, href]) hsame
  refine hfree running hcontainers ?_
  rw [← htext, htoString]
  exact hrunning

/-- **Step**: an operation that spares `r` removes none of its layer
    directories. -/
theorem keepsLayers_perform (hdeferred : Deferred r s e) (hspares : Spares r s e) :
    KeepsLayers r s (perform s e) := by
  have hframe := operationFrame_keepsLayers r
  have hmerge : ∀ s, KeepsLayers r s (after Repo.mergeModules s) := keepsLayers_mergeModules
  unfold Spares at hspares
  unfold perform
  -- each operation has its frame rule, with the layers that it may remove
  cases hop : e.operation with
  | install task newRef oldRef modules =>
    rw [hop] at hspares
    exact hframe.installJob_rel hspares.1
      (fun old hold hfree => hdeferred.not_sameLayers (hspares.2 old hold) hfree) ⟨s, task⟩ modules
      fun _ => hmerge
  | update task upgradeList =>
    rw [hop] at hspares
    refine hframe.updateJob_rel ⟨s, task⟩ (fun pair hpair => ?_) fun _ _ => hmerge
    obtain ⟨hnew, harch⟩ := hspares pair hpair
    exact ⟨hnew, fun hfree => hdeferred.not_sameLayers harch hfree⟩
  | uninstall task ref module =>
    rw [hop] at hspares
    exact hframe.uninstall_rel hspares ⟨s, task⟩ module fun _ => hmerge
  | prune =>
    rw [hop] at hspares
    exact hframe.prune_rel (fun ref href => hdeferred.not_sameLayers_of_pruneTarget hspares href)
      fun _ _ => hmerge
  | deferredUninstall =>
    rw [hop] at hspares
    exact hframe.deferredUninstall_rel (fun _ _ _ _ => hmerge)
      fun group hgroup ref href => hdeferred.not_sameLayers_of_group hspares hgroup href
  | mergeModules => exact hmerge s

end Step

/-! ## Section 4: Merged directories -/

/-- Neither `merged/` nor its records have changed. -/
structure SameMerged (s s' : Repo) : Prop where
  merged : s'.merged = s.merged
  mergedDirs : s'.mergedDirs = s.mergedDirs

theorem sameMerged_remove (s : Repo) (ref : Reference) (module : String)
    (subRef : Option String) : SameMerged s (after (Repo.remove ref module subRef) s) := by
  rcases Repo.remove_cases ref module subRef s with ⟨e, faults, -, hrun, -⟩ |
    ⟨layer, faults, json, dirs, -, -, hrun, -, -⟩
  · rw [after_of_error hrun]
    exact ⟨rfl, rfl⟩
  · rw [hrun]
    exact ⟨rfl, rfl⟩

theorem sameMerged_markDeleted (s : Repo) (ref : Reference) (deleted : Bool) (module : String) :
    SameMerged s (after (Repo.markDeleted ref deleted module) s) := by
  rcases Repo.markDeleted_cases ref deleted module s with ⟨e, faults, -, hrun, -⟩ |
    ⟨layer, faults, -, -, hrun⟩
  · rw [after_of_error hrun]
    exact ⟨rfl, rfl⟩
  · rw [after_of_ok hrun]
    exact ⟨rfl, rfl⟩

theorem SameMerged.trans {s₁ s₂ s₃ : Repo} (h : SameMerged s₁ s₂) (h' : SameMerged s₂ s₃) :
    SameMerged s₁ s₃ :=
  ⟨h'.merged.trans h.merged, h'.mergedDirs.trans h.mergedDirs⟩

/-- Only `mergeModules` touches `merged/`. -/
theorem operationFrame_sameMerged : OperationFrame SameMerged fun _ => True where
  refl := fun _ => ⟨rfl, rfl⟩
  trans := .trans
  popFault := fun _ _ => ⟨rfl, rfl⟩
  remove := fun s ref module subRef _ => sameMerged_remove s ref module subRef
  remotes := fun _ _ => ⟨rfl, rfl⟩
  pull := fun s ref module =>
    have hframe := (s.pull_spec ref module).frame
    ⟨hframe.merged, hframe.mergedDirs⟩
  markDeleted := sameMerged_markDeleted
  undoPull := fun _ s' ref _ _ h => h.trans (sameMerged_remove s' ref "binary" none)

/-- **Step**: an operation that does not get to `mergeModules` leaves
    `merged/` as it is. -/
theorem sameMerged_perform {s : Repo} {e : Event} (hmerge : ¬ Merges s e) :
    SameMerged s (perform s e) := by
  have hframe := operationFrame_sameMerged
  unfold Merges at hmerge
  unfold perform
  -- the operations that get to `mergeModules` are out
  cases hop : e.operation with
  | install task newRef oldRef modules =>
    rw [hop] at hmerge
    exact hframe.installJob_rel trivial (fun _ _ _ => trivial) ⟨s, task⟩ modules
      fun hcase => absurd hcase hmerge
  | update task upgradeList =>
    rw [hop] at hmerge
    exact hframe.updateJob_rel ⟨s, task⟩ (fun _ _ => ⟨trivial, fun _ => trivial⟩)
      fun hdone hcase => absurd ⟨hdone, hcase⟩ hmerge
  | uninstall task ref module =>
    rw [hop] at hmerge
    exact hframe.uninstall_rel trivial ⟨s, task⟩ module fun hcase => absurd hcase hmerge
  | prune =>
    rw [hop] at hmerge
    exact hframe.prune_rel (fun _ _ => trivial)
      fun htarget hresult => absurd ⟨htarget, hresult⟩ hmerge
  | deferredUninstall =>
    rw [hop] at hmerge
    exact hframe.deferredUninstall_rel
      (fun group hgroup ref href => absurd ⟨group, hgroup, ref, href⟩ hmerge)
      fun _ _ _ _ => trivial
  | mergeModules =>
    rw [hop] at hmerge
    exact absurd trivial hmerge

/-! ## Section 5: Runs -/

/-- The condition on a step: it spares `r`, and if `r` has a merged
    directory it does not get to `mergeModules`. -/
def SparesDirs (r : Reference) (start : Repo) (s : Repo) (e : Event) : Prop :=
  Spares r s e ∧
    ((∃ id, start.getMergedModuleDir r true = .ok (.merged id)) → ¬ Merges s e)

/-- What a run keeps, seen from its start. -/
structure KeepsDirs (r : Reference) (start s : Repo) : Prop where
  layers : KeepsLayers r start s
  merged : (∃ id, start.getMergedModuleDir r true = .ok (.merged id)) → SameMerged start s

theorem lookup_of_getMergedModuleDir {s : Repo} {r : Reference} {id : String}
    (h : s.getMergedModuleDir r true = .ok (.merged id)) :
    (s.mergedDirs.lookup id).isSome = true := by
  unfold Repo.getMergedModuleDir at h
  obtain ⟨layer, -, h⟩ := bind_eq_ok_iff.1 h
  split at h
  · next item hfind =>
    simp only [Except.ok.injEq, Repo.ModuleDir.merged.injEq] at h
    have hitem := List.find?_some hfind
    rw [Bool.and_eq_true, h] at hitem
    exact hitem.2
  · -- the directory of a layer is not a merged one
    rw [if_pos rfl] at h
    obtain ⟨content, -, hend⟩ := bind_eq_ok_iff.1 h
    cases hend

theorem KeepsDirs.kept {r : Reference} {start s : Repo} (h : KeepsDirs r start s)
    (hrecorded : Recorded start) : Kept r start s where
  layers := by
    intro item hitem hsome
    obtain ⟨hmem, hof⟩ := mem_layersOf.1 hitem
    exact h.layers.dirs hrecorded item.commit
      ⟨item.info, hrecorded item hmem, isLayerOf_iff.1 hof⟩ hsome
  merged := by
    intro id hid
    rw [(h.merged ⟨id, hid⟩).mergedDirs]
    exact lookup_of_getMergedModuleDir hid

/-- As long as a container of `r` is listed and its layers are marked
    deleted, none of its directories is removed, provided that the steps
    spare `r` and do not merge while `r` has a merged directory. -/
theorem kept_of_meets {r : Reference} {start s : Repo} {events : List Event}
    (hrecorded : Recorded start)
    (hdeferred : machine.Meets (Deferred r) start events)
    (hmeets : machine.Meets (SparesDirs r start) start events)
    (hexec : machine.exec start events = some s) : Kept r start s := by
  have hboth : machine.Meets (fun s e => Deferred r s e ∧ SparesDirs r start s e) start events :=
    machine.meets_and hdeferred hmeets
  have hstart : KeepsDirs r start start := ⟨.of_eq rfl rfl rfl, fun _ => ⟨rfl, rfl⟩⟩
  have hkeeps : KeepsDirs r start s := by
    refine machine.invariant_of_meets ?_ hstart hboth hexec
    intro s₁ e s₂ hinv hstep hnext
    obtain ⟨hwindow, hspares, hmerge⟩ := hstep
    obtain rfl : perform s₁ e = s₂ := Option.some.inj hnext
    refine ⟨hinv.layers.trans (keepsLayers_perform hwindow hspares), fun hid => ?_⟩
    exact (hinv.merged hid).trans (sameMerged_perform (hmerge hid))
  exact hkeeps.kept hrecorded

/-! ### An upgrade while the app is running -/

/-- A module of an app, in one of two versions. -/
def editorInfo (version module : String) : PackageInfoV2 :=
  { Job.packageInfo "org.editor" version with
    base := "org.base/1.0.0.0", kind := "app", packageInfoV2Module := module }

def editorRef : Reference := Reference.onMain "org.editor" 0 (by decide)

def editorInfos : List (String × PackageInfoV2) :=
  [("b0", editorInfo "1.0.0.0" "binary"), ("d0", editorInfo "1.0.0.0" "develop"),
    ("e0", Job.packageInfo "org.base" "1.0.0.0"),
    ("b1", editorInfo "1.0.1.0" "binary"), ("d1", editorInfo "1.0.1.0" "develop")]

/-- The old version is installed with both modules, and they are merged. -/
def editorRepo : Repo :=
  after Repo.mergeModules
    (.ofLayers (.ofCommits editorInfos)
      ((editorInfos.take 3).map fun e => ⟨e.1, none, e.2, "stable"⟩)
      [⟨[], fun _ => .ok "b1"⟩, ⟨[], fun _ => .ok "d1"⟩] [])

def editorRunning : Containers := .ok [editorRef.toString]

/-- The repository after an upgrade, while the old version is running. -/
def upgradedRepo : Repo :=
  perform editorRepo
    ⟨.update (PackageTask.create "1" (.single "stable:main/org.editor/x86_64/binary")).setJob
      [(editorRef, Reference.onMain "org.editor" 1 (by decide))], editorRunning⟩

theorem deferred_upgradedRepo (operation : Operation) :
    Deferred editorRef upgradedRepo ⟨operation, editorRunning⟩ :=
  ⟨by decide, [editorRef.toString], rfl, by simp⟩

theorem recorded_upgradedRepo : Recorded upgradedRepo := by
  unfold Recorded
  decide

/-- `deferredUninstall` leaves the old version alone. -/
theorem kept_deferredUninstall :
    upgradedRepo.getMergedModuleDir editorRef true = .ok (.merged "b0d0") ∧
      Kept editorRef upgradedRepo (perform upgradedRepo ⟨.deferredUninstall, editorRunning⟩) := by
  have hmeets : machine.Meets (SparesDirs editorRef upgradedRepo) upgradedRepo
      [⟨.deferredUninstall, editorRunning⟩] := by
    refine ⟨⟨?_, fun _ hmerges => ?_⟩, fun _ _ => trivial⟩
    · have hread : ∀ item ∈ upgradedRepo.layers,
          ∀ ref ∈ (Reference.fromPackageInfo item.info).toOption,
          ∀ ref' ∈ (Reference.parse ref.toString).toOption,
            Repo.SameLayers ref' editorRef → ref.toString = editorRef.toString := by
        unfold Repo.SameLayers
        decide
      intro item hitem ref href ref' href' hsame
      exact hread item hitem ref (by simp [href, Except.toOption]) ref'
        (by simp [href', Except.toOption]) hsame
    · have hnone : upgradedRepo.removableGroups editorRunning = [] := by decide
      obtain ⟨group, hgroup, -⟩ := hmerges
      rw [hnone] at hgroup
      cases hgroup
  have hdeferred : machine.Meets (Deferred editorRef) upgradedRepo
      [⟨.deferredUninstall, editorRunning⟩] := ⟨deferred_upgradedRepo _, fun _ _ => trivial⟩
  exact ⟨by decide, kept_of_meets recorded_upgradedRepo hdeferred hmeets rfl⟩

/-- `mergeModules` removes the directory the app was started from. -/
theorem not_kept :
    ¬ ∀ (r : Reference) (start s : Repo) (events : List Event), Recorded start →
      machine.Meets (Deferred r) start events → machine.exec start events = some s →
      Kept r start s := by
  intro h
  have hkept := h editorRef upgradedRepo _ [⟨.mergeModules, editorRunning⟩] recorded_upgradedRepo
    ⟨deferred_upgradedRepo _, fun _ _ => trivial⟩ rfl
  have hdir : upgradedRepo.getMergedModuleDir editorRef true = .ok (.merged "b0d0") := by decide
  exact absurd (hkept.merged "b0d0" hdir) (by decide)

end DeferredRemoval

end Linglong
