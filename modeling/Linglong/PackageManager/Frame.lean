import Linglong.Repo.Steps
import Linglong.PackageManager.Operations

/-! # Frame Rules for the Operations

    What an operation of the package manager leaves alone follows from what
    the steps leave alone that it is made of. `OperationFrame` lists these
    steps with one obligation each; the rules of this module then hold for
    every operation, with all its loops, its early returns and its undo
    actions.

    The obligations are about a relation `R` between the repository before
    and after. A removal is only asked to stay within `R` for the references
    that are `removable`. The runtime of an app need not be one of them: it is
    only removed by the undo action of a pull that was made because it was
    not there (`undoPull`).

    1. Growing: what the pulls of dependencies do.
    2. The obligations.
    3. `InstallRef` and `UninstallRef`.
    4. `Install`, `Uninstall` and `Update`.
    5. `Prune` and `deferredUninstall`.
-/

namespace Linglong

open Framework RepositoryCacheLayersItem

namespace Repo

/-! ## Section 1: Growing -/

/-- Layers were added, each with a directory that was not there before. -/
structure Grown (s s' : Repo) : Prop where
  outside : s'.outside = s.outside
  dirs : ∀ name, (s.layerDirs.lookup name).isSome = true →
    s'.layerDirs.lookup name = s.layerDirs.lookup name
  layers : ∃ new, s'.layers = s.layers ++ new ∧
    ∀ item ∈ new, s.layerDirs.lookup item.commit = none

theorem Grown.of_eq {s s' : Repo} (houtside : s'.outside = s.outside)
    (hlayers : s'.layers = s.layers) (hdirs : s'.layerDirs = s.layerDirs) : Grown s s' where
  outside := houtside
  dirs := fun name _ => by rw [hdirs]
  layers := ⟨[], by simp [hlayers], by simp⟩

theorem Grown.refl (s : Repo) : Grown s s := .of_eq rfl rfl rfl

theorem Grown.trans {s₁ s₂ s₃ : Repo} (h : Grown s₁ s₂) (h' : Grown s₂ s₃) : Grown s₁ s₃ where
  outside := h'.outside.trans h.outside
  dirs := by
    intro name hname
    have hfirst := h.dirs name hname
    rw [← hfirst] at hname
    exact (h'.dirs name hname).trans hfirst
  layers := by
    obtain ⟨new, hlayers, hnew⟩ := h.layers
    obtain ⟨new', hlayers', hnew'⟩ := h'.layers
    refine ⟨new ++ new', by rw [hlayers', hlayers, List.append_assoc], ?_⟩
    intro item hitem
    rcases List.mem_append.1 hitem with hitem | hitem
    · exact hnew item hitem
    · -- what is not there later was not there before
      by_contra hsome
      have hsome' : (s₁.layerDirs.lookup item.commit).isSome = true :=
        Option.isSome_iff_ne_none.2 hsome
      rw [← h.dirs _ hsome', hnew' item hitem] at hsome'
      cases hsome'

theorem grown_pull (s : Repo) (ref : Reference) (module : String) :
    Grown s (s.pull ref module).1 := by
  obtain ⟨hframe, hlayers⟩ := s.pull_spec ref module
  refine ⟨hframe.outside, hframe.dirs, ?_⟩
  rcases hlayers with ⟨hlayers, -⟩ | ⟨_, item, -, hnew⟩
  · exact ⟨[], by simp [hlayers], by simp⟩
  · refine ⟨[item], hnew.layers, ?_⟩
    intro b hb
    rw [List.mem_singleton.1 hb]
    exact hnew.dir

/-- A layer that is found after some were added was found before, or it is
    one of those. -/
theorem getLayerItem_of_grown {s s' : Repo} (h : Grown s s') {ref : Reference} {module : String}
    {layer : RepositoryCacheLayersItem} (hlayer : s'.getLayerItem ref module none = .ok layer) :
    s.getLayerItem ref module none = .ok layer ∨ s.layerDirs.lookup layer.commit = none := by
  obtain ⟨new, hlayers, hnew⟩ := h.layers
  -- a query finds what it found before, and perhaps some of the new layers
  have hquery : ∀ m found, s'.queryLayerItem (layerQuery ref (some m) none) = found →
      ∃ old more, found.Perm (old ++ more) ∧ (∀ b ∈ more, b ∈ new) ∧
        (s.queryLayerItem (layerQuery ref (some m) none)).Perm old := by
    intro m found hfound
    subst hfound
    refine ⟨s.layers.filter (layerQuery ref (some m) none).accepts,
      new.filter (layerQuery ref (some m) none).accepts, ?_,
      fun b hb => List.mem_of_mem_filter hb, StdSort.byVersion_perm _ _⟩
    unfold queryLayerItem queryItems
    rw [← List.filter_append, ← hlayers]
    exact StdSort.byVersion_perm _ _
  have hempty : ∀ m, s'.queryLayerItem (layerQuery ref (some m) none) = [] →
      s.queryLayerItem (layerQuery ref (some m) none) = [] := by
    intro m hm
    obtain ⟨old, more, hperm, -, hold⟩ := hquery m [] hm
    have hnil := List.append_eq_nil_iff.1 (List.nil_perm.1 hperm)
    rw [hnil.1] at hold
    exact hold.eq_nil
  have hsingle : ∀ m, s'.queryLayerItem (layerQuery ref (some m) none) = [layer] →
      s.queryLayerItem (layerQuery ref (some m) none) = [layer] ∨
        s.layerDirs.lookup layer.commit = none := by
    intro m hm
    obtain ⟨old, more, hperm, hmore, hold⟩ := hquery m [layer] hm
    rcases List.append_eq_singleton_iff.1 (List.singleton_perm.1 hperm).symm with
      ⟨-, hmore'⟩ | ⟨hold', -⟩
    · exact .inr (hnew layer (hmore layer (by simp [hmore'])))
    · rw [hold'] at hold
      exact .inl hold.eq_singleton
  unfold getLayerItem at hlayer ⊢
  split at hlayer
  · next item hm =>
    cases hlayer
    rcases hsingle _ hm with hm' | hnone
    · left
      rw [hm']
    · exact .inr hnone
  · cases hlayer
  · next hm =>
    rw [hempty _ hm]
    split at hlayer
    · cases hlayer
    · next hbinary =>
      split at hlayer
      · next item hm' =>
        cases hlayer
        rcases hsingle _ hm' with hm'' | hnone
        · left
          simp only [if_neg hbinary, hm'']
        · exact .inr hnone
      · cases hlayer
      · cases hlayer

/-- The directory of the main module cannot be had. -/
def Missing (s : Repo) (ref : Reference) : Prop :=
  ∃ e, s.getLayerDir ref "binary" none = .error e

/-- What was missing and is now found has a directory that was not there. -/
theorem Missing.lookup_eq_none {s s' : Repo} {ref : Reference} (h : s.Missing ref)
    (hgrown : Grown s s') {layer : RepositoryCacheLayersItem}
    (hlayer : s'.getLayerItem ref "binary" none = .ok layer) :
    s.layerDirs.lookup layer.commit = none := by
  rcases getLayerItem_of_grown hgrown hlayer with hlayer | hnone
  · obtain ⟨e, herror⟩ := h
    cases hlookup : s.layerDirs.lookup layer.commit with
    | none => rfl
    | some content =>
      rw [getLayerDir_ok_iff.2 ⟨layer, hlayer, hlookup⟩] at herror
      cases herror
  · exact hnone

/-! ### Removing the old version -/

section RemoveAfterInstall

variable {R : Repo → Repo → Prop} [Std.Refl R] [IsTrans Repo R] {ref : Reference}

theorem markLoop_within (hmark : ∀ deleted module, Within R (markDeleted ref deleted module))
    (modules : List String) : ∀ (actions : List (Repo → Repo)) (s : Repo),
      (∀ f ∈ actions, ∀ s, R s (f s)) → R s (markLoop ref modules actions s).1 := by
  induction modules with
  | nil =>
    intro actions s _
    exact refl_of R s
  | cons module modules ih =>
    intro actions s hactions
    have hfirst := hmark true module s
    unfold markLoop
    split
    · next hrun =>
      rw [after_of_error hrun] at hfirst
      exact trans_of R hfirst (rollback_within hactions _)
    · next hrun =>
      rw [after_of_ok hrun] at hfirst
      refine trans_of R hfirst (ih _ _ fun f hf s' => ?_)
      rcases List.mem_cons.1 hf with rfl | hf
      · exact hmark false module s'
      · exact hactions f hf s'

theorem removeLoop_within (hremove : ∀ module, Within R (remove ref module none))
    (hpull : ∀ module s, R s (s.pull ref module).1) (modules : List String) :
    ∀ (actions : List (Repo → Repo)) (s : Repo), (∀ f ∈ actions, ∀ s, R s (f s)) →
      R s (removeLoop ref modules actions s).1 := by
  induction modules with
  | nil =>
    intro actions s _
    exact refl_of R s
  | cons module modules ih =>
    intro actions s hactions
    have hfirst := hremove "binary" s
    unfold removeLoop
    split
    · next hrun =>
      rw [after_of_error hrun] at hfirst
      exact trans_of R hfirst (rollback_within hactions _)
    · next hrun =>
      rw [after_of_ok hrun] at hfirst
      refine trans_of R hfirst (ih _ _ fun f hf s' => ?_)
      rcases List.mem_cons.1 hf with rfl | hf
      · exact hpull module s'
      · exact hactions f hf s'

/-- A busy reference is only marked, another one is removed. -/
theorem removeAfterInstall_within {containers : Containers}
    (hmark : ∀ deleted module, Within R (markDeleted ref deleted module))
    (hfree : isRefBusy containers ref = .ok false →
      (∀ module, Within R (remove ref module none)) ∧ (∀ module s, R s (s.pull ref module).1) ∧
        Within R mergeModules)
    (modules : List String) (s : Repo) :
    R s (removeAfterInstall containers ref modules s).1 := by
  unfold removeAfterInstall
  split
  · exact refl_of R s
  · exact markLoop_within hmark modules [] s (by simp)
  · next hbusy =>
    obtain ⟨hremove, hpull, hmerge⟩ := hfree hbusy
    have hloop := removeLoop_within hremove hpull modules [] s (by simp)
    split
    · next heq =>
      rw [heq] at hloop
      exact hloop
    · next heq =>
      rw [heq] at hloop
      exact trans_of R hloop (hmerge _)

end RemoveAfterInstall

end Repo

namespace Job

/-- Looking a dependency up changes neither layers nor refs. -/
theorem clearReference_repo (j : Job) (fuzzy : FuzzyReference) :
    (j.clearReference fuzzy).1.repo = { j.repo with
      remotes := (j.clearReference fuzzy).1.repo.remotes } := by
  unfold clearReference Repo.clearReference
  cases j.repo.clearReferenceLocal fuzzy with
  | ok ref => rfl
  | error e =>
    unfold Repo.listRemote
    cases j.repo.remotes with
    | nil => rfl
    | cons reply rest =>
      simp only
      cases reply.records <;> rfl

theorem grown_clearReference (j : Job) (fuzzy : FuzzyReference) :
    Repo.Grown j.repo (j.clearReference fuzzy).1.repo := by
  rw [clearReference_repo]
  exact .of_eq rfl rfl rfl

theorem beginInstall_repo (j : Job) (ref : Reference) : (j.beginInstall ref).repo = j.repo := by
  have hhost : ∀ j : Job, j.checkHostArch.repo = j.repo := by
    intro j
    unfold checkHostArch
    split <;> rfl
  have harch : ∀ j : Job, (j.checkArch ref).repo = j.repo := by
    intro j
    unfold checkArch
    split <;> exact hhost j
  exact harch _

end Job

/-! ## Section 2: The obligations -/

/-- What removing layers has to do for `R`. -/
structure RemovalFrame (R : Repo → Repo → Prop) (removable : Reference → Prop) : Prop where
  refl : ∀ s, R s s
  trans : ∀ {s₁ s₂ s₃}, R s₁ s₂ → R s₂ s₃ → R s₁ s₃
  popFault : ∀ s step, R s (s.popFault step)
  remove : ∀ s ref module subRef, removable ref → R s (after (Repo.remove ref module subRef) s)

/-- What the steps of all operations have to do for `R`. -/
structure OperationFrame (R : Repo → Repo → Prop) (removable : Reference → Prop) : Prop
    extends RemovalFrame R removable where
  /-- A reply of the remote is used up. -/
  remotes : ∀ s rest, R s { s with remotes := rest }
  pull : ∀ s ref module, R s (s.pull ref module).1
  markDeleted : ∀ s ref deleted module, R s (after (Repo.markDeleted ref deleted module) s)
  /-- A layer that was pulled because it was missing is removed again. -/
  undoPull : ∀ s s' ref, s.Missing ref → Repo.Grown s s' → R s s' →
    R s (Job.undoPull ref "binary" s')

namespace OperationFrame

variable {R : Repo → Repo → Prop} {removable : Reference → Prop} {containers : Containers}

theorem rollback_rel (h : OperationFrame R removable) {actions : List (Repo → Repo)}
    (hactions : ∀ f ∈ actions, ∀ s, R s (f s)) (s : Repo) : R s (rollback actions s) := by
  have : Std.Refl R := ⟨h.refl⟩
  have : IsTrans Repo R := ⟨fun _ _ _ => h.trans⟩
  exact rollback_within hactions s

/-! ## Section 3: `InstallRef` and `UninstallRef` -/

theorem clearReference_rel (h : OperationFrame R removable) (j : Job) (fuzzy : FuzzyReference) :
    R j.repo (j.clearReference fuzzy).1.repo := by
  rw [Job.clearReference_repo]
  exact h.remotes _ _

/-- The first half of `pullDependency` registers an undo action only for a
    runtime that was missing. -/
theorem pullRuntime_rel (h : OperationFrame R removable) (j : Job) (info : PackageInfoV2) :
    R j.repo (j.pullRuntime info "binary").1.repo ∧
      ∀ actions, (j.pullRuntime info "binary").2 = some actions →
        actions = [] ∨ ∃ s runtime, R j.repo s ∧ s.Missing runtime ∧
          R s (j.pullRuntime info "binary").1.repo ∧
          Repo.Grown s (j.pullRuntime info "binary").1.repo ∧
          actions = [Job.undoPull runtime "binary"] := by
  -- only the last branch has pulled something
  unfold Job.pullRuntime
  split
  · exact ⟨h.refl _, fun actions hactions => .inl (Option.some.inj hactions).symm⟩
  split
  · exact ⟨h.refl _, by simp⟩
  · next fuzzy _ =>
    have hclear := h.clearReference_rel j fuzzy
    split
    · next j₁ e heq =>
      rw [heq] at hclear
      exact ⟨hclear, by simp⟩
    · next j₁ runtime heq =>
      rw [heq] at hclear
      simp only
      split
      · exact ⟨hclear, fun actions hactions => .inl (Option.some.inj hactions).symm⟩
      · next e hmissing =>
        have hpull := h.pull j₁.repo runtime "binary"
        split
        · exact ⟨hclear, by simp⟩
        split
        · exact ⟨h.trans hclear hpull, by simp⟩
        · refine ⟨h.trans hclear hpull, fun actions hactions => .inr ?_⟩
          exact ⟨j₁.repo, runtime, hclear, ⟨e, hmissing⟩, hpull,
            j₁.repo.grown_pull runtime "binary", (Option.some.inj hactions).symm⟩

theorem pullBase_rel (h : OperationFrame R removable) (j : Job) (info : PackageInfoV2)
    (module : String) :
    R j.repo (j.pullBase info module).1.repo ∧
      Repo.Grown j.repo (j.pullBase info module).1.repo := by
  unfold Job.pullBase
  split
  · exact ⟨h.refl _, .refl _⟩
  · next fuzzy _ =>
    have hclear := h.clearReference_rel j fuzzy
    have hgrown := j.grown_clearReference fuzzy
    split
    · next j₁ e heq =>
      rw [heq] at hclear hgrown
      exact ⟨hclear, hgrown⟩
    · next j₁ base heq =>
      rw [heq] at hclear hgrown
      simp only
      split
      · exact ⟨hclear, hgrown⟩
      split
      · exact ⟨hclear, hgrown⟩
      · exact ⟨h.trans hclear (h.pull j₁.repo base module),
          hgrown.trans (j₁.repo.grown_pull base module)⟩

theorem pullDependency_rel (h : OperationFrame R removable) (j : Job) (info : PackageInfoV2) :
    R j.repo (j.pullDependency info "binary").repo := by
  unfold Job.pullDependency
  split
  · exact h.refl _
  split
  · exact h.refl _
  · obtain ⟨hruntime, hactions⟩ := h.pullRuntime_rel j info
    split
    · next j₁ heq =>
      rw [heq] at hruntime
      exact hruntime
    · next j₁ actions heq =>
      rw [heq] at hruntime hactions
      obtain ⟨hbase, hgrown⟩ := h.pullBase_rel j₁ info "binary"
      split
      · next j₂ hend =>
        rw [hend] at hbase
        exact h.trans hruntime hbase
      · next j₂ hend =>
        rw [hend] at hbase hgrown
        rcases hactions actions rfl with rfl | ⟨s, runtime, hs, hmissing, hpulled, hgrown', rfl⟩
        · exact h.trans hruntime hbase
        · exact h.trans hs (h.undoPull s j₂.repo runtime hmissing (hgrown'.trans hgrown)
            (h.trans hpulled hbase))

/-- The relation that the rounds of `InstallRef` keep: the job moves within
    `R`, and the undo actions stay within it as well. -/
def InstallingRel (R : Repo → Repo → Prop) (p p' : Job.Installing) : Prop :=
  R p.job.repo p'.job.repo ∧
    ((∀ f ∈ p.actions, ∀ s, R s (f s)) → ∀ f ∈ p'.actions, ∀ s, R s (f s))

theorem installingRel_refl (h : OperationFrame R removable) (p : Job.Installing) :
    InstallingRel R p p := ⟨h.refl _, id⟩

theorem installingRel_trans (h : OperationFrame R removable) (p₁ p₂ p₃ : Job.Installing)
    (h₁ : InstallingRel R p₁ p₂) (h₂ : InstallingRel R p₂ p₃) : InstallingRel R p₁ p₃ :=
  ⟨h.trans h₁.1 h₂.1, h₂.2 ∘ h₁.2⟩

/-- **Step**: a round of the first loop. -/
theorem unmarkRound_rel (h : OperationFrame R removable) (ref : Reference)
    (item : RepositoryCacheLayersItem) (p : Job.Installing) :
    InstallingRel R p (Job.unmarkRound ref item p) := by
  unfold Job.unmarkRound
  split
  · exact h.installingRel_refl p
  split
  · have hmark := h.markDeleted p.job.repo ref false item.info.packageInfoV2Module
    refine ⟨?_, fun hp f hf s => ?_⟩
    · show R p.job.repo (p.job.unmark ref item.info.packageInfoV2Module).repo
      unfold Job.unmark Job.perform
      cases hrun : Repo.markDeleted ref false item.info.packageInfoV2Module p.job.repo with
      | ok u s =>
        rw [after_of_ok hrun] at hmark
        exact hmark
      | error e s =>
        rw [after_of_error hrun] at hmark
        exact hmark
    · rcases List.mem_cons.1 hf with rfl | hf
      · exact h.markDeleted s ref true _
      · exact hp f hf s
  · exact h.installingRel_refl p

theorem dependencyRound_rel (h : OperationFrame R removable) (ref : Reference) (module : String)
    (p : Job.Installing) : InstallingRel R p (Job.dependencyRound ref module p) := by
  unfold Job.dependencyRound
  split
  · exact h.installingRel_refl p
  split
  · exact h.installingRel_refl p
  split
  · exact h.installingRel_refl p
  · exact ⟨h.pullDependency_rel p.job _, id⟩

/-- **Step**: a round of the second loop. -/
theorem pullRound_rel (h : OperationFrame R removable) {ref : Reference} (href : removable ref)
    (module : String) (p : Job.Installing) : InstallingRel R p (Job.pullRound ref module p) := by
  have hpull : R p.job.repo (p.job.pull ref module).repo := h.pull p.job.repo ref module
  unfold Job.pullRound
  split
  · exact h.installingRel_refl p
  split
  · exact ⟨hpull, id⟩
  · refine h.installingRel_trans _ _ _ ⟨hpull, fun hp f hf s => ?_⟩
      (h.dependencyRound_rel ref module _)
    rcases List.mem_cons.1 hf with rfl | hf
    · exact h.remove s ref module none href
    · exact hp f hf s

theorem installRef_rel (h : OperationFrame R removable) {ref : Reference} (href : removable ref)
    (j : Job) (modules : List String) : R j.repo (j.installRef ref modules).repo := by
  -- both loops, as one step from the start of the transaction
  have hloops : InstallingRel R ⟨j.beginInstall ref, modules, [], false⟩
      ((j.beginInstall ref).installLoops ref modules) := by
    have hunmark : InstallingRel R ⟨j.beginInstall ref, modules, [], false⟩
        (Job.unmarkLoop ref (Job.deletedList (j.beginInstall ref).repo ref)
          ⟨j.beginInstall ref, modules, [], false⟩) :=
      loopUntil_rel h.installingRel_refl h.installingRel_trans (h.unmarkRound_rel ref) _ _
    unfold Job.installLoops
    simp only
    split
    · exact hunmark
    · exact h.installingRel_trans _ _ _ hunmark
        (loopUntil_rel h.installingRel_refl h.installingRel_trans (h.pullRound_rel href) _ _)
  obtain ⟨hrepo, hactions⟩ := hloops
  have hstart : R j.repo ((j.beginInstall ref).installLoops ref modules).job.repo := by
    rw [← j.beginInstall_repo ref]
    exact hrepo
  unfold Job.installRef Job.Installing.finish
  split
  · exact h.trans hstart (h.rollback_rel (hactions (by simp)) _)
  · exact hstart

/-- Undoing a removal is a pull. -/
theorem push_undoRemove (h : OperationFrame R removable) (ref : Reference) (module : String)
    {actions : List (Repo → Repo)} (hactions : ∀ f ∈ actions, ∀ s, R s (f s)) :
    ∀ f ∈ Repo.undoRemove ref module :: actions, ∀ s, R s (f s) := by
  intro f hf s
  rcases List.mem_cons.1 hf with rfl | hf
  · exact h.pull s ref module
  · exact hactions f hf s

theorem uninstallLoop_rel (h : OperationFrame R removable) {ref : Reference}
    (href : removable ref) (modules : List String) :
    ∀ (actions : List (Repo → Repo)) (s : Repo), (∀ f ∈ actions, ∀ s, R s (f s)) →
      R s (Repo.uninstallLoop ref modules actions s).1 := by
  induction modules with
  | nil =>
    intro actions s _
    exact h.refl s
  | cons module modules ih =>
    intro actions s hactions
    have hremove := h.remove s ref module none href
    unfold Repo.uninstallLoop
    split
    · next hrun =>
      rw [after_of_error hrun] at hremove
      exact h.trans hremove (h.rollback_rel hactions _)
    · next hrun =>
      rw [after_of_ok hrun] at hremove
      exact h.trans hremove (ih _ _ (h.push_undoRemove ref module hactions))

theorem uninstallRef_rel (h : OperationFrame R removable) {ref : Reference}
    (href : removable ref) (j : Job) (modules : List String) :
    R j.repo (j.uninstallRef ref modules).repo := by
  have hloop := h.uninstallLoop_rel href modules [] j.repo (by simp)
  unfold Job.uninstallRef
  split
  · exact h.refl _
  · simp only [Job.call]
    split
    · next heq =>
      rw [heq] at hloop
      exact hloop
    · next heq =>
      rw [heq] at hloop
      exact hloop

/-- A reference that is not busy has to be removable, a busy one is only
    marked. -/
theorem removeAfterInstall_rel (h : OperationFrame R removable) {oldRef : Reference}
    (hfree : isRefBusy containers oldRef = .ok false →
      removable oldRef ∧ ∀ s, R s (after Repo.mergeModules s))
    (modules : List String) (s : Repo) :
    R s (Repo.removeAfterInstall containers oldRef modules s).1 := by
  have : Std.Refl R := ⟨h.refl⟩
  have : IsTrans Repo R := ⟨fun _ _ _ => h.trans⟩
  refine Repo.removeAfterInstall_within (fun deleted module s => h.markDeleted s _ deleted module)
    (fun hbusy => ?_) modules s
  obtain ⟨hold, hmerge⟩ := hfree hbusy
  exact ⟨fun module s => h.remove s oldRef module none hold, fun module s => h.pull s oldRef module,
    hmerge⟩

end OperationFrame

/-! ## Section 4: `Install`, `Uninstall` and `Update` -/

namespace Job

/-- The job of `Install` gets to `mergeModules`: it starts, and `InstallRef`
    does not end with a done task. -/
def InstallMerges (j : Job) (newRef : Reference) (modules : List String) : Prop :=
  j.isDone = false ∧
    ((j.call (.updateState .processing ("Installing " ++ newRef.toString) none)).installRef
      newRef modules).isDone = false

/-- The job of `Uninstall` gets to `mergeModules`. -/
def UninstallMerges (j : Job) (ref : Reference) (module : String) : Prop :=
  j.isDone = false ∧
    (((j.call (.updateState .processing "start to uninstalling package" none)).call
      (.updateSubState .preAction "prepare uninstalling package")).uninstallRef ref
        (if module = "binary" ∨ module = "runtime" then j.repo.getModuleList ref
          else [module])).isDone = false

/-- `Update` of one pair gets to `mergeModules`. It does not if the old
    version of an app is running. -/
def UpdateMerges (j : Job) (containers : Containers) (ref newRef : Reference) : Prop :=
  let installed := (j.call (.updateState .processing "start to uninstalling package" none)).installRef
    newRef (j.repo.getModuleList ref)
  installed.isDone = false ∧
    ∃ item, installed.repo.getLayerItem newRef "binary" none = .ok item ∧
      (item.info.kind = "app" → isRefBusy containers ref = .ok false)

/-- One of the rounds of `Update` gets to `mergeModules`. -/
def UpdateLoopMerges (j : Job) (containers : Containers) : List (Reference × Reference) → Prop
  | [] => False
  | (ref, newRef) :: rest =>
      j.UpdateMerges containers ref newRef ∨
        (j.update containers ref newRef).UpdateLoopMerges containers rest

end Job

namespace OperationFrame

variable {R : Repo → Repo → Prop} {removable : Reference → Prop} {containers : Containers}

theorem afterInstall_rel (h : OperationFrame R removable)
    (hmerge : ∀ s, R s (after Repo.mergeModules s)) {oldRef : Option Reference}
    (hfree : ∀ old ∈ oldRef, isRefBusy containers old = .ok false → removable old)
    (j : Job) (newRef : Reference) :
    R j.repo (j.afterInstall containers newRef oldRef).1.repo := by
  have hmerged : R j.repo (after Repo.mergeModules j.repo) := hmerge j.repo
  unfold Job.afterInstall
  simp only [Job.call]
  split
  · exact hmerged
  split
  · next old _ =>
    have hold := h.removeAfterInstall_rel
      (fun hbusy => ⟨hfree old rfl hbusy, hmerge⟩)
      ((after Repo.mergeModules j.repo).getModuleList old) (after Repo.mergeModules j.repo)
    split
    · next heq =>
      rw [heq] at hold
      exact h.trans hmerged hold
    · next heq =>
      rw [heq] at hold
      exact h.trans hmerged hold
  · exact hmerged

theorem installJob_rel (h : OperationFrame R removable) {newRef : Reference}
    (hnew : removable newRef) {oldRef : Option Reference}
    (hfree : ∀ old ∈ oldRef, isRefBusy containers old = .ok false → removable old)
    (j : Job) (modules : List String)
    (hmerge : j.InstallMerges newRef modules → ∀ s, R s (after Repo.mergeModules s)) :
    R j.repo (j.installJob containers newRef oldRef modules).repo := by
  have hinstall := h.installRef_rel hnew
    (j.call (.updateState .processing ("Installing " ++ newRef.toString) none)) modules
  unfold Job.installJob Job.install
  split
  · exact h.refl _
  · next hstart =>
    simp only
    split
    · exact hinstall
    · next hdone =>
      have hmerge' := hmerge ⟨eq_false_of_ne_true hstart, eq_false_of_ne_true hdone⟩
      have hrest := h.afterInstall_rel hmerge' hfree
        ((j.call (.updateState .processing ("Installing " ++ newRef.toString) none)).installRef
          newRef modules) newRef
      split
      · next j₁ heq =>
        rw [heq] at hrest
        exact h.trans hinstall hrest
      · next j₁ heq =>
        -- the undo action of `Install`
        rw [heq] at hrest
        exact h.trans (h.trans hinstall hrest)
          (h.uninstallRef_rel hnew ⟨j₁.repo, .createTemporaryTask "temporary"⟩ modules)

theorem uninstall_rel (h : OperationFrame R removable) {ref : Reference} (href : removable ref)
    (j : Job) (module : String)
    (hmerge : j.UninstallMerges ref module → ∀ s, R s (after Repo.mergeModules s)) :
    R j.repo (j.uninstall ref module).repo := by
  unfold Job.uninstall
  split
  · exact h.refl _
  · next hstart =>
    simp only
    generalize hmodules : (if module = "binary" ∨ module = "runtime" then _ else _) = modules
    have hremove := h.uninstallRef_rel href
      ((j.call (.updateState .processing "start to uninstalling package" none)).call
        (.updateSubState .preAction "prepare uninstalling package")) modules
    split
    · exact hremove
    · next hdone =>
      subst hmodules
      exact h.trans hremove (hmerge ⟨eq_false_of_ne_true hstart, eq_false_of_ne_true hdone⟩ _)

theorem update_rel (h : OperationFrame R removable) {ref newRef : Reference}
    (hnew : removable newRef) (hfree : isRefBusy containers ref = .ok false → removable ref)
    (j : Job)
    (hmerge : j.UpdateMerges containers ref newRef → ∀ s, R s (after Repo.mergeModules s)) :
    R j.repo (j.update containers ref newRef).repo := by
  have hinstall := h.installRef_rel hnew
    (j.call (.updateState .processing "start to uninstalling package" none))
    (j.repo.getModuleList ref)
  unfold Job.update
  simp only
  split
  · exact hinstall
  · next hdone =>
    refine h.trans hinstall ?_
    unfold Job.afterUpdate
    simp only
    split
    · exact h.refl _
    · next item hitem =>
      have hmerge' : (item.info.kind = "app" → isRefBusy containers ref = .ok false) →
          ∀ s, R s (after Repo.mergeModules s) := fun hkind =>
        hmerge ⟨eq_false_of_ne_true hdone, item, hitem, hkind⟩
      split
      · exact h.removeAfterInstall_rel (fun hbusy => ⟨hfree hbusy, hmerge' fun _ => hbusy⟩) _ _
      · next hkind => exact hmerge' (fun happ => absurd happ hkind) _

/-- **Run**: the loop over the pairs. -/
theorem updateLoop_rel (h : OperationFrame R removable)
    (upgradeList : List (Reference × Reference)) :
    ∀ j : Job, (∀ pair ∈ upgradeList, removable pair.2 ∧
        (isRefBusy containers pair.1 = .ok false → removable pair.1)) →
      (j.UpdateLoopMerges containers upgradeList → ∀ s, R s (after Repo.mergeModules s)) →
      R j.repo (j.updateLoop containers upgradeList).repo := by
  induction upgradeList with
  | nil =>
    intro j _ _
    exact h.refl _
  | cons pair rest ih =>
    obtain ⟨ref, newRef⟩ := pair
    intro j hpairs hmerge
    obtain ⟨hnew, hfree⟩ := hpairs (ref, newRef) (by simp)
    refine h.trans (h.update_rel hnew hfree j fun hcase => hmerge (.inl hcase)) ?_
    exact ih _ (fun p hp => hpairs p (by simp [hp])) fun hcase => hmerge (.inr hcase)

theorem updateJob_rel (h : OperationFrame R removable) (j : Job)
    {upgradeList : List (Reference × Reference)}
    (hpairs : ∀ pair ∈ upgradeList, removable pair.2 ∧
      (isRefBusy containers pair.1 = .ok false → removable pair.1))
    (hmerge : j.isDone = false → j.UpdateLoopMerges containers upgradeList →
      ∀ s, R s (after Repo.mergeModules s)) :
    R j.repo (j.updateJob containers upgradeList).repo := by
  unfold Job.updateJob
  split
  · exact h.refl _
  · next hdone => exact h.updateLoop_rel upgradeList j hpairs (hmerge (eq_false_of_ne_true hdone))

end OperationFrame

/-! ## Section 5: `Prune` and `deferredUninstall` -/

namespace RemovalFrame

variable {R : Repo → Repo → Prop} {removable : Reference → Prop}

theorem pruneModules_rel (h : RemovalFrame R removable) {ref : Reference}
    (href : removable ref) (modules : List String) :
    ∀ s : Repo, R s (Repo.pruneModules ref modules s).1 := by
  induction modules with
  | nil => exact h.refl
  | cons module modules ih =>
    intro s
    have hremove := h.remove s ref module none href
    unfold Repo.pruneModules
    split
    · exact ih s
    split
    · exact ih s
    split
    · next hrun =>
      rw [after_of_error hrun] at hremove
      exact hremove
    · next hrun =>
      rw [after_of_ok hrun] at hremove
      exact h.trans hremove (ih _)

theorem pruneRefs_rel (h : RemovalFrame R removable) (targets : List (Reference × Nat))
    (htargets : ∀ ref, (ref, 0) ∈ targets → removable ref) :
    ∀ s : Repo, R s (Repo.pruneRefs targets s).1 := by
  induction targets with
  | nil => exact h.refl
  | cons e targets ih =>
    obtain ⟨ref, count⟩ := e
    intro s
    have hrest := ih fun r hr => htargets r (by simp [hr])
    unfold Repo.pruneRefs
    split
    · exact hrest s
    · next hcount =>
      have href : removable ref := htargets ref (by simp [not_not.1 hcount])
      have hmodules := h.pruneModules_rel href (s.getModuleList ref) s
      split
      · next heq =>
        rw [heq] at hmodules
        exact hmodules
      · next heq =>
        rw [heq] at hmodules
        exact h.trans hmodules (hrest _)

/-- `Prune` merges if it had something to look at and no removal failed. -/
theorem prune_rel (h : RemovalFrame R removable) {s : Repo}
    (htargets : ∀ ref, (ref, 0) ∈ s.pruneTarget → removable ref)
    (hmerge : s.pruneTarget ≠ [] → s.prune.2.2 = .ok () →
      ∀ s, R s (after Repo.mergeModules s)) : R s s.prune.1 := by
  have hrefs := h.pruneRefs_rel (s.outside.map.refs s.pruneTarget)
    (fun ref href => htargets ref ((s.outside.map.refs_perm _).mem_iff.1 href)) s
  unfold Repo.prune at hmerge ⊢
  split
  · next heq =>
    rw [heq] at hrefs
    exact hrefs
  · next s' removed _ heq =>
    rw [heq] at hrefs hmerge
    split
    · exact hrefs
    · next htarget =>
      have hpop := h.popFault s' .pruneObjects
      rcases Repo.fallible_cases .pruneObjects "ostree_repo_prune" s' with ⟨hrun, -⟩ | ⟨hrun, -⟩
      · rw [hrun]
        have hmerge' := hmerge htarget (by simp only [if_neg htarget, hrun])
        exact h.trans hrefs (h.trans hpop (hmerge' _))
      · rw [hrun]
        exact h.trans hrefs hpop

theorem uninstallGroup_rel (h : RemovalFrame R removable)
    (hmerge : ∀ s, R s (after Repo.mergeModules s)) {ref : Reference} (href : removable ref)
    (items : List RepositoryCacheLayersItem) (s : Repo) :
    R s (Repo.uninstallGroup ref items s) := by
  have hloop : ∀ s₁ : Repo, R s₁ (items.foldl (fun s item =>
      after (Repo.remove ref item.info.packageInfoV2Module item.info.uuid) s) s₁) := by
    induction items with
    | nil => exact h.refl
    | cons item items ih =>
      intro s₁
      exact h.trans (h.remove s₁ ref _ _ href) (ih _)
  exact h.trans (hloop s) (hmerge _)

theorem uninstallGroups_rel (h : RemovalFrame R removable)
    (groups : List (String × List RepositoryCacheLayersItem))
    (hmerge : ∀ group ∈ groups.head?, ∀ ref, Reference.parse group.1 = .ok ref →
      ∀ s, R s (after Repo.mergeModules s))
    (hgroups : ∀ group ∈ groups, ∀ ref, Reference.parse group.1 = .ok ref → removable ref) :
    ∀ s : Repo, R s (Repo.uninstallGroups groups s) := by
  induction groups with
  | nil => exact h.refl
  | cons group groups ih =>
    obtain ⟨text, items⟩ := group
    intro s
    unfold Repo.uninstallGroups
    split
    · exact h.refl s
    · next ref href =>
      have hmerge' := hmerge (text, items) (by simp) ref href
      have hfirst := h.uninstallGroup_rel hmerge' (hgroups (text, items) (by simp) ref href) items s
      exact h.trans hfirst (ih (fun _ _ _ _ => hmerge') (fun g hg => hgroups g (by simp [hg])) _)

end RemovalFrame

namespace Repo

/-- The groups that `deferredUninstall` removes. -/
def removableGroups (containers : Containers) (s : Repo) :
    List (String × List RepositoryCacheLayersItem) :=
  match deletedGroups (s.queryLayerItem { deleted := some true }) [], containers with
  | .ok groups, .ok running => groups.filter fun g => !running.contains g.1
  | _, _ => []

theorem deferredUninstall_eq (containers : Containers) (s : Repo) :
    s.deferredUninstall containers =
      uninstallGroups (s.outside.map.groups (s.removableGroups containers)) s := by
  have hnil : s.outside.map.groups [] = [] := (s.outside.map.groups_perm []).eq_nil
  unfold deferredUninstall removableGroups
  cases deletedGroups (s.queryLayerItem { deleted := some true }) [] with
  | error e =>
    simp only [hnil]
    rfl
  | ok groups =>
    cases containers with
    | error e =>
      simp only [hnil]
      rfl
    | ok running => rfl

/-- One more item needs a reference, and goes into the group of its text. -/
theorem deletedGroups_cons_eq_ok_iff {item : RepositoryCacheLayersItem}
    {items : List RepositoryCacheLayersItem}
    {groups result : List (String × List RepositoryCacheLayersItem)} :
    deletedGroups (item :: items) groups = .ok result ↔
      ∃ ref, Reference.fromPackageInfo item.info = .ok ref ∧
        deletedGroups items (addToGroup groups ref.toString item) = .ok result :=
  bind_eq_ok_iff

/-- Adding to a group adds at most its text. -/
theorem mem_addToGroup {groups : List (String × List RepositoryCacheLayersItem)}
    {ref text : String} {item : RepositoryCacheLayersItem}
    (h : text ∈ (addToGroup groups ref item).map Prod.fst) :
    text ∈ groups.map Prod.fst ∨ ref = text := by
  induction groups with
  | nil => exact .inr (by simpa [addToGroup, eq_comm] using h)
  | cons group groups ih =>
    obtain ⟨r, rs⟩ := group
    unfold addToGroup at h
    split at h
    · exact .inl h
    · rcases List.mem_cons.1 h with rfl | hmem
      · exact .inl (by simp)
      · rcases ih hmem with hmem | href
        · exact .inl (List.mem_cons_of_mem _ hmem)
        · exact .inr href

/-- The text of every group is that of a layer that is marked deleted. -/
theorem mem_deletedGroups {items : List RepositoryCacheLayersItem}
    {groups result : List (String × List RepositoryCacheLayersItem)}
    (h : deletedGroups items groups = .ok result) {text : String}
    (htext : text ∈ result.map Prod.fst) :
    text ∈ groups.map Prod.fst ∨
      ∃ item ∈ items, ∃ ref, Reference.fromPackageInfo item.info = .ok ref ∧
        ref.toString = text := by
  induction items generalizing groups with
  | nil =>
    cases h
    exact .inl htext
  | cons item items ih =>
    obtain ⟨ref, href, hrest⟩ := deletedGroups_cons_eq_ok_iff.1 h
    rcases ih hrest with hmem | ⟨b, hb, hb'⟩
    · rcases mem_addToGroup hmem with hmem | htext'
      · exact .inl hmem
      · exact .inr ⟨item, by simp, ref, href, htext'⟩
    · exact .inr ⟨b, by simp [hb], hb'⟩

theorem mem_removableGroups {containers : Containers} {s : Repo}
    {group : String × List RepositoryCacheLayersItem}
    (h : group ∈ s.removableGroups containers) :
    (∀ running, containers = .ok running → group.1 ∉ running) ∧
      ∃ item ∈ s.layers, item.isDeleted = true ∧
        ∃ ref, Reference.fromPackageInfo item.info = .ok ref ∧ ref.toString = group.1 := by
  unfold removableGroups at h
  split at h
  · next groups running hgroups =>
    obtain ⟨hmem, hfree⟩ := List.mem_filter.1 h
    refine ⟨?_, ?_⟩
    · intro running' heq
      cases heq
      simpa using hfree
    · rcases mem_deletedGroups hgroups (List.mem_map_of_mem hmem) with hnil | ⟨item, hitem, hitem'⟩
      · simp at hnil
      · obtain ⟨hitem, hacc⟩ := mem_queryItems.1 hitem
        refine ⟨item, hitem, ?_, hitem'⟩
        simp only [RepoCacheQuery.accepts, Option.all_some, Option.all_none, Bool.true_and,
          Bool.and_true, beq_iff_eq] at hacc
        rw [isDeleted, hacc]
        rfl
  · simp at h

end Repo

theorem RemovalFrame.deferredUninstall_rel {R : Repo → Repo → Prop}
    {removable : Reference → Prop} {containers : Containers} (h : RemovalFrame R removable)
    {s : Repo}
    (hmerge : ∀ group ∈ (s.outside.map.groups (s.removableGroups containers)).head?,
      ∀ ref, Reference.parse group.1 = .ok ref → ∀ s, R s (after Repo.mergeModules s))
    (hgroups : ∀ group ∈ s.removableGroups containers, ∀ ref,
      Reference.parse group.1 = .ok ref → removable ref) :
    R s (s.deferredUninstall containers) := by
  have hperm := s.outside.map.groups_perm (s.removableGroups containers)
  rw [Repo.deferredUninstall_eq]
  exact h.uninstallGroups_rel _ hmerge (fun g hg => hgroups g (hperm.mem_iff.1 hg)) s

end Linglong
