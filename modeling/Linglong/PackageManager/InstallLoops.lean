import Linglong.PackageManager.InstallUndo
import Linglong.PackageManager.UpdateJob
import Linglong.PackageManager.Frame

/-! # The Loops of `InstallRef`

    `InstallRef` unmarks the layers of its reference that are marked
    deleted, and pulls the modules that are missing. After each step it
    registers an undo action. This module has the invariants of the two
    loops (`Progress`): which layers have been unmarked and added, and which
    undo actions are registered for them.

    1. What is asked for, and what has been done.
    2. Rounds of the first loop.
    3. Dependencies.
    4. Rounds of the second loop.
-/

namespace Linglong

open Framework RepositoryCacheLayersItem

namespace Job

/-! ## Section 1: Requested modules and progress -/

/-- The layers that the first loop unmarks: each takes one of the requested
    modules. -/
def wanted : List RepositoryCacheLayersItem → List String → List RepositoryCacheLayersItem
  | [], _ => []
  | item :: items, modules =>
      if modules.any (sameModule item.info.packageInfoV2Module) then
        item :: wanted items (modules.eraseP (sameModule item.info.packageInfoV2Module))
      else wanted items modules

/-- The modules that the first loop leaves to be pulled. -/
def leftover (items : List RepositoryCacheLayersItem) (modules : List String) : List String :=
  items.foldl (fun modules item => modules.eraseP (sameModule item.info.packageInfoV2Module))
    modules

theorem eraseP_of_not_any {p : String → Bool} {modules : List String}
    (h : ¬ modules.any p = true) : modules.eraseP p = modules :=
  List.eraseP_of_forall_not fun m hm hp => h (List.any_eq_true.2 ⟨m, hm, hp⟩)

theorem wanted_append (items rest : List RepositoryCacheLayersItem) (modules : List String) :
    wanted (items ++ rest) modules = wanted items modules ++ wanted rest (leftover items modules) := by
  induction items generalizing modules with
  | nil => rfl
  | cons item items ih =>
    unfold leftover at ih ⊢
    simp only [List.cons_append, wanted, List.foldl_cons]
    split
    · rw [ih, List.cons_append]
    · next hany => rw [ih, eraseP_of_not_any hany]

theorem leftover_append (items rest : List RepositoryCacheLayersItem) (modules : List String) :
    leftover (items ++ rest) modules = leftover rest (leftover items modules) :=
  List.foldl_append

/-- The names under which undo actions know the unmarked layers. -/
def askedFor (items : List RepositoryCacheLayersItem) (modules : List String) : List String :=
  ((wanted items modules).map fun item => item.info.packageInfoV2Module).reverse

theorem askedFor_concat (items : List RepositoryCacheLayersItem) (item : RepositoryCacheLayersItem)
    (modules : List String) : askedFor (items ++ [item]) modules =
      if (leftover items modules).any (sameModule item.info.packageInfoV2Module) then
        item.info.packageInfoV2Module :: askedFor items modules
      else askedFor items modules := by
  have hlast : wanted [item] (leftover items modules) =
      if (leftover items modules).any (sameModule item.info.packageInfoV2Module) then [item]
      else [] := rfl
  unfold askedFor
  rw [wanted_append, hlast]
  split <;> simp

/-- How far `InstallRef` has come from the layers `old`: those with one of
    the `names` are unmarked, and `new` were added. The undo actions are for
    the modules it asked to unmark and for those it pulled. -/
structure Progress (ref : Reference) (old : List RepositoryCacheLayersItem)
    (asked names pulled : List String) (new : List RepositoryCacheLayersItem)
    (p : Installing) : Prop where
  honest : p.job.repo.Honest
  honestArch : p.job.repo.HonestArch
  view : p.job.repo.view ref = setMarks names none old ++ new
  actions : p.actions = pulled.map (undoPull ref) ++ asked.map (undoUnmark ref)
  names : names ⊆ foundNames old asked
  modules : (new.map moduleName).Perm (pulled.map normModule)
  isNew : ∀ b ∈ new, isNew ref old b = true
  refs : ∀ b ∈ new,
    (p.job.repo.resolveRefspec (Repo.ostreeRefSpecFromLayerItem b)).isSome = true

section Progress

variable {ref : Reference} {old new : List RepositoryCacheLayersItem}
  {asked names pulled : List String} {p : Installing}

/-- A change beside the layers of the reference. -/
theorem Progress.aside (h : Progress ref old asked names pulled new p) {q : Installing}
    (hactions : q.actions = p.actions) (haside : Repo.Aside ref p.job.repo q.job.repo)
    (hlayers : ∀ b ∈ new, b.isLayerOf ref = true) : Progress ref old asked names pulled new q where
  honest := haside.honest h.honest
  honestArch := haside.honestArch h.honestArch
  view := haside.view.trans h.view
  actions := hactions.trans h.actions
  names := h.names
  modules := h.modules
  isNew := h.isNew
  refs := fun b hb => haside.refs _ (Repo.isRefOf_layer.2 (hlayers b hb)) (h.refs b hb)

/-- The added layers are layers of the reference. -/
theorem Progress.isLayerOf (h : Progress ref old asked names pulled new p) :
    ∀ b ∈ new, b.isLayerOf ref = true := by
  intro b hb
  have hmem : b ∈ p.job.repo.view ref := by
    rw [h.view]
    exact List.mem_append_right _ hb
  exact (mem_layersOf.1 hmem).2

/-- An added layer is there at the end if nothing is undone. -/
theorem Progress.count_pos (h : Progress ref old asked names pulled new p) (hnew : new ≠ []) :
    0 < (p.job.repo.view ref).countP (Job.isNew ref old) := by
  rw [h.view, List.countP_append, List.countP_eq_length.2 h.isNew]
  have hlength := List.length_pos_of_ne_nil hnew
  omega

/-- A `return` with working undo actions brings the layers back iff the
    actions find them. -/
theorem Progress.finish_iff (h : Progress ref old asked names pulled new p)
    (hreturned : p.returned = true) (hwrite : p.job.repo.NoFaults .writeCache)
    (hset : p.job.repo.NoFaults .setRef) :
    ownLayers ref (p.finish.repo.view ref) = ownLayers ref old ↔
      Separate old new ∧ ∀ item ∈ old, item.arch = ref.arch.toString →
        item.info.packageInfoV2Module ∈ foundNames old asked → item.deleted = some true := by
  unfold Installing.finish
  rw [if_pos hreturned, h.actions]
  exact ownLayers_rollback_iff h.view h.names h.modules h.isNew h.refs hwrite hset

end Progress

/-! ## Section 2: Rounds of the first loop -/

theorem isDone_fail (j : Job) (message : String) : (j.fail message).isDone = true := by
  have hterminal : (j.task.stateAfter .failed).isTerminal = true := by
    unfold PackageTask.stateAfter
    split <;> rfl
  simp [fail, call, isDone, PackageTask.apply, PackageTask.updateState_subState, hterminal,
    isTaskDone]

/-- Unmarking the layer that a module stands for: it works and the task is
    not told, or nothing changes and the task has failed. -/
theorem unmark_cases (ref : Reference) (module : String) (j : Job) :
    ((j.unmark ref module).repo.Honest ↔ j.repo.Honest) ∧
    ((j.unmark ref module).repo.HonestArch ↔ j.repo.HonestArch) ∧
    ((∃ item, findLayer (j.repo.view ref) (normModule module) = some item ∧
        (j.unmark ref module).repo.view ref =
          setMarks [item.info.packageInfoV2Module] none (j.repo.view ref) ∧
        (j.unmark ref module).isDone = j.isDone ∧
        ∀ e, (j.perform (Repo.markDeleted ref false module)).2 ≠ .error e) ∨
      (j.unmark ref module).repo.view ref = j.repo.view ref ∧
        (j.unmark ref module).isDone = true ∧
        ∃ e, (j.perform (Repo.markDeleted ref false module)).2 = .error e) := by
  unfold unmark perform
  rcases Repo.markDeleted_cases ref false module j.repo with
    ⟨e, faults, -, hrun, -⟩ | ⟨item, faults, -, hitem, hrun⟩
  · rw [hrun]
    refine ⟨⟨?_, ?_⟩, ⟨?_, ?_⟩, .inr ⟨rfl, isDone_fail _ _, e, rfl⟩⟩
    all_goals exact fun h => h.mono rfl (List.Subset.refl _) (List.Subset.refl _)
  · have hfound := Repo.getLayerItem_eq_ok_iff.1 hitem
    have hview := layersOf_setDeletedFirst_only (withModule_of_findLayer hfound) none
    rw [hrun]
    refine ⟨⟨?_, ?_⟩, ⟨?_, ?_⟩, .inl ⟨item, hfound, hview, rfl, by simp⟩⟩
    all_goals exact fun h => h.mono rfl (List.Subset.refl _) (List.Subset.refl _)

/-- The state after the rounds of the first loop for `items`, from the
    request of `modules`. -/
structure Unmarking (ref : Reference) (old : List RepositoryCacheLayersItem)
    (modules : List String) (items : List RepositoryCacheLayersItem) (names : List String)
    (p : Installing) : Prop where
  returned : p.returned = false
  progress : Progress ref old (askedFor items modules) names [] [] p
  leftover : p.modules = leftover items modules
  /-- As long as the task is not done, each layer that was found is unmarked. -/
  all : p.job.isDone = false → foundNames old (askedFor items modules) ⊆ names

section UnmarkStep

variable {ref : Reference} {modules names : List String}
  {old items : List RepositoryCacheLayersItem} {item : RepositoryCacheLayersItem}
  {p : Installing}

/-- A round for a layer that was asked for, when the task is not done. -/
theorem unmarkRound_eq (hdone : p.job.isDone = false)
    (hany : p.modules.any (sameModule item.info.packageInfoV2Module) = true) :
    unmarkRound ref item p = { p with
      job := p.job.unmark ref item.info.packageInfoV2Module
      modules := p.modules.eraseP (sameModule item.info.packageInfoV2Module)
      actions := undoUnmark ref item.info.packageInfoV2Module :: p.actions } := by
  unfold unmarkRound
  rw [hdone, if_neg (by decide), if_pos hany]

/-- **Step**: a round of the first loop that does not return. -/
theorem Unmarking.step (h : Unmarking ref old modules items names p)
    (hround : (unmarkRound ref item p).returned = false) :
    ∃ names', Unmarking ref old modules (items ++ [item]) names' (unmarkRound ref item p) := by
  have hdone : p.job.isDone = false := by
    by_contra hdone
    rw [unmarkRound, if_pos (by simpa using hdone)] at hround
    cases hround
  by_cases hany : p.modules.any (sameModule item.info.packageInfoV2Module) = true
  · have hasked : askedFor (items ++ [item]) modules =
        item.info.packageInfoV2Module :: askedFor items modules := by
      rw [askedFor_concat, ← h.leftover, if_pos hany]
    have hnames : foundNames old (askedFor (items ++ [item]) modules) =
        foundNames old [item.info.packageInfoV2Module] ++
          foundNames old (askedFor items modules) := by
      rw [hasked]
      exact foundNames_append old [item.info.packageInfoV2Module] _
    have hleft : p.modules.eraseP (sameModule item.info.packageInfoV2Module) =
        Job.leftover (items ++ [item]) modules := by
      rw [leftover_append, ← h.leftover]
      rfl
    have hactions : undoUnmark ref item.info.packageInfoV2Module :: p.actions =
        (askedFor (items ++ [item]) modules).map (undoUnmark ref) := by
      rw [hasked, h.progress.actions]
      rfl
    obtain ⟨hhonest, harch, hcases⟩ :=
      unmark_cases ref item.info.packageInfoV2Module p.job
    have hview : p.job.repo.view ref = setMarks names none old := by
      rw [h.progress.view, List.append_nil]
    rw [unmarkRound_eq hdone hany]
    rcases hcases with ⟨found, hfound, hmarked, hsame, -⟩ | ⟨hmarked, hfailed, -⟩
    · -- one more name is unmarked
      rw [hview, findLayer_setMarks] at hfound
      obtain ⟨layer, hlayer, rfl⟩ := Option.map_eq_some_iff.1 hfound
      have hname : foundNames old [item.info.packageInfoV2Module] =
          [layer.info.packageInfoV2Module] := by simp [foundNames, hlayer]
      rw [hview, setMark_info, setMarks_same] at hmarked
      refine ⟨layer.info.packageInfoV2Module :: names, h.returned, ⟨hhonest.2 h.progress.honest,
        harch.2 h.progress.honestArch, ?_, hactions, ?_, .refl _, by simp, by simp⟩, hleft, ?_⟩
      · rw [List.append_nil]
        exact hmarked
      · rw [hnames, hname]
        exact List.cons_subset_cons _ h.progress.names
      · intro _
        rw [hnames, hname]
        exact List.cons_subset_cons _ (h.all hdone)
    · -- the marks are as before, and the task is done
      refine ⟨names, h.returned, ⟨hhonest.2 h.progress.honest, harch.2 h.progress.honestArch, ?_,
        hactions, ?_, .refl _, by simp, by simp⟩, hleft, ?_⟩
      · exact hmarked.trans h.progress.view
      · rw [hnames]
        exact List.Subset.trans h.progress.names (List.subset_append_right _ _)
      · intro hnot
        rw [hfailed] at hnot
        cases hnot
  · -- a layer that was not asked for is left to itself
    have hasked : askedFor (items ++ [item]) modules = askedFor items modules := by
      rw [askedFor_concat, ← h.leftover, if_neg hany]
    have hleft : Job.leftover (items ++ [item]) modules = p.modules := by
      rw [leftover_append, ← h.leftover]
      exact eraseP_of_not_any hany
    have heq : unmarkRound ref item p = p := by
      unfold unmarkRound
      rw [hdone, if_neg (by decide), if_neg hany]
    rw [heq]
    refine ⟨names, h.returned, ?_, hleft.symm, ?_⟩
    · rw [hasked]
      exact h.progress
    · rw [hasked]
      exact h.all

/-- A round after which the task is done could not unmark its layer. -/
theorem error_of_unmarkRound_done (hround : (unmarkRound ref item p).returned = false)
    (hfailed : (unmarkRound ref item p).job.isDone = true) :
    p.job.isDone = false ∧
      p.modules.any (sameModule item.info.packageInfoV2Module) = true ∧
      ∃ e, (p.job.perform (Repo.markDeleted ref false item.info.packageInfoV2Module)).2 =
        .error e := by
  unfold unmarkRound at hround hfailed
  by_cases hdone : p.job.isDone = true
  · rw [if_pos hdone] at hround
    cases hround
  have hdone' : p.job.isDone = false := by simpa using hdone
  rw [if_neg hdone] at hfailed
  by_cases hany : p.modules.any (sameModule item.info.packageInfoV2Module) = true
  · rw [if_pos hany] at hfailed
    obtain ⟨-, -, ⟨_, -, -, hsame, -⟩ | ⟨-, -, herror⟩⟩ :=
      unmark_cases ref item.info.packageInfoV2Module p.job
    · exact absurd (hsame.symm.trans hfailed) (by rw [hdone']; decide)
    · exact ⟨hdone', hany, herror⟩
  · rw [if_neg hany] at hfailed
    exact absurd hfailed hdone

/-- A round that cannot unmark its layer tells the task and goes on. -/
theorem unmarkRound_of_error (hdone : p.job.isDone = false)
    (hany : p.modules.any (sameModule item.info.packageInfoV2Module) = true) {e : String}
    (herror : (p.job.perform (Repo.markDeleted ref false item.info.packageInfoV2Module)).2 =
      .error e) :
    (unmarkRound ref item p).returned = p.returned ∧
      (unmarkRound ref item p).job.isDone = true ∧
      (unmarkRound ref item p).job.repo.view ref = p.job.repo.view ref := by
  rw [unmarkRound_eq hdone hany]
  obtain ⟨-, -, ⟨_, -, -, -, hok⟩ | ⟨hview, hfailed, -⟩⟩ :=
    unmark_cases ref item.info.packageInfoV2Module p.job
  · exact absurd herror (hok e)
  · exact ⟨rfl, hfailed, hview⟩

end UnmarkStep

/-! ## Section 3: Dependencies -/

/-- The layer of the reference that its dependencies are read from. -/
def HasBinary (ref : Reference) (s : Repo) : Prop :=
  ∃ dir, s.getLayerDir ref "binary" none = .ok dir

/-- A dependency that has the layers of the reference itself is there. -/
theorem HasBinary.sameLayers {ref ref' : Reference} {s : Repo} (h : HasBinary ref s)
    (hsame : Repo.SameLayers ref' ref) : HasBinary ref' s := by
  obtain ⟨dir, hdir⟩ := h
  obtain ⟨layer, hlayer, hlookup⟩ := Repo.getLayerDir_ok_iff.1 hdir
  have hview : s.view ref' = s.view ref :=
    List.filter_congr fun item _ => hsame.isLayerOf item
  have hlayer' : s.getLayerItem ref' "binary" none = .ok layer :=
    Repo.getLayerItem_of_view rfl hview hlayer
  exact ⟨dir, Repo.getLayerDir_ok_iff.2 ⟨layer, hlayer', hlookup⟩⟩

/-- A pull of another reference keeps the layer. -/
theorem HasBinary.pull {ref ref' : Reference} {s : Repo} (h : HasBinary ref s)
    (hhonest : s.Honest) (hother : ¬ Repo.SameLayers ref' ref) (module : String) :
    HasBinary ref (s.pull ref' module).1 := by
  obtain ⟨dir, hdir⟩ := h
  obtain ⟨layer, hlayer, hlookup⟩ := Repo.getLayerDir_ok_iff.1 hdir
  have haside := Repo.aside_pull hother hhonest module
  refine ⟨dir, Repo.getLayerDir_ok_iff.2 ⟨layer, ?_, ?_⟩⟩
  · exact Repo.getLayerItem_of_view haside.outside haside.view hlayer
  · rw [(s.pull_spec ref' module).frame.dirs layer.commit (by simp [hlookup])]
    exact hlookup

/-- What holds of the reference while its dependencies are pulled. -/
structure Beside (ref : Reference) (s s' : Repo) : Prop where
  aside : Repo.Aside ref s s'
  binary : HasBinary ref s'
  honest : s'.Honest

section Dependencies

variable {ref : Reference} {s : Repo}

theorem Beside.clearReference {j : Job} (h : Beside ref s j.repo) (fuzzy : FuzzyReference) :
    Beside ref s (j.clearReference fuzzy).1.repo := by
  rw [clearReference_repo]
  obtain ⟨dir, hdir⟩ := h.binary
  have hhonest : Repo.Honest { j.repo with
      remotes := (j.clearReference fuzzy).1.repo.remotes } :=
    h.honest.mono rfl (List.Subset.refl _) (List.Subset.refl _)
  have harch : s.HonestArch → Repo.HonestArch { j.repo with
      remotes := (j.clearReference fuzzy).1.repo.remotes } := fun harch =>
    (h.aside.honestArch harch).mono rfl (List.Subset.refl _) (List.Subset.refl _)
  exact ⟨⟨h.aside.outside, fun _ => hhonest, harch, h.aside.refs, h.aside.view⟩, ⟨dir, hdir⟩,
    hhonest⟩

/-- A dependency that is pulled because it is not there is another
    reference. -/
theorem Beside.pull {j : Job} (h : Beside ref s j.repo) {dep : Reference} {e : String}
    (hmissing : j.repo.getLayerDir dep "binary" none = .error e) (module : String) :
    ¬ Repo.SameLayers dep ref ∧ Beside ref s (j.pull dep module).repo := by
  have hother : ¬ Repo.SameLayers dep ref := by
    intro hsame
    obtain ⟨dir, hdir⟩ := h.binary.sameLayers hsame
    rw [hdir] at hmissing
    cases hmissing
  have haside := Repo.aside_pull hother h.honest module
  exact ⟨hother, h.aside.trans haside, h.binary.pull h.honest hother module,
    haside.honest h.honest⟩

theorem beside_pullRuntime {j : Job} (h : Beside ref s j.repo) (info : PackageInfoV2) :
    Beside ref s (j.pullRuntime info "binary").1.repo ∧
      ∀ actions, (j.pullRuntime info "binary").2 = some actions →
        ∀ f ∈ actions, ∀ s : Repo, Repo.Aside ref s (f s) := by
  have hnil : ∀ actions, (some [] : Option (List (Repo → Repo))) = some actions →
      ∀ f ∈ actions, ∀ s : Repo, Repo.Aside ref s (f s) := by
    intro actions hactions
    cases hactions
    simp
  unfold pullRuntime
  split
  · exact ⟨h, hnil⟩
  split
  · exact ⟨h, by simp⟩
  · next fuzzy _ =>
    have hclear := h.clearReference fuzzy
    split
    · next j₁ e heq =>
      rw [heq] at hclear
      exact ⟨hclear, by simp⟩
    · next j₁ runtime heq =>
      rw [heq] at hclear
      have hcall : Beside ref s (j₁.call (.updateSubState .installRuntime
          ("Installing runtime " ++ runtime.toString))).repo := hclear
      simp only
      split
      · exact ⟨hclear, hnil⟩
      · next e hmissing =>
        -- a runtime that was missing is not the reference itself
        obtain ⟨hother, hpulled⟩ := hcall.pull hmissing "binary"
        split
        · exact ⟨hclear, by simp⟩
        split
        · exact ⟨hpulled, by simp⟩
        · refine ⟨hpulled, ?_⟩
          intro actions hactions f hf s'
          cases hactions
          rw [List.mem_singleton.1 hf]
          exact Repo.aside_remove hother "binary" none s'

theorem beside_pullBase {j : Job} (h : Beside ref s j.repo) (info : PackageInfoV2) :
    Beside ref s (j.pullBase info "binary").1.repo := by
  unfold pullBase
  split
  · exact h
  · next fuzzy _ =>
    have hclear := h.clearReference fuzzy
    split
    · next j₁ e heq =>
      rw [heq] at hclear
      exact hclear
    · next j₁ base heq =>
      rw [heq] at hclear
      have hcall : Beside ref s (j₁.call (.updateSubState .installBase
          ("Installing base " ++ base.toString))).repo := hclear
      simp only
      split
      · exact hclear
      · next e hmissing =>
        split
        · exact hclear
        · exact (hcall.pull hmissing "binary").2

/-- Pulling the dependencies of a layer that is there leaves the layers of
    its reference alone, whatever fails. -/
theorem aside_pullDependency {j : Job} (hbinary : HasBinary ref j.repo)
    (hhonest : j.repo.Honest) (info : PackageInfoV2) :
    Repo.Aside ref j.repo (j.pullDependency info "binary").repo := by
  unfold pullDependency
  split
  · exact .refl _
  split
  · exact .refl _
  · obtain ⟨hruntime, hactions⟩ := beside_pullRuntime ⟨.refl j.repo, hbinary, hhonest⟩ info
    split
    · next j₁ heq =>
      rw [heq] at hruntime
      exact hruntime.aside
    · next j₁ actions heq =>
      rw [heq] at hruntime hactions
      have hbase := beside_pullBase hruntime info
      split
      · next j₂ hend =>
        rw [hend] at hbase
        exact hbase.aside
      · next j₂ hend =>
        rw [hend] at hbase
        have : Std.Refl (Repo.Aside ref) := ⟨.refl⟩
        have : IsTrans Repo (Repo.Aside ref) := ⟨fun _ _ _ => .trans⟩
        exact hbase.aside.trans (rollback_within (hactions actions rfl) j₂.repo)

end Dependencies

/-! ## Section 4: Rounds of the second loop -/

theorem isDone_of_endsInError {j : Job} {ref : Reference} {module : String}
    (h : Repo.EndsInError (j.repo.pull ref module).2) : (j.pull ref module).isDone = true := by
  obtain ⟨calls, e, hcalls⟩ := h
  unfold Job.pull isDone
  rw [hcalls, PackageTask.run_append]
  rfl

/-- The state of a round once its module is pulled. -/
def pulledRound (ref : Reference) (module : String) (p : Installing) : Installing :=
  { p with
    job := p.job.pull ref module
    actions := undoPull ref module :: p.actions }

/-- The pulled layer has the name of a layer that is there, or it has the
    old name of `binary` beside a layer `binary` from before. -/
def Doubles (ref : Reference) (old : List RepositoryCacheLayersItem) (module : String)
    (p : Installing) : Prop :=
  ∃ item, (p.job.pull ref module).repo.view ref = p.job.repo.view ref ++ [item] ∧
    ((∃ a ∈ p.job.repo.view ref, a.info.packageInfoV2Module = item.info.packageInfoV2Module) ∨
      item.info.packageInfoV2Module = "runtime" ∧
        ∃ a ∈ old, a.info.packageInfoV2Module = "binary")

/-- One more layer. -/
theorem separate_concat {old new : List RepositoryCacheLayersItem}
    {item : RepositoryCacheLayersItem} {names : List String} {deleted : Option Bool} :
    Separate old (new ++ [item]) ↔ Separate old new ∧
      ¬ ((∃ a ∈ setMarks names deleted old ++ new,
          a.info.packageInfoV2Module = item.info.packageInfoV2Module) ∨
        item.info.packageInfoV2Module = "runtime" ∧
          ∃ a ∈ old, a.info.packageInfoV2Module = "binary") := by
  have hmarks : (∃ a ∈ setMarks names deleted old ++ new,
      a.info.packageInfoV2Module = item.info.packageInfoV2Module) ↔
      (∃ a ∈ old, a.info.packageInfoV2Module = item.info.packageInfoV2Module) ∨
        ∃ a ∈ new, a.info.packageInfoV2Module = item.info.packageInfoV2Module := by
    simp [setMarks, or_and_right, exists_or]
  rw [hmarks]
  constructor
  · intro h
    refine ⟨h.sublist (List.sublist_append_left _ _), ?_⟩
    rintro ((⟨a, ha, hsame⟩ | ⟨a, ha, hsame⟩) | ⟨hruntime, a, ha, hbinary⟩)
    · exact h.fresh a ha item (by simp) hsame
    · have hnodup := h.nodup
      rw [List.map_append, List.nodup_append] at hnodup
      exact hnodup.2.2 _ (List.mem_map_of_mem ha) _ (by simp) hsame
    · exact h.runtime item (by simp) hruntime a ha hbinary
  · rintro ⟨h, hnot⟩
    refine ⟨?_, ?_, ?_⟩
    · rw [List.map_append, List.nodup_append]
      refine ⟨h.nodup, by simp, ?_⟩
      intro name hname name' hname' heq
      obtain ⟨a, ha, rfl⟩ := List.mem_map.1 hname
      rw [List.map_singleton, List.mem_singleton] at hname'
      exact hnot (.inl (.inr ⟨a, ha, heq.trans hname'⟩))
    · intro a ha b hb hsame
      rcases List.mem_append.1 hb with hb | hb
      · exact h.fresh a ha b hb hsame
      · rw [List.mem_singleton.1 hb] at hsame
        exact hnot (.inl (.inl ⟨a, ha, hsame⟩))
    · intro b hb hruntime a ha hbinary
      rcases List.mem_append.1 hb with hb | hb
      · exact h.runtime b hb hruntime a ha hbinary
      · rw [List.mem_singleton.1 hb] at hruntime
        exact hnot (.inr ⟨hruntime, a, ha, hbinary⟩)

section PullStep

variable {ref : Reference} {old new : List RepositoryCacheLayersItem}
  {asked names pulled : List String} {p : Installing}

/-- What a pull does to the layers of its reference: nothing, and the task
    is done, or there is one more layer. -/
theorem Progress.pull_cases (h : Progress ref old asked names pulled new p) (module : String) :
    ((p.job.pull ref module).isDone = true ∧
      Repo.Aside ref p.job.repo (p.job.pull ref module).repo) ∨
    ∃ item, (p.job.pull ref module).repo.view ref = p.job.repo.view ref ++ [item] ∧
      Progress ref old asked names (module :: pulled) (new ++ [item])
        (pulledRound ref module p) := by
  obtain ⟨hframe, hlayers⟩ := p.job.repo.pull_spec ref module
  rcases hlayers with ⟨hlayers, hends⟩ | ⟨name, item, hname, hnew⟩
  · -- no layer, and the last call reports an error
    left
    refine ⟨isDone_of_endsInError hends, hframe.outside, hframe.honest, hframe.honestArch,
      fun spec _ => hframe.refs spec, ?_⟩
    show layersOf ref (p.job.repo.pull ref module).1.layers = layersOf ref p.job.repo.layers
    rw [hlayers]
  · right
    have hview : (p.job.pull ref module).repo.view ref = p.job.repo.view ref ++ [item] := by
      show layersOf ref (p.job.repo.pull ref module).1.layers = _
      rw [hnew.layers, layersOf, List.filter_append]
      simp [Repo.view, layersOf, hnew.isLayerOf h.honest hname]
    refine ⟨item, hview, hframe.honest h.honest, hframe.honestArch h.honestArch, ?_, ?_, h.names,
      ?_, ?_, ?_⟩
    · rw [← List.append_assoc, ← h.view]
      exact hview
    · rw [pulledRound, h.actions]
      rfl
    · rw [List.map_append, List.map_singleton, List.map_cons, hnew.moduleName h.honest hname]
      exact (List.perm_append_singleton _ _).trans (h.modules.cons _)
    · intro b hb
      rcases List.mem_append.1 hb with hb | hb
      · exact h.isNew b hb
      · rw [List.mem_singleton.1 hb]
        refine isNew_eq_true.2 ⟨hnew.arch h.honest h.honestArch hname, fun a ha => ?_⟩
        -- the mark of an old layer may have changed, but marks are not compared
        have hmem : setMark names none a ∈ p.job.repo.view ref := by
          rw [h.view]
          exact List.mem_append_left _ (List.mem_map_of_mem ha)
        have hfresh := hnew.fresh _ (mem_layersOf.1 hmem).1
        rwa [matchesItem_setMark] at hfresh
    · intro b hb
      rcases List.mem_append.1 hb with hb | hb
      · exact hframe.refs _ (h.refs b hb)
      · rw [List.mem_singleton.1 hb]
        exact hnew.resolves

/-- The dependencies of a pulled module, whatever becomes of them. -/
theorem Progress.dependencyRound (h : Progress ref old asked names pulled new p)
    (module : String) :
    Progress ref old asked names pulled new (dependencyRound ref module p) := by
  unfold Job.dependencyRound
  split
  · exact h
  split
  · exact h.aside rfl (.refl _) h.isLayerOf
  · next dir hdir =>
    split
    · exact h.aside rfl (.refl _) h.isLayerOf
    · next info _ =>
      exact h.aside rfl (aside_pullDependency ⟨dir, hdir⟩ h.honest info) h.isLayerOf

/-- A pull that reports an error after it has added its layer: the cache
    file cannot be written, or the task is canceled while the pull
    completes. -/
def LateError (ref : Reference) (module : String) (p : Installing) : Prop :=
  p.job.isDone = false ∧ (p.job.pull ref module).isDone = true ∧
    (p.job.pull ref module).repo.view ref ≠ p.job.repo.view ref

/-- A round whose task is done after the pull returns. -/
theorem pullRound_of_done {module : String} (hdone : p.job.isDone = false)
    (hpull : (p.job.pull ref module).isDone = true) :
    pullRound ref module p = { p with job := p.job.pull ref module, returned := true } := by
  unfold pullRound
  rw [hdone, if_neg (by decide), if_pos hpull]

theorem pullRound_of_not_done {module : String} (hdone : p.job.isDone = false)
    (hpull : (p.job.pull ref module).isDone = false) :
    pullRound ref module p = dependencyRound ref module (pulledRound ref module p) := by
  unfold pullRound pulledRound
  rw [hdone, if_neg (by decide), hpull, if_neg (by decide)]

/-- **Step**: a round of the second loop that pulls its module. -/
theorem Progress.pullRound (h : Progress ref old asked names pulled new p) {module : String}
    (hdone : p.job.isDone = false) (hpull : (p.job.pull ref module).isDone = false) :
    ∃ item, Progress ref old asked names (module :: pulled) (new ++ [item])
        (pullRound ref module p) ∧
      (Separate old (new ++ [item]) ↔ Separate old new ∧ ¬ Doubles ref old module p) := by
  rcases h.pull_cases module with ⟨hpull', -⟩ | ⟨item, hview, hpushed⟩
  · exact absurd (hpull.symm.trans hpull') (by decide)
  · refine ⟨item, ?_, ?_⟩
    · rw [pullRound_of_not_done hdone hpull]
      exact hpushed.dependencyRound module
    · rw [@separate_concat old new item names none, ← h.view]
      refine and_congr_right fun _ => not_congr ⟨fun hdouble => ⟨item, hview, hdouble⟩, ?_⟩
      rintro ⟨item', hview', hdouble⟩
      obtain rfl : item = item' := by simpa [hview] using hview'
      exact hdouble

end PullStep

end Job

end Linglong
