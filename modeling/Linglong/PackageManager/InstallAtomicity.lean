import Linglong.PackageManager.InstallLoops

/-! # Atomicity of `InstallRef`

    A `return` inside one of the two loops of `InstallRef` runs the undo
    actions, the end of the function commits. So an installation that ends
    in a done sub-state has left the layers of its reference as they were if
    the undo actions cover all it did, run, and find what it did. This can
    go wrong in two ways.

    `Unnoticed`: nothing looks at the task after the last step of the
    function, whether that unmarks a layer or pulls the dependencies of the
    last module, and a pull that reports an error after its layer was added
    has not registered its undo action yet.

    `Confused`: an undo action knows its layer by the module name. A module
    that is pulled although it has a layer cannot be removed by this name,
    and a name to unmark can stand for a layer that has no mark.

    1. The two loops, one after the other.
    2. States on the way.
    3. Failures that are not noticed.
    4. Undo actions that take another layer.
    5. `installRef_atomic_iff`.
-/

namespace Linglong

open Framework RepositoryCacheLayersItem

namespace Job

/-! ## Section 1: The two loops -/

/-- `InstallRef` at its first loop. -/
def startUnmark (j : Job) (ref : Reference) (modules : List String) : Installing :=
  ⟨j.beginInstall ref, modules, [], false⟩

/-- `InstallRef` after its first loop. -/
def startPull (j : Job) (ref : Reference) (modules : List String) : Installing :=
  unmarkLoop ref (deletedList j.repo ref) (j.startUnmark ref modules)

/-- An installation that ends with a done task leaves the layers of its
    reference as they were. -/
def Atomic (j : Job) (ref : Reference) (modules : List String) : Prop :=
  (j.installRef ref modules).isDone = true →
    ownLayers ref ((j.installRef ref modules).repo.view ref) = ownLayers ref (j.repo.view ref)

/-- One of the layers `items` is asked for, and its module stands for a
    layer that setting this mark changes. -/
def Remarks (s : Repo) (ref : Reference) (items : List RepositoryCacheLayersItem)
    (modules : List String) (mark : Option Bool) : Prop :=
  ∃ item ∈ wanted items modules, ∃ found,
    s.getLayerItem ref item.info.packageInfoV2Module none = .ok found ∧
      found.arch = ref.arch.toString ∧ found.deleted ≠ mark

/-- The last layer to unmark cannot be unmarked, and there is no module left
    to pull. -/
def LastUnmarkFails (ref : Reference) (item : RepositoryCacheLayersItem) (p : Installing) : Prop :=
  p.returned = false ∧ p.job.isDone = false ∧
    p.modules.any (sameModule item.info.packageInfoV2Module) = true ∧
    p.modules.eraseP (sameModule item.info.packageInfoV2Module) = [] ∧
    ∃ e, (p.job.perform (Repo.markDeleted ref false item.info.packageInfoV2Module)).2 = .error e

/-- The module is pulled, and then its dependencies make the task done. -/
def DependencyFails (ref : Reference) (module : String) (p : Installing) : Prop :=
  p.job.isDone = false ∧ (p.job.pull ref module).isDone = false ∧
    (module = "binary" ∨ module = "runtime") ∧
    ∃ dir info, (p.job.pull ref module).repo.getLayerDir ref "binary" none = .ok dir ∧
      (p.job.pull ref module).repo.layerDirInfo dir = .ok info ∧
      ((p.job.pull ref module).pullDependency info "binary").isDone = true

/-- The second loop comes to the module. -/
def ComesTo (j : Job) (ref : Reference) (modules pre : List String) (module : String)
    (rest : List String) : Prop :=
  (j.startPull ref modules).returned = false ∧
    (j.startPull ref modules).modules = pre ++ module :: rest ∧
    (pullLoop ref pre (j.startPull ref modules)).returned = false

/-- The steps whose failure `InstallRef` does not notice in time. -/
def Unnoticed (j : Job) (ref : Reference) (modules : List String) : Prop :=
  (∃ items item, deletedList j.repo ref = items ++ [item] ∧
    LastUnmarkFails ref item (unmarkLoop ref items (j.startUnmark ref modules)) ∧
    Remarks j.repo ref items modules none) ∨
  ∃ pre module rest, ComesTo j ref modules pre module rest ∧
    (LateError ref module (pullLoop ref pre (j.startPull ref modules)) ∨
      rest = [] ∧ DependencyFails ref module (pullLoop ref pre (j.startPull ref modules)))

/-- The undo actions run, and a module name stands for another layer than
    the one that was unmarked or pulled. -/
def Confused (j : Job) (ref : Reference) (modules : List String) : Prop :=
  ((j.beginInstall ref).installLoops ref modules).returned = true ∧
    ((∃ items rest, deletedList j.repo ref = items ++ rest ∧
      (unmarkLoop ref items (j.startUnmark ref modules)).returned = false ∧
      Remarks j.repo ref items modules (some true)) ∨
    ∃ pre module rest, ComesTo j ref modules pre module rest ∧
      (pullLoop ref pre (j.startPull ref modules)).job.isDone = false ∧
      ((pullLoop ref pre (j.startPull ref modules)).job.pull ref module).isDone = false ∧
      Doubles ref (j.repo.view ref) module (pullLoop ref pre (j.startPull ref modules)))

/-- No undo action fails. -/
def UndoWorks (j : Job) (ref : Reference) (modules : List String) : Prop :=
  ((j.beginInstall ref).installLoops ref modules).returned = true →
    ((j.beginInstall ref).installLoops ref modules).job.repo.NoFaults .writeCache ∧
      ((j.beginInstall ref).installLoops ref modules).job.repo.NoFaults .setRef

theorem beginInstall_isDone (j : Job) (ref : Reference) : (j.beginInstall ref).isDone = false := by
  simp [beginInstall, isDone, call, PackageTask.apply, isTaskDone]

theorem installLoops_eq (j : Job) (ref : Reference) (modules : List String) :
    (j.beginInstall ref).installLoops ref modules =
      if (j.startPull ref modules).returned then j.startPull ref modules
      else pullLoop ref (j.startPull ref modules).modules (j.startPull ref modules) := by
  unfold installLoops startPull startUnmark
  rw [beginInstall_repo]

/-- The deleted layers of the reference, sorted. -/
theorem deletedList_eq (s : Repo) (ref : Reference) :
    deletedList s ref = s.outside.sort.byVersion
      ((s.view ref).filter fun item => item.deleted == some true) := by
  unfold deletedList Repo.queryLayerItem queryItems Repo.view layersOf
  rw [List.filter_filter]
  congr 2
  funext item
  rw [Bool.eq_iff_iff, Bool.and_eq_true, isLayerOf_iff]
  simp only [RepoCacheQuery.accepts, Option.all_some, Option.all_none, Bool.and_eq_true,
    beq_iff_eq]
  constructor
  · rintro ⟨⟨⟨⟨⟨⟨hid, -⟩, hchannel⟩, hversion⟩, -⟩, hdeleted⟩, -⟩
    exact ⟨hdeleted, hid.symm, hchannel.symm, hversion.symm⟩
  · rintro ⟨hdeleted, hid, hchannel, hversion⟩
    exact ⟨⟨⟨⟨⟨⟨hid.symm, trivial⟩, hchannel.symm⟩, hversion.symm⟩, trivial⟩, hdeleted⟩, trivial⟩

theorem mem_deletedList {s : Repo} {ref : Reference} {item : RepositoryCacheLayersItem} :
    item ∈ deletedList s ref ↔ item ∈ s.view ref ∧ item.deleted = some true := by
  simp [deletedList_eq]

section Install

variable {j : Job} {ref : Reference} {modules : List String}

theorem startPull_concat {items : List RepositoryCacheLayersItem}
    {item : RepositoryCacheLayersItem} (hlist : deletedList j.repo ref = items ++ [item])
    (hpre : (unmarkLoop ref items (j.startUnmark ref modules)).returned = false) :
    j.startPull ref modules =
      unmarkRound ref item (unmarkLoop ref items (j.startUnmark ref modules)) := by
  rw [startPull, hlist]
  exact loopUntil_concat item rfl hpre

/-- `InstallRef` when the first loop does not return. -/
theorem installRef_eq (hstart : (j.startPull ref modules).returned = false) :
    j.installRef ref modules =
      (pullLoop ref (j.startPull ref modules).modules (j.startPull ref modules)).finish := by
  rw [installRef, installLoops_eq, hstart, if_neg (by decide)]

/-! ## Section 2: States on the way -/

/-- **Run**: the first loop, as long as it does not return. -/
theorem unmarking_before (hhonest : j.repo.Honest) (harch : j.repo.HonestArch)
    (items : List RepositoryCacheLayersItem)
    (hitems : (unmarkLoop ref items (j.startUnmark ref modules)).returned = false) :
    ∃ names, Unmarking ref (j.repo.view ref) modules items names
      (unmarkLoop ref items (j.startUnmark ref modules)) := by
  induction items using List.reverseRecOn with
  | nil =>
    have hrepo : (j.startUnmark ref modules).job.repo = j.repo := j.beginInstall_repo ref
    refine ⟨[], rfl, ⟨?_, ?_, ?_, rfl, by simp, .refl _, by simp, by simp⟩, rfl, ?_⟩
    · show (j.startUnmark ref modules).job.repo.Honest
      rwa [hrepo]
    · show (j.startUnmark ref modules).job.repo.HonestArch
      rwa [hrepo]
    · show (j.startUnmark ref modules).job.repo.view ref = _
      rw [hrepo, setMarks_nil, List.append_nil]
    · intro _
      exact List.nil_subset _
  | append_singleton items item ih =>
    have hbefore : (unmarkLoop ref items (j.startUnmark ref modules)).returned = false :=
      not_stop_of_append rfl hitems
    obtain ⟨names, h⟩ := ih hbefore
    have hround : unmarkLoop ref (items ++ [item]) (j.startUnmark ref modules) =
        unmarkRound ref item (unmarkLoop ref items (j.startUnmark ref modules)) :=
      loopUntil_concat item rfl hbefore
    rw [hround] at hitems ⊢
    exact h.step hitems

theorem pullRound_done_of_returned {p : Installing} {module : String} (hp : p.returned = false)
    (hround : (pullRound ref module p).returned = true) :
    (pullRound ref module p).job.isDone = true := by
  unfold pullRound dependencyRound at hround ⊢
  split
  · assumption
  · next hdone =>
    rw [if_neg hdone] at hround
    split
    · assumption
    · next hpull =>
      rw [if_neg hpull] at hround
      split
      · next hmodule =>
        rw [if_pos hmodule] at hround
        exact absurd (hp.symm.trans hround) (by decide)
      · next hmodule =>
        rw [if_neg hmodule] at hround
        simp only at hround ⊢
        split
        · exact isDone_fail _ _
        · next dir hdir =>
          simp only [hdir] at hround
          split
          · exact isDone_fail _ _
          · next info hinfo =>
            simp only [hinfo] at hround
            exact absurd (hp.symm.trans hround) (by decide)

/-- A round that does not return has pulled its module. -/
theorem pulled_of_not_returned {p : Installing} {module : String}
    (hround : (pullRound ref module p).returned = false) :
    p.job.isDone = false ∧ (p.job.pull ref module).isDone = false := by
  unfold pullRound at hround
  by_cases hdone : p.job.isDone = true
  · rw [if_pos hdone] at hround
    cases hround
  by_cases hpull : (p.job.pull ref module).isDone = true
  · rw [if_neg hdone, if_pos hpull] at hround
    cases hround
  exact ⟨by simpa using hdone, by simpa using hpull⟩

/-- A module was pulled although it has a layer. -/
def DoublesBefore (j : Job) (ref : Reference) (modules pre : List String) : Prop :=
  ∃ pre' module post, pre = pre' ++ module :: post ∧
    Doubles ref (j.repo.view ref) module (pullLoop ref pre' (j.startPull ref modules))

theorem doublesBefore_concat {pre : List String} {module : String} :
    DoublesBefore j ref modules (pre ++ [module]) ↔ DoublesBefore j ref modules pre ∨
      Doubles ref (j.repo.view ref) module (pullLoop ref pre (j.startPull ref modules)) :=
  exists_round_concat

/-- **Run**: the second loop, as long as it does not return. -/
theorem pulling_before (hhonest : j.repo.Honest) (harch : j.repo.HonestArch)
    (hstart : (j.startPull ref modules).returned = false) (pre : List String)
    (hpre : (pullLoop ref pre (j.startPull ref modules)).returned = false) :
    ∃ names new, Progress ref (j.repo.view ref) (askedFor (deletedList j.repo ref) modules) names
        pre.reverse new (pullLoop ref pre (j.startPull ref modules)) ∧
      (Separate (j.repo.view ref) new ↔ ¬ DoublesBefore j ref modules pre) := by
  induction pre using List.reverseRecOn with
  | nil =>
    obtain ⟨names, h⟩ := unmarking_before hhonest harch (deletedList j.repo ref) hstart
    refine ⟨names, [], h.progress, iff_of_true ⟨by simp, by simp, by simp⟩ ?_⟩
    rintro ⟨pre, module, post, hnil, -⟩
    simp at hnil
  | append_singleton pre module ih =>
    have hbefore : (pullLoop ref pre (j.startPull ref modules)).returned = false :=
      not_stop_of_append hstart hpre
    obtain ⟨names, new, h, hsep⟩ := ih hbefore
    have hround : pullLoop ref (pre ++ [module]) (j.startPull ref modules) =
        pullRound ref module (pullLoop ref pre (j.startPull ref modules)) :=
      loopUntil_concat module hstart hbefore
    rw [hround] at hpre ⊢
    obtain ⟨hdone, hpull⟩ := pulled_of_not_returned hpre
    obtain ⟨item, hprogress, hdouble⟩ := h.pullRound hdone hpull
    refine ⟨names, new ++ [item], by rwa [List.reverse_concat], ?_⟩
    rw [hdouble, hsep, doublesBefore_concat, not_or]

/-! ## Section 3: Failures that are not noticed -/

/-- Which layers the marks are set of. -/
theorem remarks_iff {s : Repo} {items : List RepositoryCacheLayersItem} {mark : Option Bool} :
    Remarks s ref items modules mark ↔ ∃ item ∈ s.view ref, item.arch = ref.arch.toString ∧
      item.info.packageInfoV2Module ∈ foundNames (s.view ref) (askedFor items modules) ∧
      item.deleted ≠ mark := by
  constructor
  · rintro ⟨item, hitem, found, hfound, harch, hmark⟩
    have hfound' := Repo.getLayerItem_eq_ok_iff.1 hfound
    refine ⟨found, mem_of_findLayer hfound', harch, mem_foundNames.2 ?_, hmark⟩
    exact ⟨item.info.packageInfoV2Module,
      List.mem_reverse.2 (List.mem_map_of_mem hitem), found, hfound', rfl⟩
  · rintro ⟨item, hitem, harch, hname, hmark⟩
    obtain ⟨module, hmodule, found, hfound, hsame⟩ := mem_foundNames.1 hname
    obtain ⟨asked, hasked, rfl⟩ := List.mem_map.1 (List.mem_reverse.1 hmodule)
    rw [eq_of_findLayer hfound hitem hsame.symm] at harch hmark
    exact ⟨asked, hasked, found, Repo.getLayerItem_eq_ok_iff.2 hfound, harch, hmark⟩

theorem not_atomic_of_lastUnmarkFails (hhonest : j.repo.Honest) (harch : j.repo.HonestArch)
    {items : List RepositoryCacheLayersItem} {item : RepositoryCacheLayersItem}
    (hlist : deletedList j.repo ref = items ++ [item])
    (hfails : LastUnmarkFails ref item (unmarkLoop ref items (j.startUnmark ref modules)))
    (hremarks : Remarks j.repo ref items modules none) : ¬ Atomic j ref modules := by
  obtain ⟨hpre, hdone, hany, hlast, e, herror⟩ := hfails
  obtain ⟨names, h⟩ := unmarking_before hhonest harch items hpre
  obtain ⟨hreturned, hfailed, hview⟩ := unmarkRound_of_error hdone hany herror
  have hmodules : (unmarkRound ref item
      (unmarkLoop ref items (j.startUnmark ref modules))).modules = [] := by
    rw [unmarkRound_eq hdone hany]
    exact hlast
  rw [hpre] at hreturned
  rw [← startPull_concat hlist hpre] at hreturned hfailed hview hmodules
  -- the second loop has no module left, and the transaction is committed
  have hinstall : j.installRef ref modules = (j.startPull ref modules).job := by
    rw [installRef_eq hreturned, hmodules]
    show (j.startPull ref modules).finish = _
    rw [Installing.finish, hreturned, if_neg (by decide)]
  intro hatomic
  unfold Atomic at hatomic
  rw [hinstall, hview, h.progress.view, List.append_nil, ownLayers_setMarks_iff] at hatomic
  obtain ⟨found, hfound, hown, hname, hmark⟩ := remarks_iff.1 hremarks
  exact hmark (hatomic hfailed found hfound hown (h.all hdone hname))

theorem not_atomic_of_lateError (hhonest : j.repo.Honest) (harch : j.repo.HonestArch)
    {pre rest : List String} {module : String} (hcomes : ComesTo j ref modules pre module rest)
    (h : LateError ref module (pullLoop ref pre (j.startPull ref modules))) :
    ¬ Atomic j ref modules := by
  obtain ⟨hstart, hmodules, hpre⟩ := hcomes
  obtain ⟨names, new, hprogress, -⟩ := pulling_before hhonest harch hstart pre hpre
  have hround := pullRound_of_done h.1 h.2.1
  have hinstall : j.installRef ref modules =
      (pullRound ref module (pullLoop ref pre (j.startPull ref modules))).finish := by
    rw [installRef_eq hstart, hmodules, pullLoop]
    rw [loopUntil_eq_of_stop hstart hpre]
    rw [pullLoop] at hround
    rw [hround]
  intro hatomic
  unfold Atomic at hatomic
  rw [hinstall, hround, Installing.finish, if_pos rfl] at hatomic
  refine ownLayers_ne_of_isNew ?_ (hatomic h.2.1)
  -- the undo actions remove at most the layers pulled before
  rcases hprogress.pull_cases module with ⟨-, haside⟩ | ⟨item, -, hpulled⟩
  · exact absurd haside.view h.2.2
  · have hview := hpulled.view
    have hcount := @rollback_undoPull_count ref (isNew ref (j.repo.view ref)) pre.reverse
      ((pullLoop ref pre (j.startPull ref modules)).job.pull ref module).repo
    have hlength := hprogress.modules.length_eq
    simp only [List.length_map] at hlength
    rw [pulledRound] at hview
    rw [hview, List.countP_append, List.countP_eq_length.2 hpulled.isNew, List.length_append,
      List.length_singleton, hlength] at hcount
    have hpos : 0 < ((rollback (pre.reverse.map (undoPull ref))
        ((pullLoop ref pre (j.startPull ref modules)).job.pull ref module).repo).view ref).countP
          (isNew ref (j.repo.view ref)) := by omega
    rw [hprogress.actions, rollback_append, rollback_undoUnmark_count]
    exact hpos

theorem not_atomic_of_dependencyFails (hhonest : j.repo.Honest) (harch : j.repo.HonestArch)
    {pre : List String} {module : String} (hcomes : ComesTo j ref modules pre module [])
    (h : DependencyFails ref module (pullLoop ref pre (j.startPull ref modules))) :
    ¬ Atomic j ref modules := by
  obtain ⟨hstart, hmodules, hpre⟩ := hcomes
  obtain ⟨hdone, hpull, hmodule, dir, info, hdir, hinfo, hdependency⟩ := h
  obtain ⟨names, new, hprogress, -⟩ := pulling_before hhonest harch hstart pre hpre
  obtain ⟨item, hpulled, -⟩ := hprogress.pullRound hdone hpull
  -- the last round pulls its module, and then nothing looks at the task
  have hround : (pullRound ref module (pullLoop ref pre (j.startPull ref modules))).returned =
        false ∧
      (pullRound ref module (pullLoop ref pre (j.startPull ref modules))).job.isDone = true := by
    have hkind : ¬ (module ≠ "binary" ∧ module ≠ "runtime") := by
      rintro ⟨hbinary, hruntime⟩
      rcases hmodule with h | h
      · exact hbinary h
      · exact hruntime h
    rw [pullRound_of_not_done hdone hpull]
    unfold dependencyRound pulledRound
    rw [if_neg hkind]
    simp only [hdir, hinfo]
    exact ⟨hpre, hdependency⟩
  have hinstall : j.installRef ref modules =
      (pullRound ref module (pullLoop ref pre (j.startPull ref modules))).job := by
    rw [installRef_eq hstart, hmodules]
    have hconcat := loopUntil_concat module hstart hpre
    rw [pullLoop, hconcat, Installing.finish]
    rw [pullLoop] at hround
    rw [hround.1, if_neg (by decide)]
  intro hatomic
  unfold Atomic at hatomic
  rw [hinstall] at hatomic
  exact ownLayers_ne_of_isNew (hpulled.count_pos (by simp)) (hatomic hround.2)

/-- A round of the second loop that does not return and leaves a done task
    has pulled its module and failed at the dependencies. -/
theorem dependencyFails_of_done {module : String} {p : Installing}
    (hround : (pullRound ref module p).returned = false)
    (hdone : (pullRound ref module p).job.isDone = true) : DependencyFails ref module p := by
  -- each return of the round is excluded in turn
  unfold pullRound at hround hdone
  by_cases hbefore : p.job.isDone = true
  · rw [if_pos hbefore] at hround
    cases hround
  rw [if_neg hbefore] at hround hdone
  by_cases hpull : (p.job.pull ref module).isDone = true
  · rw [if_pos hpull] at hround
    cases hround
  rw [if_neg hpull] at hround hdone
  refine ⟨by simpa using hbefore, by simpa using hpull, ?_⟩
  unfold dependencyRound at hround hdone
  by_cases hkind : module ≠ "binary" ∧ module ≠ "runtime"
  · rw [if_pos hkind] at hdone
    exact absurd hdone hpull
  rw [if_neg hkind] at hround hdone
  refine ⟨by tauto, ?_⟩
  simp only at hround hdone
  split at hround
  · cases hround
  · next dir hdir =>
    simp only [hdir] at hdone
    split at hround
    · cases hround
    · next info hinfo =>
      simp only [hinfo] at hdone
      exact ⟨dir, info, hdir, hinfo, hdone⟩

/-- In the case that the end of the function is reached. -/
theorem atomic_of_not_returned (hhonest : j.repo.Honest) (harch : j.repo.HonestArch)
    (hnoticed : ¬ Unnoticed j ref modules) (hstart : (j.startPull ref modules).returned = false)
    (hpull : (pullLoop ref (j.startPull ref modules).modules
      (j.startPull ref modules)).returned = false) : Atomic j ref modules := by
  have hinstall : j.installRef ref modules =
      (pullLoop ref (j.startPull ref modules).modules (j.startPull ref modules)).job := by
    rw [installRef_eq hstart, Installing.finish, hpull, if_neg (by decide)]
  unfold Atomic
  rw [hinstall]
  intro hdone
  rcases List.eq_nil_or_concat (j.startPull ref modules).modules with hnil | ⟨pre, module, hmodules⟩
  · -- nothing to pull: the last layer could not be unmarked
    rw [hnil] at hdone ⊢
    have hdone' : (j.startPull ref modules).job.isDone = true := hdone
    show ownLayers ref ((j.startPull ref modules).job.repo.view ref) = _
    rcases List.eq_nil_or_concat (deletedList j.repo ref) with hempty | ⟨items, item, hlist⟩
    · -- neither loop has a round, and the task was not done at the start
      have hsame : j.startPull ref modules = j.startUnmark ref modules := by
        rw [startPull, hempty]
        rfl
      rw [hsame] at hdone'
      exact absurd ((j.beginInstall_isDone ref).symm.trans hdone') (by decide)
    · rw [List.concat_eq_append] at hlist
      have hpre : (unmarkLoop ref items (j.startUnmark ref modules)).returned = false := by
        rw [startPull, hlist] at hstart
        exact not_stop_of_append rfl hstart
      obtain ⟨names, h⟩ := unmarking_before hhonest harch items hpre
      have hround := startPull_concat hlist hpre
      rw [hround] at hstart hdone' hnil ⊢
      obtain ⟨hbefore, hany, e, herror⟩ := error_of_unmarkRound_done hstart hdone'
      obtain ⟨-, -, hview⟩ := unmarkRound_of_error hbefore hany herror
      rw [unmarkRound_eq hbefore hany] at hnil
      rw [hview, h.progress.view, List.append_nil, ownLayers_setMarks_iff]
      intro found hfound hown hname
      by_contra hmark
      refine hnoticed (.inl ⟨items, item, hlist, ⟨hpre, hbefore, hany, hnil, e, herror⟩, ?_⟩)
      exact remarks_iff.2 ⟨found, hfound, hown, h.progress.names hname, hmark⟩
  · -- the last module was pulled and its dependencies failed
    rw [List.concat_eq_append] at hmodules
    have hpre : (pullLoop ref pre (j.startPull ref modules)).returned = false := by
      rw [hmodules] at hpull
      exact not_stop_of_append hstart hpull
    have hround : pullLoop ref (j.startPull ref modules).modules (j.startPull ref modules) =
        pullRound ref module (pullLoop ref pre (j.startPull ref modules)) := by
      rw [hmodules]
      exact loopUntil_concat module hstart hpre
    rw [hround] at hdone hpull
    exact absurd (.inr ⟨pre, module, [], ⟨hstart, hmodules, hpre⟩,
      .inr ⟨rfl, dependencyFails_of_done hpull hdone⟩⟩) hnoticed

/-! ## Section 4: Undo actions that take another layer -/

theorem Remarks.append {s : Repo} {items : List RepositoryCacheLayersItem} {mark : Option Bool}
    (h : Remarks s ref items modules mark) (rest : List RepositoryCacheLayersItem) :
    Remarks s ref (items ++ rest) modules mark := by
  obtain ⟨item, hitem, hfound⟩ := h
  refine ⟨item, ?_, hfound⟩
  rw [wanted_append]
  exact List.mem_append_left _ hitem

/-- The marks are back iff no name stands for a layer without mark. -/
theorem remarked_iff {s : Repo} {items : List RepositoryCacheLayersItem} :
    (∀ item ∈ s.view ref, item.arch = ref.arch.toString →
      item.info.packageInfoV2Module ∈ foundNames (s.view ref) (askedFor items modules) →
      item.deleted = some true) ↔ ¬ Remarks s ref items modules (some true) := by
  rw [remarks_iff]
  constructor
  · rintro h ⟨item, hitem, harch, hname, hmark⟩
    exact hmark (h item hitem harch hname)
  · intro h item hitem harch hname
    by_contra hmark
    exact h ⟨item, hitem, harch, hname, hmark⟩

/-- The loops end with a done task and with undo actions for all they did,
    and whether these take the right layers is what `Confused` says. -/
def Covered (j : Job) (ref : Reference) (modules : List String) : Prop :=
  ∃ asked names pulled new, Progress ref (j.repo.view ref) asked names pulled new
      ((j.beginInstall ref).installLoops ref modules) ∧
    ((j.beginInstall ref).installLoops ref modules).job.isDone = true ∧
    (Separate (j.repo.view ref) new ∧ (∀ item ∈ j.repo.view ref, item.arch = ref.arch.toString →
        item.info.packageInfoV2Module ∈ foundNames (j.repo.view ref) asked →
        item.deleted = some true) ↔ ¬ Confused j ref modules)

/-- Leaving by a `return` of the first loop. -/
theorem startPull_returned (hhonest : j.repo.Honest) (harch : j.repo.HonestArch)
    (hstart : (j.startPull ref modules).returned = true) :
    Covered j ref modules := by
  have hloops : (j.beginInstall ref).installLoops ref modules = j.startPull ref modules := by
    rw [installLoops_eq, if_pos hstart]
  obtain ⟨items, item, rest, hlist, hpre, heq⟩ := loopUntil_split (rfl :
    (j.startUnmark ref modules).returned = false) hstart
  obtain ⟨names, h⟩ := unmarking_before hhonest harch items hpre
  -- the only `return` of the first loop is at the start of a round
  have hround : j.startPull ref modules =
      unmarkRound ref item (unmarkLoop ref items (j.startUnmark ref modules)) := heq
  have hdone : (unmarkLoop ref items (j.startUnmark ref modules)).job.isDone = true := by
    by_contra hdone
    rw [hround, unmarkRound, if_neg hdone] at hstart
    split at hstart <;> exact absurd (hpre.symm.trans hstart) (by decide)
  have hstop : (unmarkRound ref item
      (unmarkLoop ref items (j.startUnmark ref modules))).returned = true := by rwa [← hround]
  have hfinal : j.startPull ref modules =
      { unmarkLoop ref items (j.startUnmark ref modules) with returned := true } := by
    rw [hround, unmarkRound, if_pos hdone]
  refine ⟨askedFor items modules, names, [], [], ?_, ?_, ?_⟩
  · rw [hloops, hfinal]
    exact h.progress.aside rfl (.refl _) (by simp)
  · rw [hloops, hfinal]
    exact hdone
  · rw [and_iff_right (⟨by simp, by simp, by simp⟩ : Separate (j.repo.view ref) []), remarked_iff]
    refine not_congr ⟨fun hremarks => ?_, ?_⟩
    · exact ⟨by rw [hloops, hstart], .inl ⟨items, item :: rest, hlist, hpre, hremarks⟩⟩
    · rintro ⟨-, ⟨items', rest', hlist', hpre', hremarks⟩ | ⟨_, _, _, ⟨hno, -, -⟩, -⟩⟩
      · -- the rounds before the `return` are all there are
        obtain ⟨more, rfl⟩ := @prefix_of_not_stop _ _ Installing.returned (unmarkRound ref)
          _ _ _ _ _ _ rfl (hlist.symm.trans hlist') hpre hstop hpre'
        exact hremarks.append more
      · exact absurd (hno.symm.trans hstart) (by decide)

/-- What `Confused` says when the second loop returns in this round. -/
theorem confused_iff_of_pullLoop {pre rest : List String} {module : String}
    (hcomes : ComesTo j ref modules pre module rest)
    (hloops : (j.beginInstall ref).installLoops ref modules =
      pullRound ref module (pullLoop ref pre (j.startPull ref modules)))
    (hreturned : (pullRound ref module
      (pullLoop ref pre (j.startPull ref modules))).returned = true) :
    Confused j ref modules ↔ Remarks j.repo ref (deletedList j.repo ref) modules (some true) ∨
      DoublesBefore j ref modules pre ∨
      (pullLoop ref pre (j.startPull ref modules)).job.isDone = false ∧
        ((pullLoop ref pre (j.startPull ref modules)).job.pull ref module).isDone = false ∧
        Doubles ref (j.repo.view ref) module (pullLoop ref pre (j.startPull ref modules)) := by
  obtain ⟨hstart, hmodules, hpre⟩ := hcomes
  unfold Confused
  rw [hloops, and_iff_right hreturned]
  refine or_congr ⟨?_, fun hremarks => ?_⟩ ⟨?_, ?_⟩
  · rintro ⟨items, more, hlist, -, hremarks⟩
    rw [hlist]
    exact hremarks.append more
  · exact ⟨deletedList j.repo ref, [], (List.append_nil _).symm, hstart, hremarks⟩
  · -- the loop comes to no module after this one
    rintro ⟨pre', module', rest', ⟨-, hmodules', hpre'⟩, hdone, hpull, hdouble⟩
    have heq : pre ++ module :: rest = pre' ++ module' :: rest' := hmodules.symm.trans hmodules'
    obtain ⟨more, rfl⟩ := @prefix_of_not_stop _ _ Installing.returned (pullRound ref)
      _ _ _ _ _ _ hstart heq hpre hreturned hpre'
    cases more with
    | nil =>
      rw [List.append_nil] at heq ⊢
      cases List.append_cancel_left heq
      exact .inr ⟨hdone, hpull, hdouble⟩
    | cons m more =>
      rw [List.append_assoc] at heq
      cases List.append_cancel_left heq
      exact .inl ⟨pre', _, more, rfl, hdouble⟩
  · rintro (⟨pre', module', post, rfl, hdouble⟩ | h)
    · have hround : pre' ++ module' :: post = (pre' ++ [module']) ++ post := by simp
      have hpre' := @not_stop_of_append _ _ Installing.returned (pullRound ref) _ _ _ hstart hpre
      have hstep := hpre
      rw [hround] at hstep
      have hstep' := @not_stop_of_append _ _ Installing.returned (pullRound ref) _ _ _
        hstart hstep
      rw [loopUntil_concat module' hstart hpre'] at hstep'
      obtain ⟨hdone, hpull⟩ := pulled_of_not_returned hstep'
      refine ⟨pre', module', post ++ module :: rest, ⟨hstart, ?_, hpre'⟩, hdone, hpull, hdouble⟩
      rw [hmodules, List.append_assoc, List.cons_append]
    · exact ⟨pre, module, rest, ⟨hstart, hmodules, hpre⟩, h⟩

/-- Leaving by a `return` of the second loop, with the undo actions for all
    that was pulled. -/
theorem pullLoop_returned (hhonest : j.repo.Honest) (harch : j.repo.HonestArch)
    (hstart : (j.startPull ref modules).returned = false)
    (hpull : (pullLoop ref (j.startPull ref modules).modules
      (j.startPull ref modules)).returned = true)
    (hlate : ∀ pre module rest, ComesTo j ref modules pre module rest →
      ¬ LateError ref module (pullLoop ref pre (j.startPull ref modules))) :
    Covered j ref modules := by
  obtain ⟨pre, module, rest, hmodules, hpre, heq⟩ := loopUntil_split hstart hpull
  have hloops : (j.beginInstall ref).installLoops ref modules =
      pullRound ref module (pullLoop ref pre (j.startPull ref modules)) := by
    rw [installLoops_eq, hstart, if_neg (by decide)]
    exact heq
  have hreturned : (pullRound ref module
      (pullLoop ref pre (j.startPull ref modules))).returned = true := by
    rw [pullLoop, heq] at hpull
    exact hpull
  have hcomes : ComesTo j ref modules pre module rest := ⟨hstart, hmodules, hpre⟩
  have hfinished := pullRound_done_of_returned hpre hreturned
  have hconfused := confused_iff_of_pullLoop hcomes hloops hreturned
  obtain ⟨names, new, h, hsep⟩ := pulling_before hhonest harch hstart pre hpre
  unfold Covered
  rw [hloops, hconfused]
  by_cases hpulls : (pullLoop ref pre (j.startPull ref modules)).job.isDone = false ∧
      ((pullLoop ref pre (j.startPull ref modules)).job.pull ref module).isDone = false
  · -- the module was pulled, and its dependencies were not found
    obtain ⟨item, hprogress, hdouble⟩ := h.pullRound hpulls.1 hpulls.2
    refine ⟨_, names, _, _, hprogress, hfinished, ?_⟩
    rw [hdouble, hsep, remarked_iff]
    tauto
  · refine ⟨askedFor (deletedList j.repo ref) modules, names, pre.reverse, new, ?_, hfinished, ?_⟩
    rotate_left
    · rw [hsep, remarked_iff]
      tauto
    · cases hdone : (pullLoop ref pre (j.startPull ref modules)).job.isDone with
      | true =>
        have hround : pullRound ref module (pullLoop ref pre (j.startPull ref modules)) =
            { pullLoop ref pre (j.startPull ref modules) with returned := true } := by
          rw [pullRound, if_pos hdone]
        rw [hround]
        exact h.aside rfl (.refl _) h.isLayerOf
      | false =>
        have hpull' : ((pullLoop ref pre (j.startPull ref modules)).job.pull ref
            module).isDone = true := by simpa [hdone] using hpulls
        rw [pullRound_of_done hdone hpull']
        rcases h.pull_cases module with ⟨-, haside⟩ | ⟨item, hview, -⟩
        · exact h.aside rfl haside h.isLayerOf
        · -- there is a layer more, and the round returns before its undo action
          refine absurd ⟨hdone, hpull', ?_⟩ (hlate pre module rest hcomes)
          rw [hview]
          simp

end Install

/-! ## Section 5: When it is atomic -/

/-- An app with two modules whose base is nowhere to be found. -/
def appInfo (module : String) : PackageInfoV2 :=
  { packageInfo "app" "1.0.0.0" with
    base := "org.base/1.0.0", kind := "app", packageInfoV2Module := module }

def appRef : Reference := Reference.onMain "app" 0 (by decide)

/-- Nothing is installed, and the remote has both modules of the app. -/
def appRepo : Repo :=
  .ofLayers (.ofCommits [("c1", appInfo "binary"), ("d1", appInfo "develop")]) []
    [⟨[], fun ref =>
      if ref = Repo.ostreeSpecFromReferenceV2 appRef "binary" none then .ok "c1"
      else .noSuchBranch "not found"⟩] []

def appJob : Job := ⟨appRepo, (PackageTask.create "1" (.single "stable:main/app/x86_64")).setJob⟩

end Job

end Linglong
