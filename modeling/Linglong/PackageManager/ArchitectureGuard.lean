import Linglong.Repo.CacheAgreement
import Linglong.PackageManager.InstallAtomicity

/-! # The Architecture Guard of `InstallRef`

    `InstallRef` compares the architecture of its reference with the one of
    the host. If they differ, or if the host's is not known, it sets the task
    to `Failed` and goes on. The next call of `updateSubState` takes the final
    sub-state back, and every later test of `isTaskDone` looks at nothing
    else. So the guard stops the function only if there is nothing to do, or
    if the first thing to do happens to fail.

    The main state `Failed` does stay, unless all parts of the task count as
    completed: then `updateState` turns it into `Succeed` at once.

    1. What the guard is for.
    2. The task at the first loop.
    3. The first loop.
    4. When the guard holds (`guarded_iff`).
-/

namespace Linglong

open Framework RepositoryCacheLayersItem

namespace Job

/-! ## Section 1: The guard -/

/-- The host has another architecture than the reference, or none that is
    known. -/
def ForeignArch (s : Repo) (ref : Reference) : Prop :=
  ∀ arch, s.outside.cpuArch = .ok arch → ref.arch ≠ arch

/-- The modules that the second loop of `InstallRef` asks `pull` for. -/
def pulledModules (ref : Reference) : List String → Installing → List String
  | [], _ => []
  | module :: rest, p =>
      if p.returned || p.job.isDone then []
      else module :: pulledModules ref rest (pullRound ref module p)

/-- `InstallRef` pulls nothing, changes no mark of the reference, neither in
    its first loop nor at its end, and leaves a failed task. -/
structure Guarded (j : Job) (ref : Reference) (modules : List String) : Prop where
  pulls : pulledModules ref (j.startPull ref modules).modules (j.startPull ref modules) = []
  marks : (j.startPull ref modules).job.repo.view ref = j.repo.view ref
  marksAtEnd : (j.installRef ref modules).repo.view ref = j.repo.view ref
  failed : (j.installRef ref modules).task.state = .failed

/-- A layer that is marked deleted has a requested module. -/
def Unmarks (s : Repo) (ref : Reference) (modules : List String) : Prop :=
  ∃ item ∈ deletedList s ref, modules.any (sameModule item.info.packageInfoV2Module) = true

/-! ## Section 2: The task -/

theorem state_fail (j : Job) (message : String) :
    (j.fail message).task.state = j.task.stateAfter .failed :=
  PackageTask.updateState_state _ _ _ _

/-- The number of parts decides what `Failed` becomes, -/
theorem stateAfter_failed_iff (t : PackageTask) :
    t.stateAfter .failed = .failed ↔ t.taskParts.toNat ≠ t.refs.size := by
  have hparts : t.partsAfter .failed = t.taskParts.toNat := rfl
  unfold PackageTask.stateAfter
  rw [hparts]
  by_cases hall : t.taskParts.toNat = t.refs.size <;> simp [hall]

/-- and failing does not change it. -/
theorem stateAfter_fail (j : Job) (message : String) :
    (j.fail message).task.stateAfter .failed = j.task.stateAfter .failed := by
  unfold fail call PackageTask.apply PackageTask.stateAfter PackageTask.partsAfter
  simp

theorem stateAfter_checkHostArch (j : Job) :
    j.checkHostArch.task.stateAfter .failed = j.task.stateAfter .failed := by
  unfold checkHostArch
  cases j.repo.outside.cpuArch with
  | ok arch => rfl
  | error e => exact stateAfter_fail j e

/-- Both checks together let no foreign architecture pass, -/
theorem state_checkArch {j : Job} {ref : Reference} (hforeign : ForeignArch j.repo ref) :
    (j.checkArch ref).task.state = j.task.stateAfter .failed := by
  unfold checkArch
  by_cases harch : ref.arch ≠ currentArch j.repo
  · rw [if_pos harch, state_fail, stateAfter_checkHostArch]
  · rw [if_neg harch]
    -- the host's architecture is not known, and what is read there agrees
    unfold checkHostArch
    cases hhost : j.repo.outside.cpuArch with
    | error e => exact state_fail j e
    | ok arch =>
      refine absurd (hforeign arch hhost) ?_
      unfold currentArch at harch
      rw [hhost] at harch
      exact harch

theorem stateAfter_checkArch (j : Job) (ref : Reference) :
    (j.checkArch ref).task.stateAfter .failed = j.task.stateAfter .failed := by
  unfold checkArch
  split
  · rw [stateAfter_fail, stateAfter_checkHostArch]
  · exact stateAfter_checkHostArch j

/-- but at the first loop only the main state shows it. -/
theorem state_beginInstall {j : Job} {ref : Reference} (hforeign : ForeignArch j.repo ref) :
    (j.beginInstall ref).task.state = j.task.stateAfter .failed ∧
      (j.beginInstall ref).task.stateAfter .failed = j.task.stateAfter .failed := by
  have hsub : ∀ (k : Job) (ss : SubState) (message : String),
      (k.call (.updateSubState ss message)).task.stateAfter .failed =
        k.task.stateAfter .failed := by
    intro k ss message
    unfold call PackageTask.apply PackageTask.stateAfter PackageTask.partsAfter
    simp
  constructor
  · show (PackageTask.updateSubState _ _ _).state = _
    rw [PackageTask.updateSubState_state]
    have hstart : ForeignArch (j.call (.updateSubState .preAction "Beginning to install")).repo ref :=
      hforeign
    rw [state_checkArch hstart, hsub]
  · unfold beginInstall
    rw [hsub, stateAfter_checkArch, hsub]

/-! ## Section 3: The first loop -/

section FirstLoop

variable {ref : Reference} {p : Installing}

/-- Layers whose modules are not requested are skipped. -/
theorem unmarkLoop_of_no_match {items : List RepositoryCacheLayersItem}
    (hactive : p.job.isDone = false) (hreturned : p.returned = false)
    (hmatch : ∀ item ∈ items,
      p.modules.any (sameModule item.info.packageInfoV2Module) = false) :
    unmarkLoop ref items p = p := by
  induction items with
  | nil => rfl
  | cons item rest ih =>
    have hround : unmarkRound ref item p = p := by
      unfold unmarkRound
      rw [hactive, hmatch item (by simp)]
      rfl
    unfold unmarkLoop loopUntil
    rw [hround, hreturned]
    exact ih fun b hb => hmatch b (List.mem_cons_of_mem _ hb)

/-- Once the task is done, both loops only return. -/
theorem unmarkLoop_of_done (items : List RepositoryCacheLayersItem) (hdone : p.job.isDone = true) :
    (unmarkLoop ref items p).job = p.job ∧ (unmarkLoop ref items p).actions = p.actions := by
  cases items with
  | nil => exact ⟨rfl, rfl⟩
  | cons item rest =>
    have hround : unmarkRound ref item p = { p with returned := true } := by
      unfold unmarkRound
      rw [if_pos hdone]
    unfold unmarkLoop loopUntil
    rw [hround]
    exact ⟨rfl, rfl⟩

theorem pullLoop_of_done (modules : List String) (hdone : p.job.isDone = true) :
    (pullLoop ref modules p).job = p.job ∧ (pullLoop ref modules p).actions = p.actions := by
  cases modules with
  | nil => exact ⟨rfl, rfl⟩
  | cons module rest =>
    have hround : pullRound ref module p = { p with returned := true } := by
      unfold pullRound
      rw [if_pos hdone]
    unfold pullLoop loopUntil
    rw [hround]
    exact ⟨rfl, rfl⟩

theorem pulledModules_of_done (modules : List String) (hdone : p.job.isDone = true) :
    pulledModules ref modules p = [] := by
  cases modules with
  | nil => rfl
  | cons module rest =>
    unfold pulledModules
    rw [hdone, Bool.or_true]
    rfl

/-- As long as it is not, the first module is pulled. -/
theorem pulledModules_ne_nil {modules : List String} (hmodules : modules ≠ [])
    (hactive : p.job.isDone = false) (hreturned : p.returned = false) :
    pulledModules ref modules p ≠ [] := by
  cases modules with
  | nil => exact absurd rfl hmodules
  | cons module rest =>
    unfold pulledModules
    rw [hactive, hreturned]
    exact List.cons_ne_nil _ _

end FirstLoop

/-- Taking a mark back does not add a marked layer. -/
theorem not_mem_setDeletedFirst {q : RepositoryCacheLayersItem → Bool}
    {layers : List RepositoryCacheLayersItem} {item : RepositoryCacheLayersItem}
    (hmarked : item.deleted = some true) (h : item ∉ layers) :
    item ∉ setDeletedFirst q none layers := by
  induction layers with
  | nil => exact h
  | cons b layers ih =>
    rw [List.mem_cons, not_or] at h
    unfold setDeletedFirst
    by_cases hq : q b = true
    · rw [if_pos hq, List.mem_cons, not_or]
      refine ⟨?_, h.2⟩
      rintro rfl
      cases hmarked
    · rw [if_neg hq, List.mem_cons, not_or]
      exact ⟨h.1, ih h.2⟩

/-- **Step**: a layer that has lost its mark does not get it back in the first
    loop, -/
theorem not_mem_unmark {j : Job} {ref : Reference} {item : RepositoryCacheLayersItem}
    (hmarked : item.deleted = some true) (h : item ∉ j.repo.view ref) (module : String) :
    item ∉ (j.unmark ref module).repo.view ref := by
  unfold unmark perform
  rcases Repo.markDeleted_cases ref false module j.repo with
    ⟨e, faults, -, hrun, -⟩ | ⟨found, faults, -, -, hrun⟩
  · rw [hrun]
    exact h
  · rw [hrun]
    intro hmem
    obtain ⟨hmem, hlayer⟩ := mem_layersOf.1 hmem
    exact not_mem_setDeletedFirst hmarked (fun hold => h (mem_layersOf.2 ⟨hold, hlayer⟩)) hmem

/-- **Run**: whatever comes after it. -/
theorem not_mem_unmarkLoop {ref : Reference} {item : RepositoryCacheLayersItem}
    (hmarked : item.deleted = some true) {p : Installing} (h : item ∉ p.job.repo.view ref)
    (items : List RepositoryCacheLayersItem) :
    item ∉ (unmarkLoop ref items p).job.repo.view ref := by
  refine loopUntil_rel (R := fun p q : Installing =>
    item ∉ p.job.repo.view ref → item ∉ q.job.repo.view ref) ?_ ?_ ?_ items p h
  · exact fun _ h => h
  · exact fun _ _ _ h h' hold => h' (h hold)
  · intro b q hold
    unfold unmarkRound
    split
    · exact hold
    · split
      · exact not_mem_unmark hmarked hold _
      · exact hold

section Start

variable {j : Job} {ref : Reference} {modules : List String}

/-- With nothing to unmark the second loop starts as the first one does. -/
theorem startPull_of_not_unmarks (h : ¬ Unmarks j.repo ref modules) :
    j.startPull ref modules = j.startUnmark ref modules := by
  refine unmarkLoop_of_no_match (j.beginInstall_isDone ref) rfl fun item hitem => ?_
  rw [← Bool.not_eq_true]
  exact fun hmatch => h ⟨item, hitem, hmatch⟩

/-- Otherwise the first round that does something unmarks a layer. -/
theorem startPull_of_unmarks (h : Unmarks j.repo ref modules) :
    ∃ item post, item ∈ j.repo.view ref ∧ item.deleted = some true ∧
      j.startPull ref modules = unmarkLoop ref post
        ⟨(j.beginInstall ref).unmark ref item.info.packageInfoV2Module,
          modules.eraseP (sameModule item.info.packageInfoV2Module),
          [undoUnmark ref item.info.packageInfoV2Module], false⟩ := by
  let wanted (item : RepositoryCacheLayersItem) : Bool :=
    modules.any (sameModule item.info.packageInfoV2Module)
  cases hfind : (deletedList j.repo ref).find? wanted with
  | none =>
    obtain ⟨item, hitem, hmatch⟩ := h
    exact absurd hmatch (List.find?_eq_none.1 hfind item hitem)
  | some item =>
    obtain ⟨hmatch, pre, post, hlist, hpre⟩ := List.find?_eq_some_iff_append.1 hfind
    obtain ⟨hview, hmarked⟩ := mem_deletedList.1 (List.mem_of_find?_eq_some hfind)
    -- the rounds before the first requested layer do nothing
    have hskip : loopUntil Installing.returned (unmarkRound ref) pre (j.startUnmark ref modules) =
        j.startUnmark ref modules :=
      unmarkLoop_of_no_match (j.beginInstall_isDone ref) rfl fun b hb => by
        have hnot := hpre b hb
        rwa [Bool.not_eq_true'] at hnot
    have hround : unmarkRound ref item (j.startUnmark ref modules) =
        ⟨(j.beginInstall ref).unmark ref item.info.packageInfoV2Module,
          modules.eraseP (sameModule item.info.packageInfoV2Module),
          [undoUnmark ref item.info.packageInfoV2Module], false⟩ := by
      unfold unmarkRound
      have hactive : (j.startUnmark ref modules).job.isDone = false := j.beginInstall_isDone ref
      have hwanted : (j.startUnmark ref modules).modules.any
          (sameModule item.info.packageInfoV2Module) = true := hmatch
      rw [hactive, if_neg (by decide), if_pos hwanted]
      rfl
    refine ⟨item, post, hview, hmarked, ?_⟩
    unfold startPull unmarkLoop
    rw [hlist, loopUntil_append pre _ rfl, hskip]
    show (if (unmarkRound ref item (j.startUnmark ref modules)).returned then _
      else loopUntil Installing.returned (unmarkRound ref) post
        (unmarkRound ref item (j.startUnmark ref modules))) = _
    rw [hround]
    rfl

end Start

/-- Unmarking a layer that is found, with the next write in view. -/
theorem unmark_of_found {j : Job} {ref : Reference} (hunique : UniqueModules (j.repo.view ref))
    {item : RepositoryCacheLayersItem} (hitem : item ∈ j.repo.view ref)
    (hmarked : item.deleted = some true) :
    (CacheCall.WriteFails j.repo ∧ j.unmark ref item.info.packageInfoV2Module =
        fail { j with repo := j.repo.popFault .writeCache } "install failed") ∨
    (¬ CacheCall.WriteFails j.repo ∧
      item ∉ (j.unmark ref item.info.packageInfoV2Module).repo.view ref) := by
  have hfound : j.repo.getLayerItem ref item.info.packageInfoV2Module none = .ok item :=
    Repo.getLayerItem_eq hunique hitem rfl
  unfold unmark perform CacheCall.WriteFails
  rcases Repo.markDeleted_of_found hfound false with ⟨hhead, hrun⟩ | ⟨hhead, hrun⟩
  · left
    rw [hrun]
    exact ⟨hhead, rfl⟩
  · right
    rw [hrun, hhead]
    refine ⟨by decide, ?_⟩
    show item ∉ layersOf ref (setDeletedFirst item.matchesItem none j.repo.layers)
    rw [layersOf_setDeletedFirst hunique hitem]
    intro hmem
    -- the layers with this module have no mark now
    obtain ⟨b, -, hb⟩ := List.mem_map.1 hmem
    by_cases hname : b.moduleName = item.moduleName
    · rw [if_pos hname] at hb
      rw [← hb] at hmarked
      cases hmarked
    · rw [if_neg hname] at hb
      exact hname (by rw [hb])

/-- Marking a layer that is marked changes nothing. -/
theorem view_undoUnmark {s : Repo} {ref : Reference} (hunique : UniqueModules (s.view ref))
    {item : RepositoryCacheLayersItem} (hitem : item ∈ s.view ref)
    (hmarked : item.deleted = some true) :
    (undoUnmark ref item.info.packageInfoV2Module s).view ref = s.view ref := by
  have hfound : s.getLayerItem ref item.info.packageInfoV2Module none = .ok item :=
    Repo.getLayerItem_eq hunique hitem rfl
  unfold undoUnmark
  rcases Repo.markDeleted_of_found hfound true with ⟨-, hrun⟩ | ⟨-, hrun⟩
  · rw [after_of_error hrun]
    rfl
  · rw [after_of_ok hrun]
    have hitem' := Repo.getLayerItem_eq_ok_iff.1 hfound
    show layersOf ref (setDeletedFirst item.matchesItem (some true) s.layers) = _
    rw [layersOf_setDeletedFirst_only (withModule_of_findLayer hitem')]
    refine setMarks_eq_self fun b hb hname => ?_
    rw [eq_of_findLayer hitem' hb (List.mem_singleton.1 hname)]
    exact hmarked

/-! ## Section 4: When the guard holds -/

section Guard

variable {j : Job} {ref : Reference} {modules : List String}

/-- Without modules the function ends where it begins. -/
theorem guarded_nil_iff (hforeign : ForeignArch j.repo ref) :
    Guarded j ref [] ↔ j.task.taskParts.toNat ≠ j.task.refs.size := by
  have hnone : ¬ Unmarks j.repo ref [] := by
    rintro ⟨item, -, hmatch⟩
    cases hmatch
  have hstart := startPull_of_not_unmarks hnone
  have hrun : j.installRef ref [] = j.beginInstall ref := by
    unfold installRef
    rw [installLoops_eq, hstart]
    rfl
  rw [← stateAfter_failed_iff, ← (state_beginInstall hforeign).1]
  constructor
  · intro h
    rw [← hrun]
    exact h.failed
  · intro hfailed
    refine ⟨?_, ?_, ?_, ?_⟩
    · rw [hstart]
      rfl
    · rw [hstart]
      exact congrArg (Repo.view · ref) (j.beginInstall_repo ref)
    · rw [hrun, beginInstall_repo]
    · rw [hrun]
      exact hfailed

/-- A module without marked layer is pulled. -/
theorem not_guarded_of_not_unmarks (hmodules : modules ≠ [])
    (h : ¬ Unmarks j.repo ref modules) : ¬ Guarded j ref modules := by
  intro hguarded
  have hpulls := hguarded.pulls
  rw [startPull_of_not_unmarks h] at hpulls
  exact pulledModules_ne_nil hmodules (j.beginInstall_isDone ref) rfl hpulls

/-- If the first layer cannot be unmarked, both loops return at once. -/
theorem guarded_iff_of_done {items : List RepositoryCacheLayersItem} {p : Installing}
    (hstart : j.startPull ref modules = unmarkLoop ref items p) (hdone : p.job.isDone = true)
    (hunique : UniqueModules (j.repo.view ref)) {item : RepositoryCacheLayersItem}
    (hitem : item ∈ j.repo.view ref) (hmarked : item.deleted = some true)
    (hview : p.job.repo.view ref = j.repo.view ref)
    (hactions : p.actions = [undoUnmark ref item.info.packageInfoV2Module]) :
    Guarded j ref modules ↔ p.job.task.state = .failed := by
  have hloop : (unmarkLoop ref items p).job = p.job ∧ (unmarkLoop ref items p).actions = p.actions :=
    unmarkLoop_of_done items hdone
  rw [← hstart] at hloop
  have hdone' : (j.startPull ref modules).job.isDone = true := by
    rw [hloop.1]
    exact hdone
  obtain ⟨hjob, hundo⟩ : ((j.beginInstall ref).installLoops ref modules).job = p.job ∧
      ((j.beginInstall ref).installLoops ref modules).actions = p.actions := by
    rw [installLoops_eq]
    split
    · exact hloop
    · obtain ⟨hjob, hundo⟩ := pullLoop_of_done (j.startPull ref modules).modules hdone'
      exact ⟨hjob.trans hloop.1, hundo.trans hloop.2⟩
  have hstate : (j.installRef ref modules).task.state = p.job.task.state := by
    unfold installRef Installing.finish
    split <;> rw [← hjob]
  constructor
  · intro h
    rw [← hstate]
    exact h.failed
  · intro hfailed
    refine ⟨pulledModules_of_done _ hdone', by rw [hloop.1, hview], ?_, hstate.trans hfailed⟩
    unfold installRef Installing.finish
    rw [hjob, hundo, hactions]
    split
    · -- the undo action marks a layer that is still marked
      show (undoUnmark ref item.info.packageInfoV2Module p.job.repo).view ref = _
      rw [view_undoUnmark (by rwa [hview]) (by rwa [hview]) hmarked, hview]
    · exact hview

/-- A marked layer loses its mark, or the write fails and stops the rest. -/
theorem guarded_iff_of_unmarks (hforeign : ForeignArch j.repo ref)
    (hunique : UniqueModules (j.repo.view ref)) (h : Unmarks j.repo ref modules) :
    Guarded j ref modules ↔
      j.task.taskParts.toNat ≠ j.task.refs.size ∧ CacheCall.WriteFails j.repo := by
  obtain ⟨item, post, hitem, hmarked, hstart⟩ := startPull_of_unmarks h
  have hrepo : (j.beginInstall ref).repo = j.repo := j.beginInstall_repo ref
  have hround := unmark_of_found (j := j.beginInstall ref) (by rwa [hrepo])
    (by rwa [hrepo]) hmarked
  rw [hrepo] at hround
  rcases hround with ⟨hfails, hunmark⟩ | ⟨hworks, hgone⟩
  · -- failing makes the task done, and the main state was set by the guard
    rw [hunmark] at hstart
    rw [guarded_iff_of_done hstart (isDone_fail _ _) hunique hitem hmarked rfl rfl, state_fail,
      ← stateAfter_failed_iff]
    show (j.beginInstall ref).task.stateAfter .failed = .failed ↔ _
    rw [(state_beginInstall hforeign).2]
    exact ⟨fun hfailed => ⟨hfailed, hfails⟩, fun hboth => hboth.1⟩
  · -- the mark is gone before the second loop begins
    refine iff_of_false (fun hguarded => ?_) fun hfails => hworks hfails.2
    have hlost : item ∉ (j.startPull ref modules).job.repo.view ref := by
      rw [hstart]
      exact not_mem_unmarkLoop hmarked hgone post
    rw [hguarded.marks] at hlost
    exact hlost hitem

/-- **The guard**: with any module it fails for some cache, without modules it
    holds if a part of the task is left. On a cache with one layer for each
    module, it holds otherwise only if the first write fails. -/
theorem guarded_iff {task : PackageTask} {ref : Reference} {modules : List String} :
    ((∀ s, ForeignArch s ref → Guarded ⟨s, task⟩ ref modules) ↔
      modules = [] ∧ task.taskParts.toNat ≠ task.refs.size) ∧
    ∀ s, ForeignArch s ref → UniqueModules (s.view ref) → (Guarded ⟨s, task⟩ ref modules ↔
      task.taskParts.toNat ≠ task.refs.size ∧
        (modules = [] ∨ Unmarks s ref modules ∧ CacheCall.WriteFails s)) := by
  have hlocal : ∀ s, ForeignArch s ref → UniqueModules (s.view ref) →
      (Guarded ⟨s, task⟩ ref modules ↔ task.taskParts.toNat ≠ task.refs.size ∧
        (modules = [] ∨ Unmarks s ref modules ∧ CacheCall.WriteFails s)) := by
    intro s hforeign hunique
    -- nothing to do, a mark to take back first, or a module to pull first
    by_cases hmodules : modules = []
    · subst hmodules
      simpa using guarded_nil_iff (j := ⟨s, task⟩) hforeign
    by_cases hunmarks : Unmarks s ref modules
    · simpa [hmodules, hunmarks] using guarded_iff_of_unmarks (j := ⟨s, task⟩) hforeign hunique
        hunmarks
    · have hnot := not_guarded_of_not_unmarks (j := ⟨s, task⟩) hmodules hunmarks
      simpa [hmodules, hunmarks] using hnot
  refine ⟨⟨fun h => ?_, ?_⟩, hlocal⟩
  · -- an empty cache on a host that is not known
    let s : Repo := .ofLayers { Outside.ofCommits [] with cpuArch := .error "" } [] [] []
    have hforeign : ForeignArch s ref := fun arch harch => nomatch harch
    obtain ⟨hparts, hcase⟩ := (hlocal s hforeign List.nodup_nil).1 (h s hforeign)
    refine ⟨hcase.resolve_right fun hboth => ?_, hparts⟩
    obtain ⟨item, hitem, -⟩ := hboth.1
    exact nomatch (mem_deletedList.1 hitem).1
  · rintro ⟨rfl, hparts⟩ s hforeign
    exact (guarded_nil_iff (j := ⟨s, task⟩) hforeign).2 hparts

/-- A task on a host with `x86_64`, whose pulls succeed. -/
def hostJob : Job where
  repo := .ofLayers (.ofCommits [("c1", .onMain "chess" "1.0.0.0" "binary")]) []
    [⟨[], fun _ => .ok "c1"⟩] []
  task := .create "1" (.single "stable:main/chess/arm64/binary")

/-- A reference for another architecture. -/
def chessRef : Reference := { Reference.onMain "chess" 0 (by decide) with arch := .arm64 }

theorem foreignArch_chessRef : ForeignArch hostJob.repo chessRef := by
  intro arch harch
  cases harch
  decide

/-- There is nothing to install. -/
theorem guarded_chessRef : Guarded hostJob chessRef [] :=
  (guarded_iff.2 hostJob.repo foreignArch_chessRef List.nodup_nil).2 ⟨by decide, .inl rfl⟩

/-- The module is pulled all the same. -/
theorem not_guarded : ¬ ∀ (j : Job) (ref : Reference) (modules : List String),
    ForeignArch j.repo ref → Guarded j ref modules := by
  intro h
  have hpulls := (h hostJob chessRef ["binary"] foreignArch_chessRef).pulls
  have hpulled : pulledModules chessRef (hostJob.startPull chessRef ["binary"]).modules
      (hostJob.startPull chessRef ["binary"]) = ["binary"] := rfl
  rw [hpulled] at hpulls
  cases hpulls

end Guard

end Job

end Linglong
