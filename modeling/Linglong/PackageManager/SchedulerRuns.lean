import Linglong.PackageManager.Scheduler

/-! # Runs of the Task Scheduler

    What holds in every run of the scheduler, and under which condition on
    its steps.

    * **Mutual exclusion, at most once** (`exclusive_of_meets`). A job that
      was started by `TaskListChanged("")` runs with an empty marker. If
      that job spins a nested event loop and a signal is delivered there,
      the guard of the handler is passed once more. Without such a
      delivery, at most one job is active and no job is started twice.
    * **No stuck task** (`drained_of_meets`). A marker stored without
      starting a job is never cleared, and a task that leaves `Queued`
      while it waits is never started. Without these, a quiescent scheduler
      has an empty task list.
-/

namespace Linglong

namespace Scheduler

open Framework

/-! ## Section 1: What one step can do -/

/-- The first branch of the handler, taken when a marker is stored. -/
theorem onTaskListChanged_running {s : Scheduler} (h : s.runningTaskObjectPath ≠ "")
    (p : String) : s.onTaskListChanged p = s.notifyWaiting := by
  simp [onTaskListChanged, h]

/-- The second branch of the handler, taken when no marker is stored. -/
theorem onTaskListChanged_idle {s : Scheduler} (h : s.runningTaskObjectPath = "")
    (p : String) : s.onTaskListChanged p = s.startNext p := by
  simp [onTaskListChanged, h]

/-- Every step of the scheduler, with its guards. -/
theorem next_cases {s s' : Scheduler} {e : Event} (h : s.next e = some s') :
    (∃ kind taskID refs, e = .request kind taskID refs ∧ s.looping = true ∧
      (kind = .update ∨ refs.size = 1) ∧
      (newTask kind taskID refs).taskObjectPath ∉ s.created ∧
      s' = s.addTask (newTask kind taskID refs)) ∨
    (∃ i p, e = .deliver i ∧ s.looping = true ∧ s.pending[i]? = some p ∧
      s' = (s.popSignal i).onTaskListChanged p) ∨
    (∃ path, e = .cancel path ∧ s.looping = true ∧
      s' = s.modifyTask path PackageTask.cancel) ∨
    (∃ c path rest, e = .call c ∧ s.stack = ⟨path, false⟩ :: rest ∧
      s' = s.modifyTask path fun t => t.apply c) ∨
    (∃ path b rest, (e = .enterLoop ∨ e = .leaveLoop) ∧ s.stack = ⟨path, b⟩ :: rest ∧
      s' = { s with stack := ⟨path, !b⟩ :: rest }) ∨
    (∃ path rest, e = .finish ∧ s.stack = ⟨path, false⟩ :: rest ∧
      s' = s.jobReturned ⟨path, false⟩ rest) := by
  -- the guard of each event, and what it leaves
  cases e with
  | request kind taskID refs =>
    simp only [next] at h
    split at h
    · next hguard =>
      exact .inl ⟨kind, taskID, refs, rfl, hguard.1, hguard.2.1, hguard.2.2,
        (Option.some.inj h).symm⟩
    · cases h
  | deliver i =>
    simp only [next] at h
    split at h
    · next hloop =>
      split at h
      · next p hp => exact .inr (.inl ⟨i, p, rfl, hloop, hp, (Option.some.inj h).symm⟩)
      · cases h
    · cases h
  | cancel path =>
    simp only [next] at h
    split at h
    · next hloop => exact .inr (.inr (.inl ⟨path, rfl, hloop, (Option.some.inj h).symm⟩))
    · cases h
  | call c =>
    simp only [next] at h
    split at h
    · next path rest hst =>
      exact .inr (.inr (.inr (.inl ⟨c, path, rest, rfl, hst, (Option.some.inj h).symm⟩)))
    · cases h
  | enterLoop =>
    simp only [next] at h
    split at h
    · next path rest hst =>
      exact .inr (.inr (.inr (.inr (.inl
        ⟨path, false, rest, .inl rfl, hst, (Option.some.inj h).symm⟩))))
    · cases h
  | leaveLoop =>
    simp only [next] at h
    split at h
    · next path rest hst =>
      exact .inr (.inr (.inr (.inr (.inl
        ⟨path, true, rest, .inr rfl, hst, (Option.some.inj h).symm⟩))))
    · cases h
  | finish =>
    simp only [next] at h
    split at h
    · next path rest hst =>
      exact .inr (.inr (.inr (.inr (.inr ⟨path, rest, rfl, hst, (Option.some.inj h).symm⟩))))
    · cases h

/-! ### Paths of the tasks -/

/-- The object paths of the listed tasks. -/
def paths (s : Scheduler) : List String := s.taskList.map PackageTask.taskObjectPath

theorem mem_paths {s : Scheduler} {t : PackageTask} (h : t ∈ s.taskList) :
    t.taskObjectPath ∈ s.paths := List.mem_map_of_mem h

theorem paths_modifyTask (s : Scheduler) (path : String) {f : PackageTask → PackageTask}
    (hf : ∀ t, (f t).taskObjectPath = t.taskObjectPath) :
    (s.modifyTask path f).paths = s.paths := by
  unfold paths modifyTask
  rw [List.map_map]
  apply List.map_congr_left
  intro t _
  simp only [Function.comp_apply]
  split
  · exact hf t
  · rfl

@[simp] theorem paths_notifyWaiting (s : Scheduler) : s.notifyWaiting.paths = s.paths := by
  unfold paths notifyWaiting
  rw [List.map_map]
  apply List.map_congr_left
  intro t _
  simp only [Function.comp_apply]
  split <;> simp

@[simp] theorem paths_startNext (s : Scheduler) (p : String) : (s.startNext p).paths = s.paths := by
  unfold startNext; split <;> rfl

theorem paths_addTask (s : Scheduler) (t : PackageTask) :
    (s.addTask t).paths = s.paths ++ [t.taskObjectPath] := by
  simp [paths, addTask]

theorem paths_jobReturned (s : Scheduler) (f : Frame) (rest : List Frame) :
    (s.jobReturned f rest).paths = s.paths.filter fun p => p ≠ f.path := by
  simp [paths, jobReturned, List.filter_map, Function.comp_def]

/-! ## Section 2: Mutual exclusion and at most one execution -/

/-- No signal is delivered inside a job that runs with an empty marker, that
    is, inside a job that was started by `TaskListChanged("")`. -/
def markedDelivery (s : Scheduler) : Event → Prop
  | .deliver _ => s.stack ≠ [] → s.runningTaskObjectPath ≠ ""
  | _ => True

instance (s : Scheduler) : ∀ e, Decidable (s.markedDelivery e)
  | .deliver _ => inferInstanceAs (Decidable (_ → _))
  | .request .. | .cancel _ | .call _ | .enterLoop | .leaveLoop | .finish => isTrue trivial

/-- The invariant behind mutual exclusion: paths are unique, and a job that
    was started is either the active one or its task has left the list. -/
structure Exclusive (s : Scheduler) : Prop where
  paths_nodup : s.paths.Nodup
  paths_created : ∀ p ∈ s.paths, p ∈ s.created
  executed_created : ∀ p ∈ s.executed, p ∈ s.created
  single : s.stack.length ≤ 1
  once : s.executed.Nodup
  gone : ∀ p ∈ s.executed, p ∈ s.paths → s.active p = true

theorem exclusive_init : Exclusive init := by
  constructor <;> simp [init, paths]

/-- Steps that change neither the paths nor the logs keep the invariant. -/
theorem Exclusive.congr {s s' : Scheduler} (h : Exclusive s) (hpaths : s'.paths = s.paths)
    (hcreated : s'.created = s.created) (hexec : s'.executed = s.executed)
    (hstack : s'.stack.map Frame.path = s.stack.map Frame.path) : Exclusive s' := by
  have hactive : ∀ p, s'.active p = s.active p := by
    intro p
    have : ∀ st : List Frame, (st.any fun f => f.path == p) = (st.map Frame.path).any (· == p) := by
      intro st; rw [List.any_map]; rfl
    rw [active, active, this, this, hstack]
  constructor
  · rw [hpaths]; exact h.paths_nodup
  · rw [hpaths, hcreated]; exact h.paths_created
  · rw [hexec, hcreated]; exact h.executed_created
  · have := congrArg List.length hstack
    rw [List.length_map, List.length_map] at this
    rw [this]; exact h.single
  · rw [hexec]; exact h.once
  · intro p hp hmem
    rw [hactive]
    exact h.gone p (hexec ▸ hp) (hpaths ▸ hmem)

/-- A fresh path at the end keeps the paths different and recorded. -/
theorem fresh_paths {paths created : List String} (hnodup : paths.Nodup)
    (hcreated : ∀ p ∈ paths, p ∈ created) {path : String} (hfresh : path ∉ created) :
    (paths ++ [path]).Nodup ∧ ∀ p ∈ paths ++ [path], p ∈ path :: created := by
  have hnot : path ∉ paths := fun hp => hfresh (hcreated path hp)
  refine ⟨?_, ?_⟩
  · rw [← List.concat_eq_append]
    exact hnodup.concat hnot
  · intro p hp
    rw [List.mem_append, List.mem_singleton] at hp
    rcases hp with hp | rfl
    · exact List.mem_cons_of_mem _ (hcreated p hp)
    · exact List.mem_cons_self

theorem exclusive_addTask {s : Scheduler} (h : Exclusive s) {t : PackageTask}
    (hfresh : t.taskObjectPath ∉ s.created) : Exclusive (s.addTask t) := by
  have hpaths := fresh_paths h.paths_nodup h.paths_created hfresh
  constructor
  · rw [paths_addTask]
    exact hpaths.1
  · rw [paths_addTask]
    exact hpaths.2
  · intro p hp
    exact List.mem_cons_of_mem _ (h.executed_created p hp)
  · exact h.single
  · exact h.once
  · intro p hp hmem
    rw [paths_addTask, List.mem_append, List.mem_singleton] at hmem
    rcases hmem with hmem | rfl
    · exact h.gone p hp hmem
    · exact absurd (h.executed_created _ hp) hfresh

/-- With no active job, starting the next task keeps the invariant: what was
    started before has left the list. -/
theorem exclusive_startNext {s : Scheduler} (h : Exclusive s) (hidle : s.stack = [])
    (p : String) : Exclusive (s.startNext p) := by
  unfold startNext
  split
  · exact h.congr rfl rfl rfl rfl
  · next t ht =>
    have hmem : t ∈ s.taskList := List.mem_of_find?_eq_some ht
    have hnew : t.taskObjectPath ∉ s.executed := by
      intro hex
      have := h.gone _ hex (mem_paths hmem)
      simp [active, hidle] at this
    refine ⟨h.paths_nodup, h.paths_created, ?_, by simp [hidle], ?_, ?_⟩
    · intro q hq
      rcases List.mem_cons.1 hq with rfl | hq
      · exact h.paths_created _ (mem_paths hmem)
      · exact h.executed_created q hq
    · exact List.nodup_cons.2 ⟨hnew, h.once⟩
    · intro q hq hqmem
      rcases List.mem_cons.1 hq with rfl | hq
      · simp [active]
      · have := h.gone q hq hqmem
        simp [active, hidle] at this

theorem exclusive_jobReturned {s : Scheduler} (h : Exclusive s) {f : Frame}
    {rest : List Frame} (hstack : s.stack = f :: rest) : Exclusive (s.jobReturned f rest) := by
  have hrest : rest = [] := by
    have := h.single
    rw [hstack, List.length_cons] at this
    exact List.eq_nil_of_length_eq_zero (by omega)
  constructor
  · rw [paths_jobReturned]; exact h.paths_nodup.filter _
  · intro p hp
    rw [paths_jobReturned] at hp
    exact h.paths_created p (List.mem_of_mem_filter hp)
  · exact h.executed_created
  · simp [jobReturned, hrest]
  · exact h.once
  · intro p hp hmem
    rw [paths_jobReturned, List.mem_filter] at hmem
    have hact := h.gone p hp hmem.1
    -- the only active job was `f`, whose task has just been erased
    simp only [active, hstack, hrest, List.any_cons, List.any_nil, Bool.or_false,
      beq_iff_eq] at hact
    simp [hact] at hmem

/-- **Step**: a delivery outside unmarked jobs preserves the invariant, and
    so does every other event. -/
theorem exclusive_step (s : Scheduler) (e : Event) (s' : Scheduler) (h : Exclusive s)
    (hok : s.markedDelivery e) (hnext : machine.next s e = some s') : Exclusive s' := by
  rcases next_cases hnext with ⟨kind, id, refs, rfl, -, -, hfresh, rfl⟩ |
    ⟨i, p, rfl, -, -, rfl⟩ | ⟨path, rfl, -, rfl⟩ | ⟨c, path, rest, rfl, -, rfl⟩ |
    ⟨path, b, rest, -, hstack, rfl⟩ | ⟨path, rest, rfl, hstack, rfl⟩
  · exact exclusive_addTask h hfresh
  · -- a delivery: only the idle branch starts a job, and then no job is active
    have hpop : Exclusive (s.popSignal i) := h.congr rfl rfl rfl rfl
    by_cases hrun : s.runningTaskObjectPath = ""
    · have hidle : s.stack = [] := by
        by_contra hne
        exact hok hne hrun
      rw [onTaskListChanged_idle (s := s.popSignal i) hrun]
      exact exclusive_startNext hpop hidle p
    · rw [onTaskListChanged_running (s := s.popSignal i) hrun]
      exact hpop.congr (paths_notifyWaiting _) rfl rfl rfl
  · exact h.congr (paths_modifyTask s path PackageTask.cancel_taskObjectPath) rfl rfl rfl
  · exact h.congr (paths_modifyTask s path fun t => t.apply_taskObjectPath c) rfl rfl rfl
  · exact h.congr rfl rfl rfl (by simp [hstack])
  · exact exclusive_jobReturned h hstack

/-- **Run**: in every run without a delivery inside a job that was started
    by `TaskListChanged("")`, at most one job is active and no task's job is
    started twice, in every state reached. -/
theorem exclusive_of_meets (events : List Event) (s : Scheduler)
    (hmeets : machine.Meets markedDelivery init events)
    (hexec : machine.exec init events = some s) :
    s.stack.length ≤ 1 ∧ s.executed.Nodup := by
  have h : Exclusive s := machine.invariant_of_meets exclusive_step exclusive_init hmeets hexec
  exact ⟨h.single, h.once⟩

/-- A second request arrives and is delivered while the first job waits in
    its nested loop. -/
def nestedRequest : List Event :=
  [.request .install "a" (.single "stable:main/a/x86_64/binary"), .deliver 0, .enterLoop,
    .request .uninstall "b" (.single "stable:main/b/x86_64/binary"), .deliver 0]

/-- There the marker is set, so the second job has to wait. -/
theorem exclusive_nestedRequest :
    ∃ s, machine.exec init nestedRequest = some s ∧
      s.stack.length ≤ 1 ∧ s.executed.Nodup := by
  obtain ⟨s, hs⟩ := machine.exists_of_exec_isSome init nestedRequest (by decide)
  exact ⟨s, hs, exclusive_of_meets nestedRequest s (by decide) hs⟩

/-- The unmarked delivery: `b` waits behind `a` and is then started by
    `TaskListChanged("")`. While its job waits for an interaction reply (its
    state is still `Queued`), the signal of a third request starts the very
    same job again. -/
theorem not_exclusive :
    ¬ ∀ (events : List Event) (s : Scheduler), machine.exec init events = some s →
      s.stack.length ≤ 1 ∧ s.executed.Nodup := by
  intro h
  have := (h [.request .install "a" (.single "stable:main/a/x86_64/binary"), .deliver 0, .enterLoop,
    .request .install "b" (.single "stable:main/b/x86_64/binary"), .deliver 0, .leaveLoop, .finish,
    .deliver 0, .enterLoop,
    .request .install "c" (.single "stable:main/c/x86_64/binary"), .deliver 0] _ rfl).1
  exact absurd this (by decide)

/-! ## Section 3: No stuck task -/

/-- The steps after which nothing is left behind: a `Cancel` hits only a
    task whose job is active; a delivery that passes the guard either
    carries no path or finds a task to start, and never one whose job is
    active already; a delivery that is held back finds no waiting task that
    `updateState` would turn into `succeed`. -/
def leavesNothing (s : Scheduler) : Event → Prop
  | .cancel path => s.active path = true ∨ path ∉ s.paths
  | .deliver i =>
      if s.runningTaskObjectPath = "" then
        (s.nextTask = none → s.pending[i]? = some "") ∧
          ∀ t ∈ s.nextTask, s.active t.taskObjectPath = false
      else ∀ t ∈ s.taskList, s.active t.taskObjectPath = false → t.stateAfter .queued = .queued
  | _ => True

instance (s : Scheduler) : ∀ e, Decidable (s.leavesNothing e)
  | .cancel _ => inferInstanceAs (Decidable (_ ∨ _))
  | .deliver i => inferInstanceAs (Decidable (if s.runningTaskObjectPath = "" then
        (s.nextTask = none → s.pending[i]? = some "") ∧
          ∀ t ∈ s.nextTask, s.active t.taskObjectPath = false
      else ∀ t ∈ s.taskList, s.active t.taskObjectPath = false → t.stateAfter .queued = .queued))
  | .request .. | .call _ | .enterLoop | .leaveLoop | .finish => isTrue trivial

/-- The invariant behind progress: a stored marker belongs to an active job,
    every listed task that is not active can be started, and while no job is
    active a non-empty list has a signal on its way. -/
structure Drains (s : Scheduler) : Prop where
  paths_nodup : s.paths.Nodup
  paths_created : ∀ p ∈ s.paths, p ∈ s.created
  marker : s.runningTaskObjectPath ≠ "" → s.stack ≠ []
  waiting : ∀ t ∈ s.taskList, s.active t.taskObjectPath = false → startable t = true
  signal : s.stack = [] → s.taskList ≠ [] → s.pending ≠ []

theorem drains_init : Drains init := by
  constructor <;> simp [init, paths]

theorem stateAfter_newTask {kind : RequestKind} {taskID : String} {refs : QStringList}
    (h : kind = .update ∨ refs.size = 1) : startable (newTask kind taskID refs) = true := by
  unfold newTask
  split
  · next hk =>
    have hsize : refs.size = 1 := by
      rcases h with h | h
      · rw [hk] at h; cases h
      · exact h
    simp [startable, PackageTask.stateAfter, PackageTask.partsAfter, PackageTask.setJob,
      PackageTask.create, hsize]
  · rfl

/-- Steps on the active tasks only keep the invariant. -/
theorem Drains.modify_active {s : Scheduler} (h : Drains s) {path : String}
    {f : PackageTask → PackageTask} (hf : ∀ t, (f t).taskObjectPath = t.taskObjectPath)
    (hact : s.active path = true ∨ path ∉ s.paths) : Drains (s.modifyTask path f) := by
  have hpaths := paths_modifyTask s path hf
  refine ⟨hpaths ▸ h.paths_nodup, hpaths ▸ h.paths_created, h.marker, ?_, ?_⟩
  · intro t ht hna
    obtain ⟨u, hu, rfl⟩ := List.mem_map.1 ht
    by_cases hup : u.taskObjectPath = path
    · -- the modified task is active, so it is not one that waits
      rw [if_pos hup, hf, hup] at hna
      rcases hact with hact | hnot
      · exact absurd hact (by rw [show s.active path = false from hna]; decide)
      · exact absurd (hup ▸ mem_paths hu) hnot
    · rw [if_neg hup] at hna ⊢
      exact h.waiting u hu hna
  · intro hst hne
    refine h.signal hst ?_
    intro hnil
    exact hne (by simp [modifyTask, hnil])

theorem drains_addTask {s : Scheduler} (h : Drains s) {t : PackageTask}
    (hstart : startable t = true) (hfresh : t.taskObjectPath ∉ s.created) :
    Drains (s.addTask t) := by
  have hpaths := fresh_paths h.paths_nodup h.paths_created hfresh
  refine ⟨?_, ?_, h.marker, ?_, ?_⟩
  · rw [paths_addTask]
    exact hpaths.1
  · rw [paths_addTask]
    exact hpaths.2
  · intro u hu hna
    rcases List.mem_append.1 hu with hu | hu
    · exact h.waiting u hu hna
    · rw [List.mem_singleton.1 hu]; exact hstart
  · intro _ _
    simp [addTask]

theorem startable_updateState_queued {t : PackageTask} (hstart : startable t = true)
    (hst : t.stateAfter .queued = .queued) (msg : String) :
    startable (t.updateState .queued msg none) = true := by
  have hjob : t.hasJob = true := by
    simp only [startable, Bool.and_eq_true] at hstart
    exact hstart.1
  simp [startable, hjob, hst]

theorem drains_notifyWaiting {s : Scheduler} (h : Drains s)
    (hkeep : ∀ t ∈ s.taskList, s.active t.taskObjectPath = false →
      t.stateAfter .queued = .queued)
    (hactive : s.stack ≠ []) : Drains s.notifyWaiting := by
  refine ⟨(paths_notifyWaiting s).symm ▸ h.paths_nodup,
    (paths_notifyWaiting s).symm ▸ h.paths_created, h.marker, ?_, fun hnil => absurd hnil hactive⟩
  intro t ht hna
  obtain ⟨u, hu, rfl⟩ := List.mem_map.1 ht
  by_cases hskip : (!u.hasJob || u.taskObjectPath == s.runningTaskObjectPath) = true
  · rw [if_pos hskip] at hna ⊢
    exact h.waiting u hu hna
  · rw [if_neg hskip] at hna ⊢
    rw [PackageTask.updateState_taskObjectPath] at hna
    exact startable_updateState_queued (h.waiting u hu hna) (hkeep u hu hna) _

/-- Without a task to start, a scheduler with no active job has no task. -/
theorem taskList_eq_nil_of_nextTask {s : Scheduler} (h : Drains s) (hidle : s.stack = [])
    (hnone : s.nextTask = none) : s.taskList = [] := by
  cases hlist : s.taskList with
  | nil => rfl
  | cons t ts =>
    have hmem : t ∈ s.taskList := hlist ▸ List.mem_cons_self
    have hst := h.waiting t hmem (by simp [active, hidle])
    rw [nextTask, List.find?_eq_none] at hnone
    exact absurd hst (hnone t hmem)

theorem drains_startNext {s : Scheduler} (h : Drains s) {p : String} {i : Nat}
    (hmark : s.nextTask = none → p = "") : Drains ((s.popSignal i).startNext p) := by
  have hnext : (s.popSignal i).nextTask = s.nextTask := rfl
  unfold startNext
  rw [hnext]
  split
  · next hnone =>
    refine ⟨h.paths_nodup, h.paths_created, ?_, h.waiting, ?_⟩
    · intro hne
      exact absurd (hmark hnone) hne
    · intro hidle hne
      exact absurd (taskList_eq_nil_of_nextTask h hidle hnone) hne
  · next t _ =>
    refine ⟨h.paths_nodup, h.paths_created, ?_, ?_, ?_⟩
    · intro _ hnil
      cases hnil
    · intro u hu hna
      refine h.waiting u hu ?_
      simp only [active, List.any_cons, Bool.or_eq_false_iff] at hna
      exact hna.2
    · intro hnil
      cases hnil

theorem drains_jobReturned {s : Scheduler} (h : Drains s) {f : Frame} {rest : List Frame}
    (hstack : s.stack = f :: rest) : Drains (s.jobReturned f rest) := by
  refine ⟨?_, ?_, ?_, ?_, ?_⟩
  · rw [paths_jobReturned]; exact h.paths_nodup.filter _
  · intro p hp
    rw [paths_jobReturned] at hp
    exact h.paths_created p (List.mem_of_mem_filter hp)
  · intro hne
    exact absurd rfl hne
  · intro t ht hna
    obtain ⟨ht, hne⟩ := List.mem_filter.1 ht
    refine h.waiting t ht ?_
    -- the task of the frame that left the stack has been erased
    have hfp : (f.path == t.taskObjectPath) = false := by
      rw [beq_eq_false_iff_ne]
      exact fun heq => (of_decide_eq_true hne) heq.symm
    rw [active, hstack, List.any_cons, hfp, Bool.false_or]
    exact hna
  · intro _ _
    simp [jobReturned]

/-- **Step**: the steps that leave nothing behind preserve the invariant. -/
theorem drains_step (s : Scheduler) (e : Event) (s' : Scheduler) (h : Drains s)
    (hok : s.leavesNothing e) (hnext : machine.next s e = some s') : Drains s' := by
  rcases next_cases hnext with ⟨kind, id, refs, rfl, -, hrefs, hfresh, rfl⟩ |
    ⟨i, p, rfl, -, hp, rfl⟩ | ⟨path, rfl, -, rfl⟩ | ⟨c, path, rest, rfl, hstack, rfl⟩ |
    ⟨path, b, rest, -, hstack, rfl⟩ | ⟨path, rest, rfl, hstack, rfl⟩
  · exact drains_addTask h (stateAfter_newTask hrefs) hfresh
  · -- the signal starts the next task, or it finds one running
    by_cases hrun : s.runningTaskObjectPath = ""
    · rw [onTaskListChanged_idle (s := s.popSignal i) hrun]
      simp only [leavesNothing, if_pos hrun] at hok
      refine drains_startNext h ?_
      intro hnone
      have := hok.1 hnone
      rw [hp] at this
      exact Option.some.inj this
    · rw [onTaskListChanged_running (s := s.popSignal i) hrun]
      simp only [leavesNothing, if_neg hrun] at hok
      have hactive := h.marker hrun
      have hpop : Drains (s.popSignal i) :=
        ⟨h.paths_nodup, h.paths_created, h.marker, h.waiting, fun hnil => absurd hnil hactive⟩
      exact drains_notifyWaiting hpop hok hactive
  · exact h.modify_active PackageTask.cancel_taskObjectPath hok
  · exact h.modify_active (fun t => t.apply_taskObjectPath c) (.inl (by simp [active, hstack]))
  · -- entering and leaving a nested loop keeps the job on the stack
    refine ⟨h.paths_nodup, h.paths_created, ?_, ?_, ?_⟩
    · intro _ hnil
      cases hnil
    · intro t ht hna
      refine h.waiting t ht ?_
      rw [active, hstack]
      exact hna
    · intro hnil
      cases hnil
  · exact drains_jobReturned h hstack

/-- **Run**: in every run whose steps leave nothing behind, every listed
    task is active or can still be started, and with no active job and no
    posted signal the list is empty. So a ref that is refused as being
    operated belongs to a job that is running or still going to run. -/
theorem drained_of_meets (events : List Event) (s : Scheduler)
    (hmeets : machine.Meets leavesNothing init events)
    (hexec : machine.exec init events = some s) :
    (s.stack = [] → s.pending = [] → s.taskList = []) ∧
    ∀ ref, ∀ t ∈ s.taskList, t.isRefExist ref = true →
      s.active t.taskObjectPath = true ∨
      (startable t = true ∧ (s.stack ≠ [] ∨ s.pending ≠ [])) := by
  have h : Drains s := machine.invariant_of_meets drains_step drains_init hmeets hexec
  refine ⟨?_, ?_⟩
  · intro hidle hquiet
    by_contra hne
    exact h.signal hidle hne hquiet
  · intro ref t ht _
    cases hact : s.active t.taskObjectPath with
    | true => exact .inl rfl
    | false =>
      refine .inr ⟨h.waiting t ht hact, ?_⟩
      by_cases hidle : s.stack = []
      · exact .inr (h.signal hidle fun hnil => by rw [hnil] at ht; cases ht)
      · exact .inl hidle

/-- The rest of that run: both jobs return and all signals are delivered. -/
def nestedRequestDrained : List Event :=
  nestedRequest ++ [.leaveLoop, .finish, .deliver 0, .finish, .deliver 0]

theorem drained_nestedRequest :
    ∃ s, machine.exec init nestedRequestDrained = some s ∧ s.executed.length = 2 ∧
      s.taskList = [] := by
  obtain ⟨s, hs⟩ :=
    machine.exists_of_exec_isSome init nestedRequestDrained (by decide)
  have hfacts : (machine.exec init nestedRequestDrained).map
      (fun s => (s.stack, s.pending, s.executed.length)) = some ([], [], 2) := by decide
  rw [hs, Option.map_some, Option.some_inj, Prod.mk.injEq, Prod.mk.injEq] at hfacts
  obtain ⟨hstack, hpending, hexecuted⟩ := hfacts
  exact ⟨s, hs, hexecuted,
    (drained_of_meets nestedRequestDrained s (by decide) hs).1 hstack hpending⟩

/-- A queued task is canceled before its signal is delivered. The delivery
    stores its path as the running one, starts nothing, and nothing is left
    that could ever remove the task or clear the marker. -/
theorem not_drained :
    ¬ ∀ (events : List Event) (s : Scheduler), machine.exec init events = some s →
      s.stack = [] → s.pending = [] → s.taskList = [] := by
  intro h
  have := h [.request .install "a" (.single "stable:main/a/x86_64/binary"),
    .cancel "/org/deepin/linglong/Task1/a", .deliver 0] _ rfl rfl rfl
  exact absurd (congrArg List.length this) (by decide)

end Scheduler

end Linglong
