import Linglong.Framework.Machine

/-! # The Job Queue

    `JobQueue` (`package_manager.h`) runs the jobs of `Search` and `Prune`
    one after the other in the event loop of its thread. `runTask` appends a
    job and posts an invocation of `run()`, unless one is posted or a job is
    running; `run()` takes the first job, calls it, and posts itself again
    if there are more.

    A job may spin an event loop of its own (`Search` waits for the remote
    like that). So `runTask` may be called, and a posted `run()` may be
    delivered, at any time between the start and the end of a job.

    1. The queue and its steps.
    2. Correctness (`correct_of_exec`).
    3. Progress (`drains`).
-/

namespace Linglong

open Framework

universe u

/-! ## Section 1: Steps -/

/-- `JobQueue`, with the invocations of `run()` that the event loop still
    has to deliver and the jobs that have been called and not returned,
    innermost first. `added` and `finished` record the history. -/
structure JobQueue (α : Type u) where
  runningJobsCount : UInt32
  taskList : List α
  posted : Nat
  executing : List α
  added : List α
  finished : List α

namespace JobQueue

variable {α : Type u}

/-- What can happen next. -/
inductive Event (α : Type u) where
  /-- `runTask` is called, by a job or from outside. -/
  | runTask (func : α)
  /-- The event loop delivers a posted `run()`. -/
  | deliver
  /-- The innermost job returns. -/
  | finish

def runningJobsMax : UInt32 := 1

/-- A new queue. -/
def init : JobQueue α := ⟨0, [], 0, [], [], []⟩

/-- `QMetaObject::invokeMethod` with a queued connection. -/
def invokeMethod (q : JobQueue α) : JobQueue α := { q with posted := q.posted + 1 }

/-- `runTask`. -/
def runTask (q : JobQueue α) (func : α) : JobQueue α :=
  let q := { q with taskList := q.taskList ++ [func], added := q.added ++ [func] }
  if q.runningJobsCount < runningJobsMax then
    { q with runningJobsCount := q.runningJobsCount + 1 }.invokeMethod
  else q

/-- `run`, up to the call of the job. -/
def startRun (q : JobQueue α) : JobQueue α :=
  match q.taskList with
  | [] => { q with runningJobsCount := q.runningJobsCount - 1 }
  | func :: rest => { q with taskList := rest, executing := func :: q.executing }

/-- `run`, from the return of the job. -/
def endRun (q : JobQueue α) : JobQueue α :=
  if q.taskList.length > 0 then q.invokeMethod
  else { q with runningJobsCount := q.runningJobsCount - 1 }

/-- One event; there may be nothing to deliver or to return. -/
def next (q : JobQueue α) : Event α → Option (JobQueue α)
  | .runTask func => some (q.runTask func)
  | .deliver => if q.posted = 0 then none else some (startRun { q with posted := q.posted - 1 })
  | .finish =>
      match q.executing with
      | [] => none
      | func :: rest =>
          some (endRun { q with executing := rest, finished := q.finished ++ [func] })

/-- All interleavings. -/
def machine : Machine (JobQueue α) (Event α) where
  next := next

/-! ## Section 2: Correctness -/

/-- Jobs run in the order in which they were added, each once, no two at a
    time; the counter does not wrap; and no job is forgotten. -/
structure Correct (q : JobQueue α) : Prop where
  order : q.finished ++ q.executing ++ q.taskList = q.added
  exclusive : q.executing.length ≤ 1
  count : q.runningJobsCount = 0 ∨ q.runningJobsCount = 1
  pending : q.taskList ≠ [] → 0 < q.posted ∨ q.executing ≠ []
  complete : q.posted = 0 → q.executing = [] → q.finished = q.added

/-- The three phases of the queue. The counter is 1 as long as a `run()` is
    posted or executing, and there is never more than one of both. -/
inductive Phase (q : JobQueue α) : Prop where
  | idle (count : q.runningJobsCount = 0) (tasks : q.taskList = []) (posted : q.posted = 0)
      (executing : q.executing = [])
  | waiting (count : q.runningJobsCount = 1) (tasks : q.taskList ≠ []) (posted : q.posted = 1)
      (executing : q.executing = [])
  | running (func : α) (count : q.runningJobsCount = 1) (posted : q.posted = 0)
      (executing : q.executing = [func])

/-- The invariant. -/
structure Inv (q : JobQueue α) : Prop where
  order : q.finished ++ q.executing ++ q.taskList = q.added
  phase : Phase q

theorem inv_init : Inv (init : JobQueue α) := ⟨rfl, .idle rfl rfl rfl rfl⟩

/-- While a `run()` is posted or executing, `runTask` only appends. -/
theorem runTask_of_busy {q : JobQueue α} (h : q.runningJobsCount = 1) (func : α) :
    q.runTask func = { q with
      taskList := q.taskList ++ [func], added := q.added ++ [func] } := by
  show (if q.runningJobsCount < runningJobsMax then _ else _) = _
  rw [h]
  rfl

theorem inv_runTask {q : JobQueue α} (h : Inv q) (func : α) : Inv (q.runTask func) := by
  have horder : q.finished ++ q.executing ++ (q.taskList ++ [func]) = q.added ++ [func] := by
    rw [← List.append_assoc, h.order]
  cases h.phase with
  | idle count tasks posted executing =>
    -- the first job: post `run()`
    have hstart : q.runTask func = { q with
        taskList := q.taskList ++ [func], added := q.added ++ [func],
        runningJobsCount := q.runningJobsCount + 1, posted := q.posted + 1 } := by
      show (if q.runningJobsCount < runningJobsMax then _ else _) = _
      rw [count]
      rfl
    rw [hstart]
    exact ⟨horder, .waiting (by simp [count]) (by simp) (by simp [posted]) executing⟩
  | waiting count tasks posted executing =>
    rw [runTask_of_busy count]
    exact ⟨horder, .waiting count (by simp) posted executing⟩
  | running job count posted executing =>
    rw [runTask_of_busy count]
    exact ⟨horder, .running job count posted executing⟩

theorem inv_deliver {q q' : JobQueue α} (h : Inv q) (hnext : q.next .deliver = some q') :
    Inv q' := by
  unfold next at hnext
  by_cases hzero : q.posted = 0
  · simp [hzero] at hnext
  · rw [if_neg hzero, Option.some.injEq] at hnext
    cases h.phase with
    | idle count tasks posted executing => exact absurd posted hzero
    | running job count posted executing => exact absurd posted hzero
    | waiting count tasks posted executing =>
      -- no job is running, and there is a first one in the list
      obtain ⟨func, rest, htasks⟩ := List.exists_cons_of_ne_nil tasks
      subst hnext
      simp only [startRun, htasks]
      refine ⟨?_, .running func count (by simp [posted]) (by simp [executing])⟩
      have horder := h.order
      rw [executing, htasks] at horder
      simp only [executing]
      simpa using horder

theorem inv_finish {q q' : JobQueue α} (h : Inv q) (hnext : q.next .finish = some q') :
    Inv q' := by
  unfold next at hnext
  cases h.phase with
  | idle count tasks posted executing => simp [executing] at hnext
  | waiting count tasks posted executing => simp [executing] at hnext
  | running job count posted executing =>
    simp only [executing, Option.some.injEq] at hnext
    have horder : q.finished ++ [job] ++ [] ++ q.taskList = q.added := by
      have horder := h.order
      rw [executing] at horder
      simpa using horder
    subst hnext
    unfold endRun
    by_cases htasks : q.taskList = []
    · simp only [htasks, List.length_nil, gt_iff_lt, Nat.lt_irrefl, if_false]
      rw [htasks] at horder
      exact ⟨horder, .idle (by simp [count]) rfl posted rfl⟩
    · have hlength : q.taskList.length > 0 := List.length_pos_iff.2 htasks
      rw [if_pos hlength]
      exact ⟨horder, .waiting count htasks (by simp [invokeMethod, posted]) rfl⟩

/-- **Step**: every event keeps the invariant. -/
theorem inv_next (q : JobQueue α) (e : Event α) (q' : JobQueue α) (h : Inv q)
    (hnext : machine.next q e = some q') : Inv q' := by
  cases e with
  | runTask func =>
    cases hnext
    exact inv_runTask h func
  | deliver => exact inv_deliver h hnext
  | finish => exact inv_finish h hnext

theorem Inv.correct {q : JobQueue α} (h : Inv q) : Correct q := by
  have horder := h.order
  cases h.phase with
  | idle count tasks posted executing =>
    refine ⟨horder, by simp [executing], .inl count, fun hne => absurd tasks hne, fun _ _ => ?_⟩
    simpa [executing, tasks] using horder
  | waiting count tasks posted executing =>
    exact ⟨horder, by simp [executing], .inr count, fun _ => .inl (by omega),
      fun hzero => absurd posted (by omega)⟩
  | running job count posted executing =>
    exact ⟨horder, by simp [executing], .inr count, fun _ => .inr (by simp [executing]),
      fun _ hnone => absurd hnone (by simp [executing])⟩

/-- **The job queue** is correct in every state that an interleaving can
    reach. -/
theorem correct_of_exec {events : List (Event α)} {q : JobQueue α}
    (h : machine.exec init events = some q) : Correct q :=
  (machine.invariant_of_exec inv_next inv_init h).correct

/-- A job adds another one while it runs. -/
theorem correct_of_nestedTask :
    Correct (⟨1, [2], 1, [], [1, 2], [1]⟩ : JobQueue Nat) := by
  have hexec : machine.exec init [.runTask 1, .deliver, .runTask 2, .finish] =
      some (⟨1, [2], 1, [], [1, 2], [1]⟩ : JobQueue Nat) := rfl
  exact correct_of_exec hexec

/-! ## Section 3: Progress -/

/-- What is left to do, if nothing more is added. -/
def remaining (q : JobQueue α) : Nat := 2 * q.taskList.length + q.executing.length

/-- From every state the queue is emptied, job by job, without any further
    call. -/
theorem Inv.drains {q : JobQueue α} (h : Inv q) :
    ∃ events q', machine.exec q events = some q' ∧ q'.finished = q.added := by
  induction hn : q.remaining using Nat.strongRecOn generalizing q with
  | _ n ih =>
    -- the next step: nothing to do, deliver `run()`, or return from the job
    cases h.phase with
    | idle count tasks posted executing =>
      exact ⟨[], q, rfl, h.correct.complete posted executing⟩
    | waiting count tasks posted executing =>
      obtain ⟨func, rest, htasks⟩ := List.exists_cons_of_ne_nil tasks
      have hnext : machine.next q .deliver = some (startRun { q with posted := q.posted - 1 }) :=
        if_neg (by omega)
      have hinv := inv_deliver h hnext
      have hadded : (startRun { q with posted := q.posted - 1 }).added = q.added := by
        simp [startRun, htasks]
      have hless : (startRun { q with posted := q.posted - 1 }).remaining < n := by
        rw [← hn]
        simp [remaining, startRun, htasks, executing]
        omega
      obtain ⟨events, q', hexec, hfinished⟩ := ih _ hless hinv rfl
      refine ⟨.deliver :: events, q', machine.exec_cons_some.2 ⟨_, hnext, hexec⟩, ?_⟩
      rw [hfinished, hadded]
    | running job count posted executing =>
      have hnext : machine.next q .finish =
          some (endRun { q with executing := [], finished := q.finished ++ [job] }) := by
        show q.next .finish = _
        unfold next
        rw [executing]
      have hinv := inv_finish h hnext
      have hend : ∀ q : JobQueue α, q.endRun.added = q.added ∧
          q.endRun.remaining = q.remaining := by
        intro q
        unfold endRun
        split <;> exact ⟨rfl, rfl⟩
      have hless : (endRun { q with executing := [], finished := q.finished ++ [job] }).remaining <
          n := by
        rw [← hn, (hend _).2]
        simp [remaining, executing]
      obtain ⟨events, q', hexec, hfinished⟩ := ih _ hless hinv rfl
      refine ⟨.finish :: events, q', machine.exec_cons_some.2 ⟨_, hnext, hexec⟩, ?_⟩
      rw [hfinished, (hend _).1]

/-- No job that was added is lost. -/
theorem drains_of_exec {events : List (Event α)} {q : JobQueue α}
    (h : machine.exec init events = some q) :
    ∃ more q', machine.exec q more = some q' ∧ q'.finished = q.added :=
  (machine.invariant_of_exec inv_next inv_init h).drains

end JobQueue

end Linglong
