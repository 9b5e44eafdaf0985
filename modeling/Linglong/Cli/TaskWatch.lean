import Linglong.PackageManager.PropertiesForwarder
import Linglong.PackageManager.SchedulerRuns

/-! # Watching a Task

    `ll-cli` asks the package manager for a task, takes the path of the task
    from the reply, subscribes to the properties of the task and waits in an
    event loop until it hears that the task was removed (`cli.cpp`). In the
    meantime the package manager serves other clients, runs the task, and may
    have removed it before the client has subscribed.

    Signals arrive in the order in which they are sent. A signal about
    properties is lost if it was sent before the subscription, or if sending
    it failed. Everything else may happen in any order.

    1. The client.
    2. The client, the bus and the package manager.
    3. What one event does to the task of the client (`found_next`).
-/

namespace Linglong.TaskWatch

open Framework

/-! ## Section 1: The client -/

/-- `lastState` and the other values that a client keeps. -/
structure Values where
  state : State
  subState : SubState
  message : String
  percentage : ℚ
  deriving DecidableEq

namespace Values

/-- The values of a new client. -/
def init : Values := ⟨.unknown, .unknown, "", 0⟩

/-- The arguments of `TaskRemoved`. -/
def of (t : PackageTask) : Values := ⟨t.state, t.subState, t.message, t.getPercentage⟩

/-- The loop over the changed properties. -/
def update (v : Values) (props : PropCache) : Values where
  state := props.state.getD v.state
  subState := props.subState.getD v.subState
  message := props.message.getD v.message
  percentage := props.percentage.getD v.percentage

end Values

/-- The signals that a client receives. -/
inductive Signal where
  /-- Of the path that it has subscribed to. -/
  | propertiesChanged (props : PropCache)
  | taskRemoved (path : String) (values : Values)
  deriving DecidableEq

/-- What the user is shown. -/
inductive Shown where
  | progress (values : Values)
  | notification (message : String)
  deriving DecidableEq

/-- Where a client is in a command. -/
inductive Phase where
  | ready
  /-- For the reply. -/
  | waiting
  /-- In the event loop. -/
  | watching
  /-- `taskDone` has been emitted. -/
  | leaving
  | exited (code : Int)
  | crashed
  deriving DecidableEq

/-- `Cli`. -/
structure Cli where
  phase : Phase := .ready
  taskObjectPath : String := ""
  /-- The pointer `task` is not null. -/
  task : Bool := false
  last : Values := .init
  shown : List Shown := []
  deriving DecidableEq

namespace Cli

/-- `printProgress`: "task is invalid" is for the log only. -/
def printProgress (c : Cli) : Cli :=
  if c.last.state = .unknown then c else { c with shown := c.shown ++ [.progress c.last] }

/-- `onTaskPropertiesChanged`. The interface is asked of `task`. -/
def onTaskPropertiesChanged (c : Cli) (props : PropCache) : Cli :=
  if c.task = false then { c with phase := .crashed }
  else ({ c with last := c.last.update props } : Cli).printProgress

/-- What is shown at the end. -/
def showRemoved (c : Cli) : Cli :=
  if c.last.subState = .allDone then c.printProgress
  else if c.last.subState = .packageManagerDone then
    { c with shown := c.shown ++ [.notification c.last.message] }
  else c

/-- `onTaskRemoved`. -/
def onTaskRemoved (c : Cli) (path : String) (values : Values) : Cli :=
  if path ≠ c.taskObjectPath then c
  else
    let c := { c with task := false }
    -- "no change, skip"
    if c.last = values then { c with phase := .leaving }
    else { ({ c with last := values } : Cli).showRemoved with phase := .leaving }

/-- One signal. -/
def handle (c : Cli) : Signal → Cli
  | .propertiesChanged props => c.onTaskPropertiesChanged props
  | .taskRemoved path values => c.onTaskRemoved path values

/-- The reply is there, and the proxy is made. -/
def onReply (c : Cli) (path : String) : Cli :=
  { c with phase := .watching, taskObjectPath := path, task := true }

/-- The exit code of the command. -/
def exitCode (c : Cli) : Int := if c.last.state = .succeed then 0 else -1

end Cli

/-! ## Section 2: The system -/

/-- A client, its task, and the scheduler. -/
structure Watch where
  sched : Scheduler := .init
  /-- The path of the task of the client. -/
  path : Option String := none
  propCache : PropCache := {}
  subscribed : Bool := false
  /-- The signals that are on their way to the client. -/
  inbox : List Signal := []
  /-- The task between its removal and its deletion. -/
  removed : Option PackageTask := none
  cli : Cli := {}
  /-- What the task was when it was removed. -/
  final : Option Values := none
  /-- A signal about properties has been sent to the client. -/
  heard : Bool := false

/-- What can happen. -/
inductive Event where
  /-- Anything in the package manager but the request of this client, with
      whether the forwarder can send. -/
  | sched (e : Linglong.Event) (sent : Bool)
  /-- The running job writes "directly". -/
  | hide (newSubState : SubState) (message : String)
  /-- `Cancel` between the removal and the deletion of the task. -/
  | cancelRemoved (sent : Bool)
  | delete
  /-- The request of this client is accepted. -/
  | request (kind : RequestKind) (taskID : String) (refs : QStringList)
  | reply
  | subscribe
  | handle
  | leave

/-- The calls of an event on a task that is in the list. -/
def callsFor (s : Scheduler) (t : PackageTask) : Linglong.Event → List PackageTask.Call
  | .deliver _ =>
      if s.runningTaskObjectPath = "" ∨ t.hasJob = false ∨
          t.taskObjectPath = s.runningTaskObjectPath then []
      else [.updateState .queued "Waiting for the other tasks" none]
  | .cancel path => if t.taskObjectPath = path then [.cancel] else []
  | .call c =>
      match s.stack with
      | ⟨path, false⟩ :: _ => if t.taskObjectPath = path then [c] else []
      | _ => []
  | _ => []

/-- The task whose job returns. -/
def returning (s : Scheduler) : Linglong.Event → Option PackageTask
  | .finish =>
      match s.stack with
      | ⟨path, false⟩ :: _ => s.taskList.find? fun t => t.taskObjectPath = path
      | _ => none
  | _ => none

/-- `newTask` with its forwarder. -/
def newBusTask (kind : RequestKind) (taskID : String) (refs : QStringList) : BusTask :=
  let b := (BusTask.create taskID refs).write PackageTask.setJob
  if kind = .uninstall then (b.updateState .queued "add uninstall task to task queue." none).1
  else b

namespace Watch

/-- The task of the client, if it is in the list. -/
def own (s : Watch) : Option PackageTask :=
  s.path.bind fun path => s.sched.taskList.find? fun t => t.taskObjectPath = path

/-- Signals about properties on the bus. -/
def send (s : Watch) (sent : Bool) (props : List PropCache) : Watch :=
  if s.subscribed = true ∧ sent = true then
    { s with
      inbox := s.inbox ++ props.map .propertiesChanged
      heard := s.heard || !props.isEmpty }
  else s

/-- Calls on the task of the client. -/
def calls (s : Watch) (t : PackageTask) (cs : List PackageTask.Call) (sent : Bool) : Watch :=
  let r := (BusTask.mk t s.propCache).run cs
  ({ s with propCache := r.1.propCache } : Watch).send sent r.2

/-- The calls of an event. -/
def forward (s : Watch) (e : Linglong.Event) (sent : Bool) : Watch :=
  match s.own with
  | none => s
  | some t => s.calls t (callsFor s.sched t e) sent

/-- `TaskRemoved`. -/
def remove (s : Watch) (t : PackageTask) : Watch :=
  let s := { s with inbox := s.inbox ++ [.taskRemoved t.taskObjectPath (.of t)] }
  if s.path = some t.taskObjectPath then { s with removed := some t, final := some (.of t) } else s

/-- What an event of the package manager means for the client. -/
def observe (s : Watch) (e : Linglong.Event) (sent : Bool) : Watch :=
  match returning s.sched e with
  | none => s.forward e sent
  | some t => s.remove t

/-- One event. -/
def next (s : Watch) : Event → Option Watch
  | .sched e sent => (s.sched.next e).map fun sched => { s.observe e sent with sched := sched }
  | .hide newSubState message =>
      match s.sched.stack with
      | ⟨path, false⟩ :: _ =>
          some { s with sched := s.sched.modifyTask path fun t =>
            (t.setSubState newSubState).setMessage message }
      | _ => none
  | .cancelRemoved sent =>
      match s.removed with
      | none => none
      | some t =>
          if s.sched.looping then
            some { s.calls t [.cancel] sent with removed := some t.cancel }
          else none
  | .delete => some { s with removed := none }
  | .request kind taskID refs =>
      if s.cli.phase = .ready then
        (s.sched.next (.request kind taskID refs)).map fun sched =>
          { s with
            sched := sched
            path := some (newBusTask kind taskID refs).task.taskObjectPath
            propCache := (newBusTask kind taskID refs).propCache
            cli := { s.cli with phase := .waiting } }
      else none
  | .reply =>
      match s.cli.phase, s.path with
      | .waiting, some path => some { s with cli := s.cli.onReply path }
      | _, _ => none
  | .subscribe =>
      if s.cli.phase = .watching then some { s with subscribed := true } else none
  | .handle =>
      if s.cli.phase = .watching ∨ s.cli.phase = .leaving then
        match s.inbox with
        | [] => none
        | m :: rest => some { s with inbox := rest, cli := s.cli.handle m }
      else none
  | .leave =>
      if s.cli.phase = .leaving then
        some { s with cli := { s.cli with phase := .exited s.cli.exitCode } }
      else none

/-- The system as a machine. -/
def machine : Machine Watch Event where
  next := next

end Watch

/-! ## Section 3: The task of the client -/

/-- The task by a path. -/
def found (s : Scheduler) (path : String) : Option PackageTask :=
  s.taskList.find? fun t => t.taskObjectPath = path

theorem found_map {s s' : Scheduler} {f : PackageTask → PackageTask}
    (hlist : s'.taskList = s.taskList.map f)
    (hf : ∀ t, (f t).taskObjectPath = t.taskObjectPath) (path : String) :
    found s' path = (found s path).map f := by
  have hkey : ((fun t : PackageTask => decide (t.taskObjectPath = path)) ∘ f) =
      fun t => decide (t.taskObjectPath = path) := by
    funext t
    rw [Function.comp_apply, hf]
  rw [found, hlist, List.find?_map, hkey, found]

theorem path_of_found {s : Scheduler} {path : String} {t : PackageTask}
    (h : found s path = some t) : t.taskObjectPath = path := by
  simpa using List.find?_some h

theorem found_eq_none_iff {s : Scheduler} {path : String} :
    found s path = none ↔ path ∉ s.paths := by
  rw [found, List.find?_eq_none, Scheduler.paths, List.mem_map]
  simp

/-- A change of the task by one path. -/
theorem found_modifyTask (s : Scheduler) (path path' : String) {f : PackageTask → PackageTask}
    (hf : ∀ t, (f t).taskObjectPath = t.taskObjectPath) :
    found (s.modifyTask path' f) path = (found s path).map fun t =>
      if t.taskObjectPath = path' then f t else t := by
  have hlist : (s.modifyTask path' f).taskList =
      s.taskList.map fun t => if t.taskObjectPath = path' then f t else t := rfl
  refine found_map hlist (fun t => ?_) path
  split
  · exact hf t
  · rfl

/-- Calls on the task by one path. -/
theorem found_modify (s : Scheduler) (path path' : String) (cs : List PackageTask.Call) :
    found (s.modifyTask path' fun t => t.run cs) path = (found s path).map fun t =>
      t.run (if t.taskObjectPath = path' then cs else []) := by
  rw [found_modifyTask s path path' fun t => t.run_taskObjectPath cs]
  congr 1
  funext t
  split
  · rfl
  · rfl

/-- A job that returns takes its task out of the list. -/
theorem found_jobReturned (s : Scheduler) (f : Frame) (rest : List Frame) (path : String) :
    found (s.jobReturned f rest) path = if path = f.path then none else found s path := by
  unfold found Scheduler.jobReturned
  dsimp only
  rw [List.find?_filter]
  split
  · next heq =>
    rw [heq, List.find?_eq_none]
    simp
  · next hne =>
    have hkey : (fun t : PackageTask => decide (decide (t.taskObjectPath ≠ f.path) = true ∧
        decide (t.taskObjectPath = path) = true)) = fun t => decide (t.taskObjectPath = path) := by
      funext t
      by_cases heq : t.taskObjectPath = path
      · simp [heq, hne]
      · simp [heq]
    rw [hkey]

/-- No call. -/
theorem found_same {s : Scheduler} {path : String} :
    (found s path).map (fun t => t.run []) = found s path := by
  cases found s path <;> rfl

/-- **One event** of the package manager, for a task that it does not make:
    the task is gone if its job returns, and otherwise called. -/
theorem found_next {s s' : Scheduler} {e : Linglong.Event} {path : String}
    (hnext : s.next e = some s')
    (hother : ∀ kind taskID refs, e = .request kind taskID refs →
      (Scheduler.newTask kind taskID refs).taskObjectPath ≠ path) :
    found s' path =
      if (returning s e).any (fun t => t.taskObjectPath = path) = true then none
      else (found s path).map fun t => t.run (callsFor s t e) := by
  rcases Scheduler.next_cases hnext with ⟨kind, id, refs, rfl, -, -, -, rfl⟩ |
    ⟨i, p, rfl, -, -, rfl⟩ | ⟨path', rfl, -, rfl⟩ | ⟨c, path', rest, rfl, hstack, rfl⟩ |
    ⟨path', b, rest, he, hstack, rfl⟩ | ⟨path', rest, rfl, hstack, rfl⟩
  · -- the new task is another one
    have hne := hother kind id refs rfl
    have hfound : found (s.addTask (Scheduler.newTask kind id refs)) path = found s path := by
      unfold found Scheduler.addTask
      rw [List.find?_append]
      simp [hne]
    exact hfound.trans (found_same (s := s)).symm
  · by_cases hrun : s.runningTaskObjectPath = ""
    · rw [Scheduler.onTaskListChanged_idle (s := s.popSignal i) hrun]
      have hfound : found ((s.popSignal i).startNext p) path = found s path := by
        unfold found Scheduler.startNext
        split
        · rfl
        · rfl
      have hcalls : ∀ t, callsFor s t (.deliver i) = [] := fun t => if_pos (.inl hrun)
      simp only [hcalls]
      exact hfound.trans found_same.symm
    · rw [Scheduler.onTaskListChanged_running (s := s.popSignal i) hrun]
      have hlist : (s.popSignal i).notifyWaiting.taskList =
          s.taskList.map fun t => t.run (callsFor s t (.deliver i)) := by
        unfold Scheduler.notifyWaiting
        refine List.map_congr_left fun t _ => ?_
        unfold callsFor
        cases hjob : t.hasJob with
        | false => simp
        | true =>
          by_cases hpath : t.taskObjectPath = s.runningTaskObjectPath
          · simp [hpath, Scheduler.popSignal]
          · simp [hpath, hrun, Scheduler.popSignal, PackageTask.apply]
      exact found_map hlist (fun t => t.run_taskObjectPath _) path
  · exact found_modify s path path' [.cancel]
  · have hcalls : ∀ t, callsFor s t (.call c) = if t.taskObjectPath = path' then [c] else [] := by
      intro t
      unfold callsFor
      rw [hstack]
    simp only [hcalls]
    exact found_modify s path path' [c]
  · rcases he with rfl | rfl
    · exact found_same.symm
    · exact found_same.symm
  · rw [found_jobReturned]
    have hreturning : returning s .finish = found s path' := by
      unfold returning
      rw [hstack]
      rfl
    rw [hreturning]
    by_cases heq : path = path'
    · subst heq
      rw [if_pos rfl]
      cases hfound : found s path with
      | none => simp
      | some t => simp [path_of_found hfound]
    · have hany : (found s path').any (fun t => decide (t.taskObjectPath = path)) = false := by
        cases hfound : found s path' with
        | none => rfl
        | some t => simp [path_of_found hfound, Ne.symm heq]
      rw [if_neg heq, hany]
      exact found_same.symm

theorem newBusTask_task (kind : RequestKind) (taskID : String) (refs : QStringList) :
    (newBusTask kind taskID refs).task = Scheduler.newTask kind taskID refs := by
  unfold newBusTask Scheduler.newTask
  dsimp only
  split
  · rw [BusTask.task_updateState]
    rfl
  · rfl

/-- The request of the client makes its task. -/
theorem found_addTask {s : Scheduler} {t : PackageTask} (h : t.taskObjectPath ∉ s.paths) :
    found (s.addTask t) t.taskObjectPath = some t := by
  have hnone : s.taskList.find? (fun u => decide (u.taskObjectPath = t.taskObjectPath)) = none :=
    found_eq_none_iff.2 h
  unfold found Scheduler.addTask
  rw [List.find?_append, hnone]
  simp

theorem mem_of_returning {s : Scheduler} {e : Linglong.Event} {t : PackageTask}
    (h : returning s e = some t) : found s t.taskObjectPath = some t := by
  unfold returning at h
  split at h
  · split at h
    · next path rest _ =>
      have hfound : found s path = some t := h
      rw [path_of_found hfound]
      exact hfound
    · cases h
  · cases h

/-- Paths are used once. -/
theorem created_next {s s' : Scheduler} {e : Linglong.Event} (h : s.next e = some s')
    (hpaths : ∀ p ∈ s.paths, p ∈ s.created) :
    (∀ p ∈ s'.paths, p ∈ s'.created) ∧ ∀ p ∈ s.created, p ∈ s'.created := by
  rcases Scheduler.next_cases h with ⟨kind, id, refs, rfl, -, -, -, rfl⟩ |
    ⟨i, p, rfl, -, -, rfl⟩ | ⟨path', rfl, -, rfl⟩ | ⟨c, path', rest, rfl, hstack, rfl⟩ |
    ⟨path', b, rest, he, hstack, rfl⟩ | ⟨path', rest, rfl, hstack, rfl⟩
  · refine ⟨fun p hp => ?_, fun p hp => List.mem_cons_of_mem _ hp⟩
    rw [Scheduler.paths_addTask, List.mem_append, List.mem_singleton] at hp
    rcases hp with hp | rfl
    · exact List.mem_cons_of_mem _ (hpaths p hp)
    · exact List.mem_cons_self
  · by_cases hrun : s.runningTaskObjectPath = ""
    · rw [Scheduler.onTaskListChanged_idle (s := s.popSignal i) hrun]
      have hcreated : ((s.popSignal i).startNext p).created = s.created := by
        unfold Scheduler.startNext
        split
        · rfl
        · rfl
      rw [Scheduler.paths_startNext, hcreated]
      exact ⟨hpaths, fun _ => id⟩
    · rw [Scheduler.onTaskListChanged_running (s := s.popSignal i) hrun,
        Scheduler.paths_notifyWaiting]
      exact ⟨hpaths, fun _ => id⟩
  · rw [Scheduler.paths_modifyTask s path' PackageTask.cancel_taskObjectPath]
    exact ⟨hpaths, fun _ => id⟩
  · rw [Scheduler.paths_modifyTask s path' fun t => t.apply_taskObjectPath c]
    exact ⟨hpaths, fun _ => id⟩
  · exact ⟨hpaths, fun _ => id⟩
  · rw [Scheduler.paths_jobReturned]
    exact ⟨fun p hp => hpaths p (List.mem_of_mem_filter hp), fun _ => id⟩

end Linglong.TaskWatch
