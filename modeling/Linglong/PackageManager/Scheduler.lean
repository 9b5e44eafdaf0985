import Mathlib.Data.List.Nodup
import Linglong.PackageManager.PackageTask

/-! # The Task Scheduler of the Package Manager

    `PackageManager` keeps a list of tasks and the object path of the task
    whose job is running. Requests append a task and post
    `TaskListChanged(path)`; the handler of that signal, a queued
    connection, starts the next job or tells the tasks that they wait. When
    a job returns, its task leaves the list and `TaskListChanged("")` is
    posted.

    Jobs spin nested event loops (they wait for interaction replies and for
    remote queries), so requests, deliveries and `Cancel` calls also arrive
    in the middle of a job. The model keeps the stack of active jobs. A
    delivery may pick any posted signal, so every order of deliveries is a
    run of the machine.
-/

namespace Linglong

open Framework

/-! ## Section 1: State and events -/

/-- A job being executed: the path of its task, and whether the job is
    inside a nested event loop. -/
structure Frame where
  path : String
  inLoop : Bool
  deriving DecidableEq

/-- The scheduler part of `PackageManager`. `executed` logs the started
    jobs, `created` the task ids in use (they are random UUIDs). -/
structure Scheduler where
  taskList : List PackageTask
  runningTaskObjectPath : String
  /-- Arguments of the posted, not yet delivered `TaskListChanged` signals. -/
  pending : List String
  /-- The active jobs, innermost first. -/
  stack : List Frame
  executed : List String
  created : List String

/-- The kinds of requests that append a task. -/
inductive RequestKind where
  | install | uninstall | update | installFromFile
  deriving DecidableEq

/-- What can happen to the scheduler. -/
inductive Event where
  /-- An accepted request appends its task and posts `TaskListChanged`. -/
  | request (kind : RequestKind) (taskID : String) (refs : QStringList)
  /-- The event loop delivers one of the posted signals. -/
  | deliver (i : Nat)
  /-- A D-Bus `Cancel` call on a task of the list. -/
  | cancel (path : String)
  /-- The running job calls a method of its own task. -/
  | call (c : PackageTask.Call)
  /-- The running job enters or leaves a nested event loop. -/
  | enterLoop
  | leaveLoop
  /-- The running job returns. -/
  | finish

namespace Scheduler

/-- The package manager after its start. -/
def init : Scheduler where
  taskList := []
  runningTaskObjectPath := ""
  pending := []
  stack := []
  executed := []
  created := []

/-- An event loop is running: either no job is active or the innermost one
    waits in a nested loop. -/
def looping (s : Scheduler) : Bool :=
  match s.stack with
  | [] => true
  | f :: _ => f.inLoop

/-- The task with the given path is on the stack of active jobs. -/
def active (s : Scheduler) (path : String) : Bool := s.stack.any fun f => f.path == path

/-- Apply `f` to the task with the given path. -/
def modifyTask (s : Scheduler) (path : String) (f : PackageTask → PackageTask) : Scheduler :=
  { s with taskList := s.taskList.map fun t => if t.taskObjectPath = path then f t else t }

/-! ## Section 2: The handler of `TaskListChanged` -/

/-- Does the loop of the handler skip this task? It starts the first one
    with a job and state `Queued`. -/
def startable (t : PackageTask) : Bool := t.hasJob && t.state == .queued

/-- The task that the handler would start. -/
def nextTask (s : Scheduler) : Option PackageTask := s.taskList.find? startable

/-- First branch: another task is running, tell the others to wait. -/
def notifyWaiting (s : Scheduler) : Scheduler :=
  { s with
    taskList := s.taskList.map fun t =>
      if !t.hasJob || t.taskObjectPath == s.runningTaskObjectPath then t
      else t.updateState .queued "Waiting for the other tasks" none }

/-- Second branch: store the marker, then start the next task, if any. -/
def startNext (s : Scheduler) (taskObjectPath : String) : Scheduler :=
  match s.nextTask with
  | none => { s with runningTaskObjectPath := taskObjectPath }
  | some t =>
      { s with
        runningTaskObjectPath := taskObjectPath
        stack := ⟨t.taskObjectPath, false⟩ :: s.stack
        executed := t.taskObjectPath :: s.executed }

/-- The lambda connected to `TaskListChanged`, up to the call of the job. -/
def onTaskListChanged (s : Scheduler) (taskObjectPath : String) : Scheduler :=
  if s.runningTaskObjectPath ≠ "" then s.notifyWaiting else s.startNext taskObjectPath

/-- The rest of the lambda, after the job `f` returned: clear the marker,
    erase the task and post `TaskListChanged("")`. -/
def jobReturned (s : Scheduler) (f : Frame) (rest : List Frame) : Scheduler :=
  { s with
    taskList := s.taskList.filter fun t => t.taskObjectPath ≠ f.path
    runningTaskObjectPath := ""
    pending := s.pending ++ [""]
    stack := rest }

/-! ## Section 3: The machine -/

/-- The task that a request appends. `Uninstall` also calls `updateState`
    right after posting the signal. -/
def newTask (kind : RequestKind) (taskID : String) (refs : QStringList) : PackageTask :=
  let t := (PackageTask.create taskID refs).setJob
  if kind = .uninstall then t.updateState .queued "add uninstall task to task queue." none else t

/-- An accepted request. -/
def addTask (s : Scheduler) (t : PackageTask) : Scheduler :=
  { s with
    taskList := s.taskList ++ [t]
    pending := s.pending ++ [t.taskObjectPath]
    created := t.taskObjectPath :: s.created }

/-- Take the `i`-th posted signal out of the queue. -/
def popSignal (s : Scheduler) (i : Nat) : Scheduler :=
  { s with pending := s.pending.eraseIdx i }

/-- One event. Requests other than `Update` name exactly one ref, and task
    ids are fresh. -/
def next (s : Scheduler) : Event → Option Scheduler
  | .request kind taskID refs =>
      if s.looping ∧ (kind = .update ∨ refs.size = 1) ∧
          (newTask kind taskID refs).taskObjectPath ∉ s.created then
        some (s.addTask (newTask kind taskID refs))
      else none
  | .deliver i =>
      if s.looping then
        match s.pending[i]? with
        | some p => some ((s.popSignal i).onTaskListChanged p)
        | none => none
      else none
  | .cancel path => if s.looping then some (s.modifyTask path PackageTask.cancel) else none
  | .call c =>
      match s.stack with
      | ⟨path, false⟩ :: _ => some (s.modifyTask path fun t => t.apply c)
      | _ => none
  | .enterLoop =>
      match s.stack with
      | ⟨path, false⟩ :: rest => some { s with stack := ⟨path, true⟩ :: rest }
      | _ => none
  | .leaveLoop =>
      match s.stack with
      | ⟨path, true⟩ :: rest => some { s with stack := ⟨path, false⟩ :: rest }
      | _ => none
  | .finish =>
      match s.stack with
      | ⟨path, false⟩ :: rest => some (s.jobReturned ⟨path, false⟩ rest)
      | _ => none

/-- The scheduler as a machine. -/
def machine : Machine Scheduler Event where
  next := next

end Scheduler

end Linglong
