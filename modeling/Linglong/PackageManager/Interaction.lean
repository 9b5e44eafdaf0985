import Linglong.PackageManager.InstallRequest
import Linglong.PackageManager.SchedulerRuns

/-! # Asking the User

    An upgrade asks before it replaces what is installed. The job of
    `Install`, and those of `installFromLayer` and `installFromUAB`, send
    the signal `RequestInteraction`, connect a handler to `ReplyReceived` and
    wait in a nested event loop. `ReplyInteraction` ignores the path it is
    called with: it emits `ReplyReceived`, which calls every connected
    handler.

    The handlers differ. The one of the two file jobs cancels the task if the
    reply is not "yes" and is disconnected after the loop. The one of
    `Install` stores the reply for the job to look at after the loop, and is
    never disconnected: it goes on referring to two variables of a block that
    has been left.

    1. The client (`Cli::interaction`).
    2. The jobs and their handlers.
    3. The package manager as a machine (`next_cases`).
    4. The package manager with its clients.
-/

namespace Linglong.Interactive

open Framework

/-! ## Section 1: The client -/

/-- The action in the reply of `Cli::interaction`, from what the notifier
    returned; `none` is a failed request. A `DummyNotifier` counts as a yes. -/
def replyAction : Option String → String
  | some action => if action ∈ ["Y", "y", "Yes", "yes", "dummy"] then "yes" else "no"
  | none => "no"

/-! ## Section 2: The jobs and their handlers -/

/-- What the job of a request captures. -/
structure Plan where
  kind : RequestKind
  msgType : InteractionMessageType
  skipInteraction : Bool
  deriving DecidableEq

/-- Does the job ask? -/
def Plan.asks (p : Plan) : Bool :=
  match p.kind with
  | .install | .installFromFile => p.msgType == .upgrade && !p.skipInteraction
  | .uninstall | .update => false

/-- Where a job is. -/
inductive Phase where
  | starting
  /-- In the event loop for the reply. -/
  | waiting
  /-- Behind the question. -/
  | asked
  /-- Behind the check of the sub-state. -/
  | working
  | returning
  deriving DecidableEq

/-- An active job. `heard` has the actions of the replies that its handler
    was called with, the latest first; a reply may have none. -/
structure ActiveJob where
  path : String
  plan : Plan
  phase : Phase
  heard : List (Option String)
  deriving DecidableEq

namespace ActiveJob

/-- The job of a task that is started. -/
def start (path : String) (plan : Plan) : ActiveJob := ⟨path, plan, .starting, []⟩

/-- The handler is called. -/
def hear (action : Option String) (job : ActiveJob) : ActiveJob :=
  if job.phase = .waiting then { job with heard := action :: job.heard } else job

/-- The handler of the file jobs, called with this action, cancels the task. -/
def cancelsOn (job : ActiveJob) (action : Option String) : Bool :=
  job.phase == .waiting && job.plan.kind == .installFromFile && action != some "yes"

/-- The reply that an `install` job looks at is not "yes". -/
def declined (job : ActiveJob) : Bool :=
  job.plan.kind == .install && job.heard.head? != some (some "yes")

end ActiveJob

/-! ## Section 3: The package manager as a machine -/

/-- The package manager with its active jobs, the innermost first. -/
structure Manager where
  scheduler : Scheduler
  /-- What the jobs of the appended tasks capture. -/
  plan : String → Plan
  jobs : List ActiveJob
  /-- Paths of the `install` jobs that left their handler connected. -/
  stale : List String
  /-- Variables or a task that are gone have been used. -/
  dangling : Bool
  /-- The jobs that came back from the question, the latest first. -/
  resumed : List ActiveJob
  /-- Paths of the tasks that `Cancel` was called on. -/
  canceled : List String

/-- A step of the innermost job. -/
inductive JobStep where
  /-- Send `RequestInteraction`, connect and wait. -/
  | ask
  | skip
  /-- The event loop for the reply returns. -/
  | resume
  /-- `isTaskDone(taskRef.subState())`. -/
  | check
  | call (c : PackageTask.Call)
  /-- The other event loops. -/
  | enterLoop
  | leaveLoop
  | finish

/-- What can happen to the package manager. -/
inductive Event where
  | request (plan : Plan) (taskID : String) (refs : QStringList)
  | deliver (i : Nat)
  | cancel (path : String)
  /-- A D-Bus call of `ReplyInteraction`. -/
  | reply (object_path : String) (action : Option String)
  | job (step : JobStep)

namespace Manager

/-- The package manager after its start. -/
def init : Manager where
  scheduler := Scheduler.init
  plan := fun _ => ⟨.uninstall, .install, true⟩
  jobs := []
  stale := []
  dangling := false
  resumed := []
  canceled := []

/-- Something that is gone has been used. -/
def dangle (s : Manager) : Manager := { s with dangling := true }

/-- The job that the handler of `TaskListChanged` starts. -/
def startedJob (s : Manager) : Option ActiveJob :=
  if s.scheduler.runningTaskObjectPath ≠ "" then none
  else s.scheduler.nextTask.map fun t =>
    ActiveJob.start t.taskObjectPath (s.plan t.taskObjectPath)

/-- `updateState(Canceled)` on a task. -/
def cancelTask (sched : Scheduler) (path : String) : Scheduler :=
  sched.modifyTask path fun t => t.updateState .canceled "canceled" none

/-- What the handlers of the file jobs do to their tasks, in the order in
    which they were connected. -/
def cancelOn (action : Option String) (jobs : List ActiveJob) (sched : Scheduler) : Scheduler :=
  jobs.foldr (fun job sched => if job.cancelsOn action then cancelTask sched job.path else sched)
    sched

/-- `ReplyReceived` calls every connected handler. -/
def replyReceived (s : Manager) (action : Option String) : Manager :=
  if s.stale ≠ [] then s.dangle
  else
    { s with
      scheduler := cancelOn action s.jobs s.scheduler
      jobs := s.jobs.map (ActiveJob.hear action) }

/-- The sub-state of a task says that it is done. -/
def isDone (s : Manager) (path : String) : Bool :=
  s.scheduler.taskList.any fun t => t.taskObjectPath == path && isTaskDone t.subState

/-- A step of the scheduler, and what becomes of the jobs. -/
def advance (s : Manager) (e : Linglong.Event) (jobs : List ActiveJob) : Option Manager :=
  (s.scheduler.next e).map fun sched => { s with scheduler := sched, jobs := jobs }

/-- Behind the event loop for the reply: a file job disconnects its handler,
    the other one looks at the reply. -/
def afterQuestion (s : Manager) (sched : Scheduler) (job : ActiveJob) (rest : List ActiveJob) :
    Manager :=
  { s with
    scheduler := if job.declined then cancelTask sched job.path else sched
    jobs := { job with phase := .asked } :: rest
    stale := if job.plan.kind = .install then job.path :: s.stale else s.stale
    resumed := job :: s.resumed }

/-- A step of the innermost job. -/
def jobNext (s : Manager) (job : ActiveJob) (rest : List ActiveJob) : JobStep → Option Manager
  | .ask =>
      if job.phase = .starting ∧ job.plan.asks = true then
        s.advance .enterLoop ({ job with phase := .waiting } :: rest)
      else none
  | .skip =>
      if job.phase = .starting ∧ job.plan.asks = false then
        some { s with jobs := { job with phase := .asked } :: rest }
      else none
  | .resume =>
      if job.phase = .waiting ∧ job.heard ≠ [] then
        (s.scheduler.next .leaveLoop).map fun sched => s.afterQuestion sched job rest
      else none
  | .check =>
      if job.phase = .asked then
        some { s with
          jobs := { job with phase := if s.isDone job.path then .returning else .working } :: rest }
      else none
  | .call c => if job.phase = .working then s.advance (.call c) (job :: rest) else none
  | .enterLoop => if job.phase = .working then s.advance .enterLoop (job :: rest) else none
  | .leaveLoop => if job.phase = .working then s.advance .leaveLoop (job :: rest) else none
  | .finish =>
      if job.phase = .working ∨ job.phase = .returning then s.advance .finish rest else none

/-- One event. Nothing happens after something that is gone has been used;
    a job uses its task all the time. -/
def next (s : Manager) (e : Event) : Option Manager :=
  if s.dangling then none
  else
    match e with
    | .request plan taskID refs =>
        (s.scheduler.next (.request plan.kind taskID refs)).map fun sched =>
          { s with
            scheduler := sched
            plan := fun p =>
              if p = (Scheduler.newTask plan.kind taskID refs).taskObjectPath then plan
              else s.plan p }
    | .deliver i => s.advance (.deliver i) (s.startedJob.toList ++ s.jobs)
    | .cancel path =>
        (s.scheduler.next (.cancel path)).map fun sched =>
          { s with
            scheduler := sched
            canceled := if path ∈ s.scheduler.paths then path :: s.canceled else s.canceled }
    | .reply _ action => if s.scheduler.looping then some (s.replyReceived action) else none
    | .job step =>
        match s.jobs with
        | [] => none
        | job :: rest =>
            if job.path ∈ s.scheduler.paths then s.jobNext job rest step else some s.dangle

/-- The package manager as a machine. -/
def machine : Machine Manager Event where
  next := next

/-! ### What one event does -/

/-- Every step of the package manager, with its guards. -/
theorem next_cases {s s' : Manager} {e : Event} (h : s.next e = some s') :
    s.dangling = false ∧
    ((∃ plan taskID refs sched, e = .request plan taskID refs ∧
      s.scheduler.next (.request plan.kind taskID refs) = some sched ∧
      s' = { s with
        scheduler := sched
        plan := fun p =>
          if p = (Scheduler.newTask plan.kind taskID refs).taskObjectPath then plan
          else s.plan p }) ∨
    (∃ i sched, e = .deliver i ∧ s.scheduler.next (.deliver i) = some sched ∧
      s' = { s with scheduler := sched, jobs := s.startedJob.toList ++ s.jobs }) ∨
    (∃ path sched, e = .cancel path ∧ s.scheduler.next (.cancel path) = some sched ∧
      s' = { s with
        scheduler := sched
        canceled := if path ∈ s.scheduler.paths then path :: s.canceled else s.canceled }) ∨
    (∃ object_path action, e = .reply object_path action ∧ s.scheduler.looping = true ∧
      s' = s.replyReceived action) ∨
    (∃ step job rest, e = .job step ∧ s.jobs = job :: rest ∧ job.path ∉ s.scheduler.paths ∧
      s' = s.dangle) ∨
    (∃ step job rest, e = .job step ∧ s.jobs = job :: rest ∧ job.path ∈ s.scheduler.paths ∧
      s.jobNext job rest step = some s')) := by
  have hdangling : s.dangling = false := by
    cases hd : s.dangling with
    | false => rfl
    | true => simp [next, hd] at h
  refine ⟨hdangling, ?_⟩
  unfold next at h
  rw [if_neg (by simp [hdangling])] at h
  cases e with
  | request plan taskID refs =>
    obtain ⟨sched, hsched, rfl⟩ := Option.map_eq_some_iff.1 h
    exact .inl ⟨plan, taskID, refs, sched, rfl, hsched, rfl⟩
  | deliver i =>
    obtain ⟨sched, hsched, rfl⟩ := Option.map_eq_some_iff.1 h
    exact .inr (.inl ⟨i, sched, rfl, hsched, rfl⟩)
  | cancel path =>
    obtain ⟨sched, hsched, rfl⟩ := Option.map_eq_some_iff.1 h
    exact .inr (.inr (.inl ⟨path, sched, rfl, hsched, rfl⟩))
  | reply object_path action =>
    simp only at h
    split at h
    · next hloop =>
      exact .inr (.inr (.inr (.inl
        ⟨object_path, action, rfl, hloop, (Option.some.inj h).symm⟩)))
    · cases h
  | job step =>
    simp only at h
    split at h
    · cases h
    · next job rest hjobs =>
      split at h
      · next hmem =>
        exact .inr (.inr (.inr (.inr (.inr ⟨step, job, rest, rfl, hjobs, hmem, h⟩))))
      · next hmem =>
        exact .inr (.inr (.inr (.inr (.inl
          ⟨step, job, rest, rfl, hjobs, hmem, (Option.some.inj h).symm⟩))))

/-- Every step of the innermost job, with its guards. -/
theorem jobNext_cases {s s' : Manager} {job : ActiveJob} {rest : List ActiveJob} {step : JobStep}
    (h : s.jobNext job rest step = some s') :
    (∃ sched, step = .ask ∧ job.phase = .starting ∧ job.plan.asks = true ∧
      s.scheduler.next .enterLoop = some sched ∧
      s' = { s with scheduler := sched, jobs := { job with phase := .waiting } :: rest }) ∨
    (step = .skip ∧ job.phase = .starting ∧ job.plan.asks = false ∧
      s' = { s with jobs := { job with phase := .asked } :: rest }) ∨
    (∃ sched, step = .resume ∧ job.phase = .waiting ∧ job.heard ≠ [] ∧
      s.scheduler.next .leaveLoop = some sched ∧ s' = s.afterQuestion sched job rest) ∨
    (step = .check ∧ job.phase = .asked ∧
      s' = { s with
        jobs := { job with phase := if s.isDone job.path then .returning else .working } ::
          rest }) ∨
    (∃ e sched, job.phase = .working ∧
      ((∃ c, step = .call c ∧ e = .call c) ∨ (step = .enterLoop ∧ e = .enterLoop) ∨
        (step = .leaveLoop ∧ e = .leaveLoop)) ∧
      s.scheduler.next e = some sched ∧
      s' = { s with scheduler := sched, jobs := job :: rest }) ∨
    (∃ sched, step = .finish ∧ (job.phase = .working ∨ job.phase = .returning) ∧
      s.scheduler.next .finish = some sched ∧
      s' = { s with scheduler := sched, jobs := rest }) := by
  cases step with
  | ask =>
    obtain ⟨⟨hphase, hasks⟩, h⟩ := Option.ite_none_right_eq_some.1 h
    obtain ⟨sched, hsched, rfl⟩ := Option.map_eq_some_iff.1 h
    exact .inl ⟨sched, rfl, hphase, hasks, hsched, rfl⟩
  | skip =>
    obtain ⟨⟨hphase, hasks⟩, h⟩ := Option.ite_none_right_eq_some.1 h
    exact .inr (.inl ⟨rfl, hphase, hasks, (Option.some.inj h).symm⟩)
  | resume =>
    obtain ⟨⟨hphase, hheard⟩, h⟩ := Option.ite_none_right_eq_some.1 h
    obtain ⟨sched, hsched, rfl⟩ := Option.map_eq_some_iff.1 h
    exact .inr (.inr (.inl ⟨sched, rfl, hphase, hheard, hsched, rfl⟩))
  | check =>
    obtain ⟨hphase, h⟩ := Option.ite_none_right_eq_some.1 h
    exact .inr (.inr (.inr (.inl ⟨rfl, hphase, (Option.some.inj h).symm⟩)))
  | call c =>
    obtain ⟨hphase, h⟩ := Option.ite_none_right_eq_some.1 h
    obtain ⟨sched, hsched, rfl⟩ := Option.map_eq_some_iff.1 h
    exact .inr (.inr (.inr (.inr (.inl
      ⟨.call c, sched, hphase, .inl ⟨c, rfl, rfl⟩, hsched, rfl⟩))))
  | enterLoop =>
    obtain ⟨hphase, h⟩ := Option.ite_none_right_eq_some.1 h
    obtain ⟨sched, hsched, rfl⟩ := Option.map_eq_some_iff.1 h
    exact .inr (.inr (.inr (.inr (.inl
      ⟨.enterLoop, sched, hphase, .inr (.inl ⟨rfl, rfl⟩), hsched, rfl⟩))))
  | leaveLoop =>
    obtain ⟨hphase, h⟩ := Option.ite_none_right_eq_some.1 h
    obtain ⟨sched, hsched, rfl⟩ := Option.map_eq_some_iff.1 h
    exact .inr (.inr (.inr (.inr (.inl
      ⟨.leaveLoop, sched, hphase, .inr (.inr ⟨rfl, rfl⟩), hsched, rfl⟩))))
  | finish =>
    obtain ⟨hphase, h⟩ := Option.ite_none_right_eq_some.1 h
    obtain ⟨sched, hsched, rfl⟩ := Option.map_eq_some_iff.1 h
    exact .inr (.inr (.inr (.inr (.inr ⟨sched, rfl, hphase, hsched, rfl⟩))))

end Manager

/-! ## Section 4: The package manager with its clients -/

/-- The package manager, the signals and calls on their way, and what the
    clients answered. A client reacts to the signals of its own task only, so
    a signal counts for that client. -/
structure Dialog where
  manager : Manager
  /-- Paths in `RequestInteraction` signals. -/
  requests : List String
  /-- Arguments of `ReplyInteraction` calls. -/
  replies : List (String × String)
  /-- What the client of a task answered, the latest first. -/
  answered : List (String × String)

/-- What can happen to the package manager and its clients. -/
inductive Dialog.Event where
  | manager (e : Interactive.Event)
  /-- The client of the `i`-th signal asks its user. -/
  | answer (i : Nat) (notifyReply : Option String)
  /-- The `i`-th call arrives. -/
  | arrive (i : Nat)

namespace Dialog

/-- Nothing is on its way. -/
def init : Dialog := ⟨Manager.init, [], [], []⟩

/-- The signals that an event of the package manager sends. -/
def sends (s : Manager) : Interactive.Event → List String
  | .job .ask => (s.jobs.head?.map ActiveJob.path).toList
  | _ => []

/-- One event. All replies come from clients that were asked. -/
def next (d : Dialog) : Event → Option Dialog
  | .manager (.reply _ _) => none
  | .manager e =>
      (d.manager.next e).map fun s =>
        { d with manager := s, requests := d.requests ++ sends d.manager e }
  | .answer i notifyReply =>
      match d.requests[i]? with
      | none => none
      | some path =>
          some { d with
            requests := d.requests.eraseIdx i
            replies := d.replies ++ [(path, replyAction notifyReply)]
            answered := (path, replyAction notifyReply) :: d.answered }
  | .arrive i =>
      match d.replies[i]? with
      | none => none
      | some (path, action) =>
          (d.manager.next (.reply path (some action))).map fun s =>
            { d with manager := s, replies := d.replies.eraseIdx i }

/-- The package manager with its clients as a machine. -/
def machine : Machine Dialog Event where
  next := next

end Dialog

end Linglong.Interactive
