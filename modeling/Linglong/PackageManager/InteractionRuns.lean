import Mathlib.Data.List.Perm.Basic
import Linglong.PackageManager.Interaction

/-! # Runs with Questions

    What holds in every run in which the scheduler starts no job inside
    another one (`Scheduler.markedDelivery`), whatever the clients send.

    * **Safety** (`dangling_iff`). Variables that are gone are used exactly
      when `ReplyInteraction` is called after an `install` job came back from
      its question.
    * **At most one** (`resumed_of_exec`). So no question is answered any more
      after that of an `install` job.
    * **Waiting** (`waits_of_exec`). Nothing but a reply ends the wait of a
      job, and no other job is started in the meantime.
    * **Consent** (`goesOn_iff`). When a job goes on to install.
    * **Clients** (`addressed_of_exec`, `answers_of_exec`). With clients that
      answer what they are asked, each reply on its way is for the job that
      waits, and a job goes on by the answer of its own client.
-/

namespace Linglong.Interactive

open Framework

namespace Manager

/-! ## Section 1: One job at a time -/

/-- The condition on the deliveries. -/
def marked (s : Manager) : Event → Prop
  | .deliver i => s.scheduler.markedDelivery (.deliver i)
  | _ => True

instance (s : Manager) : ∀ e, Decidable (s.marked e)
  | .deliver i => inferInstanceAs (Decidable (s.scheduler.markedDelivery (.deliver i)))
  | .request .. | .cancel _ | .reply .. | .job _ => isTrue trivial

/-- The jobs are those on the stack of the scheduler, and there is at most
    one of them. Its task is in the list. -/
structure Orderly (s : Manager) : Prop where
  exclusive : s.scheduler.Exclusive
  aligned : s.jobs.map ActiveJob.path = s.scheduler.stack.map Frame.path
  listed : ∀ job ∈ s.jobs, job.path ∈ s.scheduler.paths

theorem orderly_init : Orderly init :=
  ⟨Scheduler.exclusive_init, rfl, by simp [init]⟩

/-- There is at most one job. -/
theorem Orderly.rest_eq_nil {s : Manager} (h : Orderly s) {job : ActiveJob}
    {rest : List ActiveJob} (hjobs : s.jobs = job :: rest) : rest = [] := by
  have hlen := congrArg List.length h.aligned
  have hone := h.exclusive.single
  rw [List.length_map, List.length_map, hjobs, List.length_cons] at hlen
  exact List.eq_nil_of_length_eq_zero (by omega)

/-- With a job there is a stack. -/
theorem Orderly.stack_ne_nil {s : Manager} (h : Orderly s) {job : ActiveJob}
    {rest : List ActiveJob} (hjobs : s.jobs = job :: rest) : s.scheduler.stack ≠ [] := by
  intro hnil
  have := h.aligned
  rw [hjobs, hnil] at this
  cases this

theorem Orderly.jobs_eq_nil {s : Manager} (h : Orderly s) (hstack : s.scheduler.stack = []) :
    s.jobs = [] := by
  have := h.aligned
  rw [hstack] at this
  exact List.map_eq_nil_iff.1 this

/-- Steps that change neither the paths of the tasks nor those of the jobs. -/
theorem Orderly.congr {s s' : Manager} (h : Orderly s) (hexcl : s'.scheduler.Exclusive)
    (hjobs : s'.jobs.map ActiveJob.path = s.jobs.map ActiveJob.path)
    (hstack : s'.scheduler.stack.map Frame.path = s.scheduler.stack.map Frame.path)
    (hpaths : ∀ p ∈ s.scheduler.paths, p ∈ s'.scheduler.paths) : Orderly s' := by
  refine ⟨hexcl, by rw [hjobs, hstack, h.aligned], ?_⟩
  intro job hjob
  have hmem : job.path ∈ s.jobs.map ActiveJob.path := hjobs ▸ List.mem_map_of_mem hjob
  obtain ⟨job', hjob', heq⟩ := List.mem_map.1 hmem
  exact hpaths _ (heq ▸ h.listed job' hjob')

/-! ### Steps of the scheduler -/

/-- A task that is canceled. -/
theorem paths_cancelTask (sched : Scheduler) (path : String) :
    (cancelTask sched path).paths = sched.paths :=
  Scheduler.paths_modifyTask sched path fun t =>
    PackageTask.updateState_taskObjectPath t .canceled "canceled" none

theorem exclusive_cancelTask {sched : Scheduler} (h : sched.Exclusive) (path : String) :
    (cancelTask sched path).Exclusive :=
  h.congr (paths_cancelTask sched path) rfl rfl rfl

/-- What is left alone by the handlers of the file jobs. -/
theorem cancelOn_spec (action : Option String) (jobs : List ActiveJob) {sched : Scheduler}
    (h : sched.Exclusive) :
    (cancelOn action jobs sched).Exclusive ∧
      (cancelOn action jobs sched).paths = sched.paths ∧
      (cancelOn action jobs sched).stack = sched.stack := by
  induction jobs with
  | nil => exact ⟨h, rfl, rfl⟩
  | cons job jobs ih =>
    obtain ⟨hexcl, hpaths, hstack⟩ := ih
    unfold cancelOn at hexcl hpaths hstack ⊢
    rw [List.foldr_cons]
    split
    · exact ⟨exclusive_cancelTask hexcl _, (paths_cancelTask _ _).trans hpaths, hstack⟩
    · exact ⟨hexcl, hpaths, hstack⟩

/-- A step of the scheduler keeps what its runs rest on. -/
theorem exclusive_next {sched sched' : Scheduler} {e : Linglong.Event} (h : sched.Exclusive)
    (hnext : sched.next e = some sched') (hok : sched.markedDelivery e) : sched'.Exclusive :=
  Scheduler.exclusive_step sched e sched' h hok hnext

/-- An accepted request. -/
theorem scheduler_request {sched sched' : Scheduler} {kind : RequestKind} {taskID : String}
    {refs : QStringList} (h : sched.next (.request kind taskID refs) = some sched') :
    (kind = .update ∨ refs.size = 1) ∧
      (Scheduler.newTask kind taskID refs).taskObjectPath ∉ sched.created ∧
      sched' = sched.addTask (Scheduler.newTask kind taskID refs) := by
  obtain ⟨hguard, h⟩ := Option.ite_none_right_eq_some.1 h
  exact ⟨hguard.2.1, hguard.2.2, (Option.some.inj h).symm⟩

/-- A `Cancel` call. -/
theorem scheduler_cancel {sched sched' : Scheduler} {path : String}
    (h : sched.next (.cancel path) = some sched') :
    sched' = sched.modifyTask path PackageTask.cancel := by
  obtain ⟨-, h⟩ := Option.ite_none_right_eq_some.1 h
  exact (Option.some.inj h).symm

/-- The running job returns. -/
theorem scheduler_finish {sched sched' : Scheduler} (h : sched.next .finish = some sched') :
    ∃ path rest, sched.stack = ⟨path, false⟩ :: rest ∧
      sched' = sched.jobReturned ⟨path, false⟩ rest := by
  simp only [Scheduler.next] at h
  split at h
  · next path rest hstack => exact ⟨path, rest, hstack, (Option.some.inj h).symm⟩
  · cases h

/-- The calls of the running job, and its other event loops. -/
theorem scheduler_job_step {sched sched' : Scheduler} {e : Linglong.Event}
    (he : (∃ c, e = .call c) ∨ e = .enterLoop ∨ e = .leaveLoop)
    (h : sched.next e = some sched') :
    sched'.paths = sched.paths ∧ sched'.executed = sched.executed ∧
      sched'.created = sched.created ∧
      sched'.stack.map Frame.path = sched.stack.map Frame.path ∧
      ((sched'.taskList = sched.taskList) ∨
        ∃ c f rest, e = .call c ∧ sched.stack = f :: rest ∧
          sched' = sched.modifyTask f.path fun t => t.apply c) := by
  rcases Scheduler.next_cases h with ⟨kind, id, refs, rfl, -⟩ | ⟨i, p, rfl, -⟩ |
    ⟨path, rfl, -⟩ | ⟨c, path, rest, rfl, hstack, rfl⟩ | ⟨path, b, rest, hloop, hstack, rfl⟩ |
    ⟨path, rest, rfl, -⟩
  · simp at he
  · simp at he
  · simp at he
  · exact ⟨Scheduler.paths_modifyTask sched path fun t => t.apply_taskObjectPath c, rfl, rfl, rfl,
      .inr ⟨c, ⟨path, false⟩, rest, rfl, hstack, rfl⟩⟩
  · exact ⟨rfl, rfl, rfl, by simp [hstack], .inl rfl⟩
  · simp at he

/-- Entering and leaving an event loop. -/
theorem scheduler_loop {sched sched' : Scheduler} {e : Linglong.Event}
    (he : e = .enterLoop ∨ e = .leaveLoop) (h : sched.next e = some sched') :
    sched'.taskList = sched.taskList ∧ sched'.created = sched.created := by
  obtain ⟨-, -, hcreated, -, hlist | ⟨c, f, rest, hcall, -⟩⟩ := scheduler_job_step (.inr he) h
  · exact ⟨hlist, hcreated⟩
  · rw [hcall] at he
    simp at he

/-! ### What one event leaves of the order -/

/-- A delivery inside a job holds the other tasks back, and one outside
    starts the next task, if there is one. -/
theorem deliver_cases {s : Manager} {i : Nat} (hok : s.marked (.deliver i))
    {sched : Scheduler} (hnext : s.scheduler.next (.deliver i) = some sched) :
    (s.startedJob = none ∧ sched.stack = s.scheduler.stack ∧
      sched.executed = s.scheduler.executed ∧ sched.created = s.scheduler.created ∧
      (sched.taskList = s.scheduler.taskList ∨
        sched.taskList = s.scheduler.notifyWaiting.taskList)) ∨
    (∃ t, s.scheduler.stack = [] ∧ s.scheduler.nextTask = some t ∧
      s.startedJob = some (ActiveJob.start t.taskObjectPath (s.plan t.taskObjectPath)) ∧
      sched.stack = [⟨t.taskObjectPath, false⟩] ∧
      sched.executed = t.taskObjectPath :: s.scheduler.executed ∧
      sched.created = s.scheduler.created ∧ sched.taskList = s.scheduler.taskList) := by
  rcases Scheduler.next_cases hnext with ⟨kind, id, refs, he, -⟩ | ⟨i', p, he, -, -, rfl⟩ |
    ⟨path, he, -⟩ | ⟨c, path, rest, he, -⟩ | ⟨path, b, rest, he | he, -⟩ | ⟨path, rest, he, -⟩
  · cases he
  · cases he
    by_cases hrun : s.scheduler.runningTaskObjectPath = ""
    · have hidle : s.scheduler.stack = [] := by
        by_contra hne
        exact hok hne hrun
      rw [Scheduler.onTaskListChanged_idle (s := s.scheduler.popSignal i) hrun]
      cases hn : s.scheduler.nextTask with
      | none =>
        have hstart : (s.scheduler.popSignal i).startNext p =
            { s.scheduler.popSignal i with runningTaskObjectPath := p } := by
          have hn' : (s.scheduler.popSignal i).nextTask = none := hn
          rw [Scheduler.startNext, hn']
        rw [hstart]
        exact .inl ⟨by simp [startedJob, hn], rfl, rfl, rfl, .inl rfl⟩
      | some t =>
        have hn' : (s.scheduler.popSignal i).nextTask = some t := hn
        rw [Scheduler.startNext, hn']
        exact .inr ⟨t, hidle, rfl, by simp [startedJob, hrun, hn],
          congrArg (⟨t.taskObjectPath, false⟩ :: ·) hidle, rfl, rfl, rfl⟩
    · rw [Scheduler.onTaskListChanged_running (s := s.scheduler.popSignal i) hrun]
      exact .inl ⟨by simp [startedJob, hrun], rfl, rfl, rfl, .inr rfl⟩
  · cases he
  · cases he
  · cases he
  · cases he
  · cases he

/-- **Step**: one job at a time, and its task stays in the list. -/
theorem orderly_step (s : Manager) (e : Event) (s' : Manager) (h : Orderly s) (hok : s.marked e)
    (hnext : machine.next s e = some s') : Orderly s' := by
  obtain ⟨-, ⟨plan, taskID, refs, sched, rfl, hsched, rfl⟩ | ⟨i, sched, rfl, hsched, rfl⟩ |
    ⟨path, sched, rfl, hsched, rfl⟩ | ⟨object_path, action, rfl, -, rfl⟩ |
    ⟨step, job, rest, rfl, hjobs, -, rfl⟩ | ⟨step, job, rest, rfl, hjobs, hmem, hstep⟩⟩ :=
    next_cases hnext
  · have hexcl : sched.Exclusive := exclusive_next h.exclusive hsched trivial
    obtain ⟨-, -, rfl⟩ := scheduler_request hsched
    refine h.congr hexcl rfl rfl ?_
    intro p hp
    rw [Scheduler.paths_addTask]
    exact List.mem_append_left _ hp
  · have hexcl : sched.Exclusive := exclusive_next h.exclusive hsched hok
    rcases deliver_cases hok hsched with ⟨hstart, hstack, -, -, hlist⟩ |
      ⟨t, hidle, hn, hstart, hstack, -, -, hlist⟩
    · have hpaths : sched.paths = s.scheduler.paths := by
        rcases hlist with hlist | hlist
        · rw [Scheduler.paths, Scheduler.paths, hlist]
        · rw [Scheduler.paths, hlist]
          exact Scheduler.paths_notifyWaiting s.scheduler
      exact h.congr hexcl (by simp [hstart]) (by rw [hstack]) fun p hp => hpaths ▸ hp
    · have hjobs : s.jobs = [] := h.jobs_eq_nil hidle
      refine ⟨hexcl, ?_, ?_⟩
      · simp only [hstart, hjobs, hstack]
        rfl
      · intro job hjob
        simp only [hstart, hjobs, Option.toList_some, List.append_nil, List.mem_singleton] at hjob
        have hmem : t ∈ sched.taskList := hlist ▸ List.mem_of_find?_eq_some hn
        exact hjob ▸ Scheduler.mem_paths hmem
  · have hexcl : sched.Exclusive := exclusive_next h.exclusive hsched trivial
    obtain rfl := scheduler_cancel hsched
    have hpaths := Scheduler.paths_modifyTask s.scheduler path PackageTask.cancel_taskObjectPath
    exact h.congr hexcl rfl rfl fun p hp => hpaths ▸ hp
  · unfold replyReceived
    split
    · exact ⟨h.exclusive, h.aligned, h.listed⟩
    · obtain ⟨hexcl, hpaths, hstack⟩ := cancelOn_spec action s.jobs h.exclusive
      refine h.congr hexcl ?_ (congrArg _ hstack) fun p hp => hpaths ▸ hp
      rw [List.map_map]
      apply List.map_congr_left
      intro job _
      simp only [Function.comp_apply, ActiveJob.hear]
      split <;> rfl
  · exact ⟨h.exclusive, h.aligned, h.listed⟩
  · rcases jobNext_cases hstep with ⟨sched, rfl, -, -, hsched, rfl⟩ | ⟨rfl, -, -, rfl⟩ |
      ⟨sched, rfl, -, -, hsched, rfl⟩ | ⟨rfl, -, rfl⟩ | ⟨e, sched, -, he, hsched, rfl⟩ |
      ⟨sched, rfl, -, hsched, rfl⟩
    · have hexcl : sched.Exclusive := exclusive_next h.exclusive hsched trivial
      obtain ⟨hpaths, -, -, hstack, -⟩ := scheduler_job_step (.inr (.inl rfl)) hsched
      exact h.congr hexcl (by simp [hjobs]) hstack fun p hp => hpaths ▸ hp
    · exact h.congr h.exclusive (by simp [hjobs]) rfl fun p hp => hp
    · have hexcl : sched.Exclusive := exclusive_next h.exclusive hsched trivial
      obtain ⟨hpaths, -, -, hstack, -⟩ := scheduler_job_step (.inr (.inr rfl)) hsched
      unfold afterQuestion
      by_cases hd : job.declined = true
      · rw [if_pos hd]
        exact h.congr (exclusive_cancelTask hexcl _) (by simp [hjobs]) hstack
          fun p hp => by rw [paths_cancelTask, hpaths]; exact hp
      · rw [if_neg hd]
        exact h.congr hexcl (by simp [hjobs]) hstack fun p hp => hpaths ▸ hp
    · exact h.congr h.exclusive (by simp [hjobs]) rfl fun p hp => hp
    · have he' : (∃ c, e = .call c) ∨ e = .enterLoop ∨ e = .leaveLoop := by
        rcases he with ⟨c, -, rfl⟩ | ⟨-, rfl⟩ | ⟨-, rfl⟩
        · exact .inl ⟨c, rfl⟩
        · exact .inr (.inl rfl)
        · exact .inr (.inr rfl)
      have hok' : s.scheduler.markedDelivery e := by
        rcases he' with ⟨c, rfl⟩ | rfl | rfl <;> trivial
      have hexcl : sched.Exclusive := exclusive_next h.exclusive hsched hok'
      obtain ⟨hpaths, -, -, hstack, -⟩ := scheduler_job_step he' hsched
      exact h.congr hexcl (by simp [hjobs]) hstack fun p hp => hpaths ▸ hp
    · have hexcl : sched.Exclusive := exclusive_next h.exclusive hsched trivial
      obtain ⟨path, stack, hstack, rfl⟩ := scheduler_finish hsched
      obtain rfl := h.rest_eq_nil hjobs
      have halign := h.aligned
      rw [hjobs, hstack] at halign
      have hnil : stack.map Frame.path = [] := (List.cons.inj halign).2.symm
      exact ⟨hexcl, hnil.symm, by simp⟩

/-- Every state of such a run is orderly. -/
theorem orderly_of_exec {es : List Event} {s : Manager} (hmeets : machine.Meets marked init es)
    (hexec : machine.exec init es = some s) : Orderly s :=
  machine.invariant_of_meets orderly_step orderly_init hmeets hexec

/-- A call of `ReplyInteraction`. -/
theorem next_reply {s s' : Manager} {object_path : String} {action : Option String}
    (h : s.next (.reply object_path action) = some s') :
    s.dangling = false ∧ s.scheduler.looping = true ∧ s' = s.replyReceived action := by
  have hd : s.dangling = false := (next_cases h).1
  unfold next at h
  rw [if_neg (by simp [hd])] at h
  obtain ⟨hloop, h⟩ := Option.ite_none_right_eq_some.1 h
  exact ⟨hd, hloop, (Option.some.inj h).symm⟩

/-! ## Section 2: Handlers that stay connected -/

/-- Only jobs that ask wait. A handler is left behind by each `install` job
    that comes back; from then on nobody hears a reply. -/
structure Quiet (s : Manager) : Prop where
  asks : ∀ job ∈ s.jobs, job.phase = .waiting → job.plan.asks = true
  silent : ∀ job ∈ s.jobs, job.phase = .starting ∨ job.plan.asks = false → job.heard = []
  unheard : s.stale ≠ [] → ∀ job ∈ s.jobs, job.phase = .waiting → job.heard = []
  left : s.stale ≠ [] ↔ ∃ job ∈ s.resumed, job.plan.kind = .install
  asked : ∀ job ∈ s.resumed, job.plan.asks = true
  first : ∀ job ∈ s.resumed.tail, job.plan.kind = .installFromFile

theorem quiet_init : Quiet init := by
  constructor <;> simp [init]

/-- A job that asks is one of the two kinds. -/
theorem Plan.kind_of_asks {plan : Plan} (h : plan.asks = true) :
    plan.kind = .install ∨ plan.kind = .installFromFile := by
  obtain ⟨kind, msgType, skipInteraction⟩ := plan
  cases kind with
  | install => exact .inl rfl
  | installFromFile => exact .inr rfl
  | uninstall => exact absurd h (by simp [Plan.asks])
  | update => exact absurd h (by simp [Plan.asks])

/-- Steps after which the same jobs wait, with what they heard. -/
theorem Quiet.congr {s s' : Manager} (h : Quiet s)
    (hjobs : ∀ job ∈ s'.jobs, job.phase = .waiting → job ∈ s.jobs)
    (hsilent : ∀ job ∈ s'.jobs, job.phase = .starting ∨ job.plan.asks = false → job.heard = [])
    (hstale : s'.stale = s.stale) (hresumed : s'.resumed = s.resumed) : Quiet s' := by
  refine ⟨?_, hsilent, ?_, ?_, ?_, ?_⟩
  · intro job hjob hwait
    exact h.asks job (hjobs job hjob hwait) hwait
  · intro hne job hjob hwait
    exact h.unheard (hstale ▸ hne) job (hjobs job hjob hwait) hwait
  · rw [hstale, hresumed]; exact h.left
  · rw [hresumed]; exact h.asked
  · rw [hresumed]; exact h.first

/-- What a job that hears a reply keeps. -/
theorem hear_phase (action : Option String) (job : ActiveJob) :
    (job.hear action).phase = job.phase ∧ (job.hear action).plan = job.plan ∧
      (job.hear action).path = job.path := by
  unfold ActiveJob.hear
  split <;> exact ⟨rfl, rfl, rfl⟩

/-- A job that comes back has heard a reply, so no handler was left behind
    before. -/
theorem Quiet.afterQuestion {s : Manager} (h : Quiet s) {job : ActiveJob}
    (hjobs : s.jobs = [job]) (hphase : job.phase = .waiting) (hheard : job.heard ≠ [])
    (sched : Scheduler) : Quiet (s.afterQuestion sched job []) := by
  have hmem : job ∈ s.jobs := hjobs ▸ List.mem_singleton.2 rfl
  have hstale : s.stale = [] := by
    by_contra hne
    exact hheard (h.unheard hne job hmem hphase)
  have hnone : ∀ job' ∈ s.resumed, job'.plan.kind ≠ .install := by
    intro job' hjob' hkind
    exact h.left.2 ⟨job', hjob', hkind⟩ hstale
  refine ⟨by simp [Manager.afterQuestion], ?_, by simp [Manager.afterQuestion], ?_, ?_, ?_⟩
  · -- it asked
    simp [Manager.afterQuestion, h.asks job hmem hphase]
  · simp only [Manager.afterQuestion, hstale, List.mem_cons, exists_eq_or_imp]
    by_cases hkind : job.plan.kind = .install
    · simp [hkind]
    · rw [if_neg hkind]
      simp only [ne_eq, not_true_eq_false, hkind, false_or, false_iff, not_exists, not_and]
      exact hnone
  · intro job' hjob'
    rcases List.mem_cons.1 hjob' with rfl | hjob'
    · exact h.asks _ hmem hphase
    · exact h.asked job' hjob'
  · intro job' hjob'
    rcases Plan.kind_of_asks (h.asked job' hjob') with hkind | hkind
    · exact absurd hkind (hnone job' hjob')
    · exact hkind

/-- **Step**: after an `install` job came back nobody hears a reply. -/
theorem quiet_step (s : Manager) (e : Event) (s' : Manager) (h : Orderly s ∧ Quiet s)
    (hok : s.marked e) (hnext : machine.next s e = some s') : Orderly s' ∧ Quiet s' := by
  refine ⟨orderly_step s e s' h.1 hok hnext, ?_⟩
  obtain ⟨hord, h⟩ := h
  obtain ⟨-, ⟨plan, taskID, refs, sched, rfl, hsched, rfl⟩ | ⟨i, sched, rfl, hsched, rfl⟩ |
    ⟨path, sched, rfl, hsched, rfl⟩ | ⟨object_path, action, rfl, -, rfl⟩ |
    ⟨step, job, rest, rfl, hjobs, -, rfl⟩ | ⟨step, job, rest, rfl, hjobs, hmem, hstep⟩⟩ :=
    next_cases hnext
  · exact h.congr (fun job hjob _ => hjob) h.silent rfl rfl
  · rcases deliver_cases hok hsched with ⟨hstart, -⟩ | ⟨t, -, -, hstart, -⟩
    · exact h.congr (fun job hjob _ => by simpa [hstart] using hjob)
        (fun job hjob => h.silent job (by simpa [hstart] using hjob)) rfl rfl
    · -- a job that is started does not wait
      refine h.congr ?_ ?_ rfl rfl
      · intro job hjob hwait
        rw [hstart, Option.toList_some, List.singleton_append, List.mem_cons] at hjob
        rcases hjob with rfl | hjob
        · cases hwait
        · exact hjob
      · intro job hjob
        rw [hstart, Option.toList_some, List.singleton_append, List.mem_cons] at hjob
        rcases hjob with rfl | hjob
        · exact fun _ => rfl
        · exact h.silent job hjob
  · exact h.congr (fun job hjob _ => hjob) h.silent rfl rfl
  · unfold replyReceived
    split
    · exact ⟨h.asks, h.silent, h.unheard, h.left, h.asked, h.first⟩
    · next hstale =>
      rw [not_not] at hstale
      refine ⟨?_, ?_, fun hne => absurd hstale hne, h.left, h.asked, h.first⟩
      · intro job hjob hwait
        obtain ⟨job', hjob', rfl⟩ := List.mem_map.1 hjob
        obtain ⟨hphase, hplan, -⟩ := hear_phase action job'
        rw [hplan]
        exact h.asks job' hjob' (hphase ▸ hwait)
      · intro job hjob hquiet
        obtain ⟨job', hjob', rfl⟩ := List.mem_map.1 hjob
        obtain ⟨hphase, hplan, -⟩ := hear_phase action job'
        rw [hphase, hplan] at hquiet
        -- such a job does not wait, so it hears nothing
        have hwait : job'.phase ≠ .waiting := by
          intro hwait
          rcases hquiet with hstart | hno
          · rw [hstart] at hwait
            cases hwait
          · rw [h.asks job' hjob' hwait] at hno
            cases hno
        rw [ActiveJob.hear, if_neg hwait]
        exact h.silent job' hjob' hquiet
  · exact ⟨h.asks, h.silent, h.unheard, h.left, h.asked, h.first⟩
  · obtain rfl := hord.rest_eq_nil hjobs
    have hjob : job ∈ s.jobs := hjobs ▸ List.mem_singleton.2 rfl
    rcases jobNext_cases hstep with ⟨sched, rfl, hphase, hasks, -, rfl⟩ | ⟨rfl, -, hasks, rfl⟩ |
      ⟨sched, rfl, hphase, hheard, -, rfl⟩ | ⟨rfl, -, rfl⟩ | ⟨e, sched, -, -, -, rfl⟩ |
      ⟨sched, rfl, -, -, rfl⟩
    · -- nothing was heard before the question
      have hheard : job.heard = [] := h.silent job hjob (.inl hphase)
      refine ⟨?_, ?_, ?_, h.left, h.asked, h.first⟩
      · simp [hasks]
      · simp [hheard]
      · simp [hheard]
    · refine h.congr (by simp) ?_ rfl rfl
      simp [hasks, h.silent job hjob (.inr hasks)]
    · exact h.afterQuestion hjobs hphase hheard sched
    · refine h.congr ?_ ?_ rfl rfl
      · intro job' hjob' hwait
        rw [List.mem_singleton.1 hjob'] at hwait
        split at hwait <;> cases hwait
      · intro job' hjob' hquiet
        rw [List.mem_singleton.1 hjob'] at hquiet ⊢
        refine h.silent job hjob (.inr ?_)
        rcases hquiet with hstart | hno
        · split at hstart <;> cases hstart
        · exact hno
    · exact h.congr (fun job' hjob' _ => hjobs ▸ hjob')
        (fun job' hjob' => h.silent job' (hjobs ▸ hjob')) rfl rfl
    · exact h.congr (by simp) (by simp) rfl rfl

theorem quiet_of_exec {es : List Event} {s : Manager} (hmeets : machine.Meets marked init es)
    (hexec : machine.exec init es = some s) : Orderly s ∧ Quiet s :=
  machine.invariant_of_meets quiet_step ⟨orderly_init, quiet_init⟩ hmeets hexec

/-! ### Main results -/

/-- **At most one**: of the jobs that came back from their question only the
    last one can be an `install` job. -/
theorem resumed_of_exec {es : List Event} {s : Manager}
    (hmeets : machine.Meets marked init es) (hexec : machine.exec init es = some s) :
    ∀ job ∈ s.resumed.tail, job.plan.kind = .installFromFile :=
  (quiet_of_exec hmeets hexec).2.first

/-- A layer file and then a package from the remote, both upgrades. -/
def fileThenInstall : List Event :=
  [.request ⟨.installFromFile, .upgrade, false⟩ "a" (.single "local:main/a/1.0.0.1/x86_64/binary"),
    .deliver 0, .job .ask, .reply "" (some "yes"), .job .resume, .job .check, .job .finish,
    .request ⟨.install, .upgrade, false⟩ "b" (.single "stable:main/b/1.0.0.1/x86_64/binary"),
    .deliver 0, .job .ask, .reply "" (some "yes"), .job .resume, .job .check, .job .finish]

theorem resumed_of_exec_fileThenInstall :
    ∃ s, machine.exec init fileThenInstall = some s ∧
      ∀ job ∈ s.resumed.tail, job.plan.kind = .installFromFile := by
  obtain ⟨s, hs⟩ := machine.exists_of_exec_isSome init fileThenInstall (by decide)
  exact ⟨s, hs, resumed_of_exec (by decide) hs⟩

/-- Nothing happens any more. -/
theorem exec_of_dangling {s s' : Manager} (h : s.dangling = true) {es : List Event}
    (hexec : machine.exec s es = some s') : es = [] := by
  cases es with
  | nil => rfl
  | cons e es =>
    obtain ⟨s₁, hnext, -⟩ := machine.exec_cons_some.1 hexec
    have hnone : s.next e = none := by simp [next, h]
    rw [show machine.next s e = s.next e from rfl, hnone] at hnext
    cases hnext

/-- **Safety**: something that is gone is used exactly when a reply arrives
    after an `install` job came back from its question. -/
theorem dangling_iff {es : List Event} {s : Manager} (hmeets : machine.Meets marked init es)
    (hexec : machine.exec init es = some s) :
    s.dangling = true ↔ ∃ es₀ s₀ object_path action,
      es = es₀ ++ [.reply object_path action] ∧ machine.exec init es₀ = some s₀ ∧
        ∃ job ∈ s₀.resumed, job.plan.kind = .install := by
  constructor
  · intro hd
    obtain ⟨es₁, e, es₂, s₁, s₂, rfl, hfirst, hnext, hnd, hd₂, hlast⟩ :=
      machine.exists_step_of_exec (P := fun s => s.dangling = true) (by simp [init]) hd hexec
    obtain rfl := exec_of_dangling hd₂ hlast
    obtain ⟨hord, hquiet⟩ := quiet_of_exec (machine.meets_append_left hmeets) hfirst
    rw [Bool.not_eq_true] at hnd
    obtain ⟨-, ⟨plan, taskID, refs, sched, rfl, -, rfl⟩ | ⟨i, sched, rfl, -, rfl⟩ |
      ⟨path, sched, rfl, -, rfl⟩ | ⟨object_path, action, rfl, -, rfl⟩ |
      ⟨step, job, rest, rfl, hjobs, hlost, rfl⟩ | ⟨step, job, rest, rfl, hjobs, -, hstep⟩⟩ :=
      next_cases hnext
    · exact absurd (hnd.symm.trans hd₂) (by decide)
    · exact absurd (hnd.symm.trans hd₂) (by decide)
    · exact absurd (hnd.symm.trans hd₂) (by decide)
    · refine ⟨es₁, s₁, object_path, action, rfl, hfirst, hquiet.left.1 ?_⟩
      intro hstale
      rw [replyReceived, if_neg (not_not.2 hstale)] at hd₂
      exact absurd (hnd.symm.trans hd₂) (by decide)
    · exact absurd (hord.listed job (hjobs ▸ List.mem_cons_self)) hlost
    · rcases jobNext_cases hstep with ⟨sched, -, -, -, -, rfl⟩ | ⟨-, -, -, rfl⟩ |
        ⟨sched, -, -, -, -, rfl⟩ | ⟨-, -, rfl⟩ | ⟨e, sched, -, -, -, rfl⟩ |
        ⟨sched, -, -, -, rfl⟩ <;> exact absurd (hnd.symm.trans hd₂) (by decide)
  · rintro ⟨es₀, s₀, object_path, action, rfl, hfirst, hjob⟩
    obtain ⟨hord, hquiet⟩ := quiet_of_exec (machine.meets_append_left hmeets) hfirst
    obtain ⟨s₁, hs₁, hlast⟩ := machine.exists_of_exec_append hexec
    obtain rfl := Option.some.inj (hfirst.symm.trans hs₁)
    obtain ⟨s₂, hnext, hnil⟩ := machine.exec_cons_some.1 hlast
    obtain rfl := Option.some.inj hnil
    have hcall : s₀.next (.reply object_path action) = some s₂ := hnext
    obtain ⟨-, -, hreply⟩ := next_reply hcall
    rw [hreply, replyReceived, if_pos (hquiet.left.2 hjob)]
    rfl

/-- The next reply, for whomever it is. -/
theorem dangling_iff_fileThenInstall :
    ∃ s, machine.exec init (fileThenInstall ++ [.reply "" none]) = some s ∧
      (s.dangling = true ↔ ∃ es₀ s₀ object_path action,
        fileThenInstall ++ [.reply "" none] = es₀ ++ [.reply object_path action] ∧
          machine.exec init es₀ = some s₀ ∧ ∃ job ∈ s₀.resumed, job.plan.kind = .install) := by
  obtain ⟨s, hs⟩ :=
    machine.exists_of_exec_isSome init (fileThenInstall ++ [.reply "" none]) (by decide)
  exact ⟨s, hs, dangling_iff (by decide) hs⟩

/-! ## Section 3: Waiting -/

/-- An event other than a reply. -/
def notReply : Event → Prop
  | .reply _ _ => False
  | _ => True

instance : ∀ e : Event, Decidable (notReply e)
  | .reply .. => isFalse id
  | .request .. | .deliver _ | .cancel _ | .job _ => isTrue trivial

/-- **Step**: a job that has heard nothing waits on, and no job is started. -/
theorem waits_step {s s' : Manager} {e : Event} (hord : Orderly s) (hok : s.marked e)
    (hreply : notReply e) {job : ActiveJob} (hjobs : s.jobs = [job])
    (hphase : job.phase = .waiting) (hheard : job.heard = []) (hnext : s.next e = some s') :
    s'.jobs = [job] ∧ s'.scheduler.executed = s.scheduler.executed := by
  obtain ⟨-, ⟨plan, taskID, refs, sched, rfl, hsched, rfl⟩ | ⟨i, sched, rfl, hsched, rfl⟩ |
    ⟨path, sched, rfl, hsched, rfl⟩ | ⟨object_path, action, rfl, -, rfl⟩ |
    ⟨step, job', rest, rfl, hjobs', hlost, rfl⟩ | ⟨step, job', rest, rfl, hjobs', -, hstep⟩⟩ :=
    next_cases hnext
  · obtain ⟨-, -, rfl⟩ := scheduler_request hsched
    exact ⟨hjobs, rfl⟩
  · rcases deliver_cases hok hsched with ⟨hstart, -, hexecuted, -⟩ | ⟨t, hidle, -⟩
    · exact ⟨by simp [hstart, hjobs], hexecuted⟩
    · exact absurd hidle (hord.stack_ne_nil hjobs)
  · obtain rfl := scheduler_cancel hsched
    exact ⟨hjobs, rfl⟩
  · cases hreply
  · exact absurd (hord.listed job' (hjobs' ▸ List.mem_cons_self)) hlost
  · obtain ⟨rfl, rfl⟩ := List.cons.inj (hjobs'.symm.trans hjobs)
    -- no step of the job is enabled
    rcases jobNext_cases hstep with ⟨sched, -, hp, -⟩ | ⟨-, hp, -⟩ | ⟨sched, -, -, hh, -⟩ |
      ⟨-, hp, -⟩ | ⟨e, sched, hp, -⟩ | ⟨sched, -, hp, -⟩
    · rw [hphase] at hp; cases hp
    · rw [hphase] at hp; cases hp
    · exact absurd hheard hh
    · rw [hphase] at hp; cases hp
    · rw [hphase] at hp; cases hp
    · rw [hphase] at hp
      rcases hp with hp | hp <;> cases hp

/-- **Waiting**: if no job is started inside another one, then as long as no
    reply arrives the job waits, its task stays in the list, even if it is
    canceled, and no other job is started. -/
theorem waits_of_exec {es es' : List Event} {s s' : Manager} {job : ActiveJob}
    {rest : List ActiveJob} (hmeets : machine.Meets marked init (es ++ es'))
    (hexec : machine.exec init es = some s) (hjobs : s.jobs = job :: rest)
    (hphase : job.phase = .waiting) (hheard : job.heard = []) (hreply : ∀ e ∈ es', notReply e)
    (hexec' : machine.exec s es' = some s') :
    s'.jobs = [job] ∧ job.path ∈ s'.scheduler.paths ∧
      s'.scheduler.executed = s.scheduler.executed := by
  have hord := orderly_of_exec (machine.meets_append_left hmeets) hexec
  obtain rfl := hord.rest_eq_nil hjobs
  have hmeets' : machine.Meets (fun s e => s.marked e ∧ notReply e) s es' :=
    machine.meets_and (machine.meets_append_right hmeets hexec) (machine.meets_of_forall hreply s)
  have hstep : ∀ s₁ e s₂, Orderly s₁ ∧ s₁.jobs = [job] ∧
      s₁.scheduler.executed = s.scheduler.executed → s₁.marked e ∧ notReply e →
      machine.next s₁ e = some s₂ → Orderly s₂ ∧ s₂.jobs = [job] ∧
      s₂.scheduler.executed = s.scheduler.executed := by
    rintro s₁ e s₂ ⟨hord₁, hjobs₁, hexecuted⟩ ⟨hok, hreply⟩ hnext
    obtain ⟨hjobs₂, hexecuted₂⟩ := waits_step hord₁ hok hreply hjobs₁ hphase hheard hnext
    exact ⟨orderly_step s₁ e s₂ hord₁ hok hnext, hjobs₂, hexecuted₂.trans hexecuted⟩
  obtain ⟨hord', hjobs', hexecuted⟩ :=
    machine.invariant_of_meets hstep ⟨hord, hjobs, rfl⟩ hmeets' hexec'
  exact ⟨hjobs', hord'.listed job (hjobs' ▸ List.mem_cons_self), hexecuted⟩

/-- A job that asks. -/
def asking : List Event :=
  [.request ⟨.install, .upgrade, false⟩ "a" (.single "stable:main/a/1.0.0.1/x86_64/binary"),
    .deliver 0, .job .ask]

/-- In the meantime its task is canceled, and another request arrives. -/
def meanwhile : List Event :=
  [.cancel "/org/deepin/linglong/Task1/a",
    .request ⟨.uninstall, .install, true⟩ "b" (.single "stable:main/b/1.0.0.0/x86_64/binary"),
    .deliver 0]

theorem waits_of_exec_canceled :
    ∃ s s' job, machine.exec init asking = some s ∧ machine.exec s meanwhile = some s' ∧
      s'.jobs = [job] ∧ job.path ∈ s'.scheduler.paths ∧
      s'.scheduler.executed = s.scheduler.executed := by
  obtain ⟨s, hs⟩ := machine.exists_of_exec_isSome init asking (by decide)
  obtain ⟨s', hs'⟩ := machine.exists_of_exec_isSome init (asking ++ meanwhile) (by decide)
  have hrest : machine.exec s meanwhile = some s' := machine.exec_append hs ▸ hs'
  have hjobs : s.jobs = [⟨"/org/deepin/linglong/Task1/a", ⟨.install, .upgrade, false⟩, .waiting,
      []⟩] := by
    cases hs
    rfl
  exact ⟨s, s', _, hs, hrest, waits_of_exec (by decide) hs hjobs rfl rfl (by decide) hrest⟩

/-! ## Section 4: Consent -/

/-- The job has told its task to cancel. -/
def refused (job : ActiveJob) : Bool :=
  match job.plan.kind with
  | .installFromFile => job.heard.any (· != some "yes")
  | .install =>
      job.plan.asks && job.phase == .asked && job.heard.head? != some (some "yes")
  | .uninstall | .update => false

/-- The replies that let a job go on: all of them for a file, the last one
    for `install`. -/
def consents (job : ActiveJob) : Prop :=
  if job.plan.kind = .installFromFile then ∀ action ∈ job.heard, action = some "yes"
  else job.heard.head? = some (some "yes")

/-- The job is behind its check. -/
def past (job : ActiveJob) : Prop := job.phase = .working ∨ job.phase = .returning

/-- A task that its job has not worked on: it is done exactly if it was
    `told` so. -/
structure Untouched (t : PackageTask) (told : Prop) : Prop where
  refs : t.refs.size = 1
  parts : t.taskParts = 0
  flag : t.cancelFlag = true → isTaskDone t.subState = true
  done : isTaskDone t.subState = true ↔ told

theorem Untouched.congr {t : PackageTask} {told told' : Prop} (h : Untouched t told)
    (heq : told ↔ told') : Untouched t told' :=
  ⟨h.refs, h.parts, h.flag, h.done.trans heq⟩

/-- No part of the task is completed. -/
theorem Untouched.stateAfter {t : PackageTask} {told : Prop} (h : Untouched t told)
    {st : State} (hst : st ≠ .partCompleted) : t.stateAfter st = st := by
  unfold PackageTask.stateAfter PackageTask.partsAfter
  rw [if_neg hst, h.parts, h.refs]
  rfl

/-- "Waiting for the other tasks". -/
theorem Untouched.queued {t : PackageTask} {told : Prop} (h : Untouched t told) (msg : String) :
    Untouched (t.updateState .queued msg none) told := by
  have hsub : (t.updateState .queued msg none).subState = t.subState := by
    rw [PackageTask.updateState_subState, h.stateAfter (by decide)]
    rfl
  refine ⟨by simpa using h.refs, by simpa using h.parts, ?_, ?_⟩
  · rw [PackageTask.updateState_cancelFlag, hsub]
    exact h.flag
  · rw [hsub]
    exact h.done

/-- The handler of a file job, or an `install` job, cancels the task. -/
theorem Untouched.canceled {t : PackageTask} {told told' : Prop} (h : Untouched t told)
    (htold : told') (msg : String) : Untouched (t.updateState .canceled msg none) told' := by
  have hsub : (t.updateState .canceled msg none).subState = .allDone := by
    rw [PackageTask.updateState_subState, h.stateAfter (by decide)]
    rfl
  refine ⟨by simpa using h.refs, by simpa using h.parts, ?_, ?_⟩
  · exact fun _ => by rw [hsub]; rfl
  · rw [hsub]
    exact iff_of_true rfl htold

/-- A `Cancel` call. -/
theorem Untouched.cancel {t : PackageTask} {told told' : Prop} (h : Untouched t told)
    (htold : told') : Untouched t.cancel told' := by
  have hdone : isTaskDone t.cancel.subState = true := by
    cases hflag : t.cancelFlag with
    | true =>
      rw [PackageTask.cancel_of_flag hflag]
      exact h.flag hflag
    | false =>
      rw [PackageTask.cancel_subState hflag]
      rfl
  exact ⟨by simpa using h.refs, by simpa using h.parts, fun _ => hdone, iff_of_true hdone htold⟩

/-- What each task whose job is not behind its check has been told. -/
structure Told (s : Manager) : Prop where
  known : ∀ p ∈ s.canceled, p ∈ s.scheduler.created
  plans : ∀ job ∈ s.jobs, s.plan job.path = job.plan
  untouched : ∀ t ∈ s.scheduler.taskList,
    (s.plan t.taskObjectPath).kind = .install ∨
      (s.plan t.taskObjectPath).kind = .installFromFile →
    (∀ job ∈ s.jobs, job.path = t.taskObjectPath → ¬ past job) →
    Untouched t (t.taskObjectPath ∈ s.canceled ∨
      ∃ job ∈ s.jobs, job.path = t.taskObjectPath ∧ refused job = true)

theorem told_init : Told init := by
  constructor <;> simp [init, Scheduler.init]

/-- What hearing a reply adds. -/
theorem refused_hear (action : Option String) (job : ActiveJob) :
    refused (job.hear action) = (refused job || job.cancelsOn action) := by
  have hkind : (RequestKind.install == RequestKind.installFromFile) = false := rfl
  have hwait : (Phase.waiting == Phase.asked) = false := rfl
  obtain ⟨path, ⟨kind, msgType, skipInteraction⟩, phase, heard⟩ := job
  by_cases hphase : phase = .waiting
  · cases kind <;>
      simp [ActiveJob.hear, ActiveJob.cancelsOn, refused, hphase, hkind, hwait, Bool.or_comm]
  · simp [ActiveJob.hear, ActiveJob.cancelsOn, hphase]

/-- What looking at the reply adds. -/
theorem refused_asked {job : ActiveJob} (hphase : job.phase = .waiting)
    (hasks : job.plan.asks = true) :
    refused { job with phase := .asked } = (refused job || job.declined) := by
  rcases Plan.kind_of_asks hasks with hkind | hkind
  · simp [refused, ActiveJob.declined, hkind, hphase, hasks]
  · simp [refused, ActiveJob.declined, hkind]

/-- A job that has not asked, and one that does not ask. -/
theorem refused_of_silent {job : ActiveJob} (hheard : job.heard = [])
    (hphase : job.phase ≠ .asked ∨ job.plan.asks = false) : refused job = false := by
  obtain ⟨path, ⟨kind, msgType, skipInteraction⟩, phase, heard⟩ := job
  cases kind with
  | install =>
    rcases hphase with hphase | hasks
    · simp_all [refused]
    · simp_all [refused]
  | installFromFile => simp_all [refused]
  | uninstall => rfl
  | update => rfl

/-- Tasks after a change of some of them. -/
theorem mem_modifyTask {sched : Scheduler} {path : String} {f : PackageTask → PackageTask}
    (hf : ∀ t, (f t).taskObjectPath = t.taskObjectPath) {t' : PackageTask}
    (h : t' ∈ (sched.modifyTask path f).taskList) :
    (t' ∈ sched.taskList ∧ t'.taskObjectPath ≠ path) ∨
      ∃ t ∈ sched.taskList, t.taskObjectPath = path ∧ t' = f t ∧ t'.taskObjectPath = path := by
  obtain ⟨t, ht, rfl⟩ := List.mem_map.1 h
  by_cases hpath : t.taskObjectPath = path
  · rw [if_pos hpath]
    exact .inr ⟨t, ht, hpath, rfl, (hf t).trans hpath⟩
  · rw [if_neg hpath]
    exact .inl ⟨ht, hpath⟩

/-- The task of the job, before its check. -/
theorem Told.own {s : Manager} (h : Told s) {job : ActiveJob} (hjobs : s.jobs = [job])
    {t : PackageTask} (ht : t ∈ s.scheduler.taskList) (hpath : t.taskObjectPath = job.path)
    (hkind : (s.plan job.path).kind = .install ∨ (s.plan job.path).kind = .installFromFile)
    (hpast : ¬ past job) : Untouched t (job.path ∈ s.canceled ∨ refused job = true) := by
  have := h.untouched t ht (by rwa [hpath]) (by simp [hjobs, hpast])
  exact this.congr (by simp [hjobs, hpath])

/-- A step that has to do with the job and its task only. -/
theorem Told.of_job {s s' : Manager} (h : Told s) {job job' : ActiveJob} (hjobs : s.jobs = [job])
    (hjobs' : s'.jobs = [job']) (hpath : job'.path = job.path) (hplan : job'.plan = job.plan)
    (hplans : s'.plan = s.plan) (hcanceled : s'.canceled = s.canceled)
    (hcreated : s'.scheduler.created = s.scheduler.created)
    (htask : ∀ t ∈ s'.scheduler.taskList,
      (t ∈ s.scheduler.taskList ∧ t.taskObjectPath ≠ job.path) ∨
        (t.taskObjectPath = job.path ∧ (¬ past job' →
          (s.plan job.path).kind = .install ∨ (s.plan job.path).kind = .installFromFile →
          Untouched t (job.path ∈ s.canceled ∨ refused job' = true)))) : Told s' := by
  refine ⟨?_, ?_, ?_⟩
  · rw [hcanceled, hcreated]
    exact h.known
  · intro job'' hjob''
    rw [hjobs', List.mem_singleton] at hjob''
    rw [hjob'', hpath, hplans, hplan]
    exact h.plans job (hjobs ▸ List.mem_singleton.2 rfl)
  · intro t ht hkind hpast
    rw [hplans] at hkind
    rw [hcanceled, hjobs']
    rw [hjobs'] at hpast
    rcases htask t ht with ⟨hmem, hne⟩ | ⟨heq, hown⟩
    · have hne' : ¬ job'.path = t.taskObjectPath := fun heq => hne (heq.symm.trans hpath)
      refine (h.untouched t hmem hkind ?_).congr ?_
      · intro job'' hjob'' heq
        rw [hjobs, List.mem_singleton] at hjob''
        exact absurd (hjob'' ▸ heq.symm) hne
      · simp [hjobs, hne', Ne.symm hne]
    · refine (hown (hpast job' (List.mem_singleton.2 rfl) (hpath.trans heq.symm)) ?_).congr ?_
      · rwa [heq] at hkind
      · simp [heq, hpath]

/-- A new task. -/
theorem untouched_newTask {kind : RequestKind} (hkind : kind = .install ∨ kind = .installFromFile)
    {taskID : String} {refs : QStringList} (hrefs : refs.size = 1) {told : Prop} (htold : ¬ told) :
    Untouched (Scheduler.newTask kind taskID refs) told := by
  have hnew : Scheduler.newTask kind taskID refs = (PackageTask.create taskID refs).setJob := by
    rcases hkind with rfl | rfl <;> rfl
  rw [hnew]
  have hdone : isTaskDone (PackageTask.create taskID refs).setJob.subState = false := rfl
  exact ⟨hrefs, rfl, by simp [PackageTask.create, PackageTask.setJob],
    iff_of_false (by simp [hdone]) htold⟩

/-- A request adds a task that has not been told anything. -/
theorem Told.request {s : Manager} (hord : Orderly s) (h : Told s) {plan : Plan}
    {taskID : String} {refs : QStringList} {sched : Scheduler}
    (hsched : s.scheduler.next (.request plan.kind taskID refs) = some sched) :
    Told { s with
      scheduler := sched
      plan := fun p =>
        if p = (Scheduler.newTask plan.kind taskID refs).taskObjectPath then plan
        else s.plan p } := by
  obtain ⟨hrefs, hfresh, rfl⟩ := scheduler_request hsched
  have hold : ∀ p ∈ s.scheduler.paths,
      p ≠ (Scheduler.newTask plan.kind taskID refs).taskObjectPath :=
    fun p hp heq => hfresh (heq ▸ hord.exclusive.paths_created p hp)
  refine ⟨?_, ?_, ?_⟩
  · intro p hp
    exact List.mem_cons_of_mem _ (h.known p hp)
  · intro job hjob
    simp only
    rw [if_neg (hold _ (hord.listed job hjob))]
    exact h.plans job hjob
  · intro t ht hkind hpast
    simp only at hkind hpast ⊢
    rcases List.mem_append.1 ht with ht | ht
    · rw [if_neg (hold _ (Scheduler.mem_paths ht))] at hkind
      exact h.untouched t ht hkind hpast
    · obtain rfl := List.mem_singleton.1 ht
      rw [if_pos rfl] at hkind
      have hone : refs.size = 1 := by
        rcases hrefs with hupdate | hone
        · rw [hupdate] at hkind
          rcases hkind with hkind | hkind <;> cases hkind
        · exact hone
      refine untouched_newTask hkind hone ?_
      rintro (hc | ⟨job, hjob, heq, -⟩)
      · exact hfresh (h.known _ hc)
      · exact hold _ (hord.listed job hjob) heq

/-- A delivery leaves the tasks alone, holds them back, or starts a job. -/
theorem Told.deliver {s : Manager} (hord : Orderly s) (h : Told s) {i : Nat}
    (hok : s.marked (.deliver i)) {sched : Scheduler}
    (hsched : s.scheduler.next (.deliver i) = some sched) :
    Told { s with scheduler := sched, jobs := s.startedJob.toList ++ s.jobs } := by
  rcases deliver_cases hok hsched with ⟨hstart, -, -, hcreated, hlist⟩ |
    ⟨t, hidle, -, hstart, -, -, hcreated, hlist⟩
  · simp only [hstart, Option.toList_none, List.nil_append]
    refine ⟨?_, h.plans, ?_⟩
    · rw [hcreated]
      exact h.known
    · intro t ht hkind hpast
      rcases hlist with hlist | hlist
      · exact h.untouched t (hlist ▸ ht) hkind hpast
      · rw [hlist] at ht
        obtain ⟨u, hu, rfl⟩ := List.mem_map.1 ht
        split at hkind
        · next hskip =>
          simp only [hskip, if_true] at hpast ⊢
          exact h.untouched u hu hkind hpast
        · next hskip =>
          simp only [hskip, Bool.false_eq_true, if_false,
            PackageTask.updateState_taskObjectPath] at hkind hpast ⊢
          exact (h.untouched u hu hkind hpast).queued "Waiting for the other tasks"
  · have hjobs : s.jobs = [] := hord.jobs_eq_nil hidle
    simp only [hstart, hjobs, Option.toList_some, List.append_nil]
    refine ⟨?_, by simp [ActiveJob.start], ?_⟩
    · rw [hcreated]
      exact h.known
    · intro u hu hkind _
      -- the job that is started has not told its task anything
      have hsilent : refused (ActiveJob.start t.taskObjectPath (s.plan t.taskObjectPath)) = false :=
        refused_of_silent rfl (.inl (by simp [ActiveJob.start]))
      refine (h.untouched u (hlist ▸ hu) hkind (by simp [hjobs])).congr ?_
      simp [hjobs, hsilent]

/-- A `Cancel` call. -/
theorem Told.cancel {s : Manager} (hord : Orderly s) (h : Told s) (path : String) :
    Told { s with
      scheduler := s.scheduler.modifyTask path PackageTask.cancel
      canceled := if path ∈ s.scheduler.paths then path :: s.canceled else s.canceled } := by
  refine ⟨?_, h.plans, ?_⟩
  · intro p hp
    simp only at hp ⊢
    split at hp
    · next hmem =>
      rcases List.mem_cons.1 hp with rfl | hp
      · exact hord.exclusive.paths_created _ hmem
      · exact h.known p hp
    · exact h.known p hp
  · intro t ht hkind hpast
    rcases mem_modifyTask PackageTask.cancel_taskObjectPath ht with ⟨ht, hne⟩ |
      ⟨u, hu, hpath, rfl, -⟩
    · refine (h.untouched t ht hkind hpast).congr (or_congr_left ?_)
      split
      · simp [hne]
      · exact Iff.rfl
    · rw [PackageTask.cancel_taskObjectPath] at hkind hpast ⊢
      refine (h.untouched u hu hkind hpast).cancel (.inl ?_)
      rw [if_pos (hpath ▸ Scheduler.mem_paths hu), hpath]
      exact List.mem_cons_self

/-- A reply. -/
theorem Told.reply {s : Manager} (h : Told s) {job : ActiveJob} (hjobs : s.jobs = [job])
    (action : Option String) :
    Told { s with
      scheduler := cancelOn action s.jobs s.scheduler
      jobs := s.jobs.map (ActiveJob.hear action) } := by
  obtain ⟨hphase, hplan, hpath⟩ := hear_phase action job
  have hpast : past (job.hear action) ↔ past job := by rw [past, past, hphase]
  refine h.of_job hjobs (by simp [hjobs]) hpath hplan rfl rfl ?_ ?_
  · simp only [hjobs, cancelOn, List.foldr_cons, List.foldr_nil]
    split <;> rfl
  · intro t ht
    simp only [hjobs, cancelOn, List.foldr_cons, List.foldr_nil] at ht
    cases hc : job.cancelsOn action with
    | true =>
      rw [hc, if_pos rfl] at ht
      rcases mem_modifyTask (fun t => PackageTask.updateState_taskObjectPath t .canceled
        "canceled" none) ht with hother | ⟨u, hu, hup, rfl, hpath'⟩
      · exact .inl hother
      · refine .inr ⟨hpath', fun hnp hkind => ?_⟩
        refine (h.own hjobs hu hup hkind (fun hp => hnp (hpast.2 hp))).canceled (.inr ?_) "canceled"
        rw [refused_hear, hc, Bool.or_true]
    | false =>
      rw [hc, if_neg (by simp)] at ht
      by_cases hpath' : t.taskObjectPath = job.path
      · refine .inr ⟨hpath', fun hnp hkind => ?_⟩
        rw [refused_hear, hc, Bool.or_false]
        exact h.own hjobs ht hpath' hkind (fun hp => hnp (hpast.2 hp))
      · exact .inl ⟨ht, hpath'⟩

/-- A step of the job that leaves all tasks alone. -/
theorem Told.same_tasks {s s' : Manager} (h : Told s) {job job' : ActiveJob}
    (hjobs : s.jobs = [job]) (hjobs' : s'.jobs = [job']) (hpath : job'.path = job.path)
    (hplan : job'.plan = job.plan) (hplans : s'.plan = s.plan)
    (hcanceled : s'.canceled = s.canceled)
    (hcreated : s'.scheduler.created = s.scheduler.created)
    (hlist : s'.scheduler.taskList = s.scheduler.taskList)
    (hrefused : ¬ past job' → ¬ past job ∧ refused job' = refused job) : Told s' := by
  refine h.of_job hjobs hjobs' hpath hplan hplans hcanceled hcreated ?_
  intro t ht
  rw [hlist] at ht
  by_cases hpath' : t.taskObjectPath = job.path
  · refine .inr ⟨hpath', fun hnp hkind => ?_⟩
    rw [(hrefused hnp).2]
    exact h.own hjobs ht hpath' hkind (hrefused hnp).1
  · exact .inl ⟨ht, hpath'⟩

/-- The job comes back from its question. -/
theorem Told.afterQuestion {s : Manager} (h : Told s) {job : ActiveJob} (hjobs : s.jobs = [job])
    (hphase : job.phase = .waiting) (hasks : job.plan.asks = true) {sched : Scheduler}
    (hsched : s.scheduler.next .leaveLoop = some sched) : Told (s.afterQuestion sched job []) := by
  have hnp : ¬ past job := by simp [past, hphase]
  have hrefused := refused_asked hphase hasks
  obtain ⟨hlist, hcreated⟩ := scheduler_loop (.inr rfl) hsched
  unfold Manager.afterQuestion
  cases hd : job.declined with
  | true =>
    rw [hd, Bool.or_true] at hrefused
    refine h.of_job hjobs rfl rfl rfl rfl rfl hcreated ?_
    intro t ht
    rcases mem_modifyTask (fun t => PackageTask.updateState_taskObjectPath t .canceled
      "canceled" none) ht with ⟨ht, hne⟩ | ⟨u, hu, hup, rfl, hpath⟩
    · exact .inl ⟨hlist ▸ ht, hne⟩
    · refine .inr ⟨hpath, fun _ hkind => ?_⟩
      exact (h.own hjobs (hlist ▸ hu) hup hkind hnp).canceled (.inr hrefused) "canceled"
  | false =>
    rw [hd, Bool.or_false] at hrefused
    exact h.same_tasks hjobs rfl rfl rfl rfl rfl hcreated hlist fun _ => ⟨hnp, hrefused⟩

/-- The job works. -/
theorem Told.working {s : Manager} (hord : Orderly s) (h : Told s) {job : ActiveJob}
    (hjobs : s.jobs = [job]) (hpast : past job) {e : Linglong.Event}
    (he : (∃ c, e = .call c) ∨ e = .enterLoop ∨ e = .leaveLoop) {sched : Scheduler}
    (hsched : s.scheduler.next e = some sched) :
    Told { s with scheduler := sched, jobs := [job] } := by
  obtain ⟨-, -, hcreated, -, hlist | ⟨c, f, stack, rfl, hstack, rfl⟩⟩ :=
    scheduler_job_step he hsched
  · exact h.same_tasks hjobs rfl rfl rfl rfl rfl hcreated hlist
      fun hnp => absurd hpast hnp
  · have hf : f.path = job.path := by
      have := hord.aligned
      rw [hjobs, hstack] at this
      exact (List.cons.inj this).1.symm
    refine h.of_job hjobs rfl rfl rfl rfl rfl hcreated ?_
    intro t ht
    rcases mem_modifyTask (fun t => t.apply_taskObjectPath c) ht with ⟨ht, hne⟩ |
      ⟨u, -, -, -, hpath⟩
    · exact .inl ⟨ht, hf ▸ hne⟩
    · exact .inr ⟨hpath.trans hf, fun hnp _ => absurd hpast hnp⟩

/-- The job returns, and its task leaves the list. -/
theorem Told.finish {s : Manager} (hord : Orderly s) (h : Told s) {job : ActiveJob}
    (hjobs : s.jobs = [job]) {sched : Scheduler} (hsched : s.scheduler.next .finish = some sched) :
    Told { s with scheduler := sched, jobs := [] } := by
  obtain ⟨path, stack, hstack, rfl⟩ := scheduler_finish hsched
  have hpath : path = job.path := by
    have := hord.aligned
    rw [hjobs, hstack] at this
    exact (List.cons.inj this).1.symm
  refine ⟨h.known, by simp, ?_⟩
  intro t ht hkind _
  obtain ⟨ht, hne⟩ := List.mem_filter.1 ht
  have hne' : ¬ job.path = t.taskObjectPath := by
    intro heq
    simp [hpath, heq] at hne
  exact (h.untouched t ht hkind (by simp [hjobs, hne'])).congr (by simp [hjobs, hne'])

/-- **Step**: what a task has been told. -/
theorem told_step (s : Manager) (e : Event) (s' : Manager) (h : (Orderly s ∧ Quiet s) ∧ Told s)
    (hok : s.marked e) (hnext : machine.next s e = some s') :
    (Orderly s' ∧ Quiet s') ∧ Told s' := by
  refine ⟨quiet_step s e s' h.1 hok hnext, ?_⟩
  obtain ⟨⟨hord, hquiet⟩, h⟩ := h
  obtain ⟨-, ⟨plan, taskID, refs, sched, rfl, hsched, rfl⟩ | ⟨i, sched, rfl, hsched, rfl⟩ |
    ⟨path, sched, rfl, hsched, rfl⟩ | ⟨object_path, action, rfl, -, rfl⟩ |
    ⟨step, job, rest, rfl, hjobs, -, rfl⟩ | ⟨step, job, rest, rfl, hjobs, hmem, hstep⟩⟩ :=
    next_cases hnext
  · exact h.request hord hsched
  · exact h.deliver hord hok hsched
  · obtain rfl := scheduler_cancel hsched
    exact h.cancel hord path
  · unfold replyReceived
    split
    · exact ⟨h.known, h.plans, h.untouched⟩
    · cases hjobs : s.jobs with
      | nil =>
        refine ⟨h.known, by simp, ?_⟩
        simpa [hjobs, cancelOn] using h.untouched
      | cons job rest =>
        obtain rfl := hord.rest_eq_nil hjobs
        rw [← hjobs]
        exact h.reply hjobs action
  · exact ⟨h.known, h.plans, h.untouched⟩
  · obtain rfl := hord.rest_eq_nil hjobs
    have hjob : job ∈ s.jobs := hjobs ▸ List.mem_singleton.2 rfl
    rcases jobNext_cases hstep with ⟨sched, rfl, hphase, hasks, hsched, rfl⟩ |
      ⟨rfl, hphase, hasks, rfl⟩ | ⟨sched, rfl, hphase, hheard, hsched, rfl⟩ | ⟨rfl, hphase, rfl⟩ |
      ⟨e, sched, hphase, he, hsched, rfl⟩ | ⟨sched, rfl, -, hsched, rfl⟩
    · have hsilent : job.heard = [] := hquiet.silent job hjob (.inl hphase)
      have hbefore : refused job = false := refused_of_silent hsilent (.inl (by simp [hphase]))
      have hafter : refused { job with phase := .waiting } = false :=
        refused_of_silent hsilent (.inl (by simp))
      obtain ⟨hlist, hcreated⟩ := scheduler_loop (.inl rfl) hsched
      exact h.same_tasks hjobs rfl rfl rfl rfl rfl hcreated hlist
        fun _ => ⟨by simp [past, hphase], hafter.trans hbefore.symm⟩
    · have hsilent : job.heard = [] := hquiet.silent job hjob (.inl hphase)
      have hbefore : refused job = false := refused_of_silent hsilent (.inl (by simp [hphase]))
      have hafter : refused { job with phase := .asked } = false :=
        refused_of_silent hsilent (.inr hasks)
      exact h.same_tasks hjobs rfl rfl rfl rfl rfl rfl rfl
        fun _ => ⟨by simp [past, hphase], hafter.trans hbefore.symm⟩
    · exact h.afterQuestion hjobs hphase (hquiet.asks job hjob hphase) hsched
    · refine h.same_tasks hjobs rfl rfl rfl rfl rfl rfl rfl fun hnp => absurd ?_ hnp
      unfold past
      split
      · exact .inr rfl
      · exact .inl rfl
    · have he' : (∃ c, e = .call c) ∨ e = .enterLoop ∨ e = .leaveLoop := by
        rcases he with ⟨c, -, rfl⟩ | ⟨-, rfl⟩ | ⟨-, rfl⟩
        · exact .inl ⟨c, rfl⟩
        · exact .inr (.inl rfl)
        · exact .inr (.inr rfl)
      exact h.working hord hjobs (.inl hphase) he' hsched
    · exact h.finish hord hjobs hsched

theorem told_of_exec {es : List Event} {s : Manager} (hmeets : machine.Meets marked init es)
    (hexec : machine.exec init es = some s) : (Orderly s ∧ Quiet s) ∧ Told s :=
  machine.invariant_of_meets told_step ⟨⟨orderly_init, quiet_init⟩, told_init⟩ hmeets hexec

/-- A step of the innermost job. -/
theorem next_job {s s' : Manager} {job : ActiveJob} {rest : List ActiveJob} {step : JobStep}
    (hord : Orderly s) (hjobs : s.jobs = job :: rest) (h : s.next (.job step) = some s') :
    s.jobNext job rest step = some s' := by
  obtain ⟨-, ⟨plan, taskID, refs, sched, he, -⟩ | ⟨i, sched, he, -⟩ | ⟨path, sched, he, -⟩ |
    ⟨object_path, action, he, -⟩ | ⟨step', job', rest', he, hjobs', hlost, -⟩ |
    ⟨step', job', rest', he, hjobs', -, hstep⟩⟩ := next_cases h
  · cases he
  · cases he
  · cases he
  · cases he
  · exact absurd (hord.listed job' (hjobs' ▸ List.mem_cons_self)) hlost
  · cases he
    obtain ⟨rfl, rfl⟩ := List.cons.inj (hjobs'.symm.trans hjobs)
    exact hstep

/-- What the sub-state says before the check. -/
theorem Told.isDone_iff {s : Manager} (hord : Orderly s) (h : Told s) {job : ActiveJob}
    (hjobs : s.jobs = [job]) (hkind : job.plan.kind = .install ∨ job.plan.kind = .installFromFile)
    (hpast : ¬ past job) :
    s.isDone job.path = true ↔ job.path ∈ s.canceled ∨ refused job = true := by
  have hmem : job ∈ s.jobs := hjobs ▸ List.mem_singleton.2 rfl
  have hkind' : (s.plan job.path).kind = .install ∨ (s.plan job.path).kind = .installFromFile := by
    rwa [h.plans job hmem]
  simp only [isDone, List.any_eq_true, Bool.and_eq_true, beq_iff_eq]
  constructor
  · rintro ⟨t, ht, hpath, hdone⟩
    exact (h.own hjobs ht hpath hkind' hpast).done.1 hdone
  · intro htold
    obtain ⟨t, ht, hpath⟩ := List.mem_map.1 (hord.listed job hmem)
    exact ⟨t, ht, hpath, (h.own hjobs ht hpath hkind' hpast).done.2 htold⟩

/-- Behind the question the job has told its task to cancel unless it asked
    and may go on, or did not ask. -/
theorem Quiet.refused_iff {s : Manager} (h : Quiet s) {job : ActiveJob} (hjob : job ∈ s.jobs)
    (hphase : job.phase = .asked)
    (hkind : job.plan.kind = .install ∨ job.plan.kind = .installFromFile) :
    refused job = true ↔ ¬ (job.plan.asks = true → consents job) := by
  cases hasks : job.plan.asks with
  | false =>
    have hno := refused_of_silent (h.silent job hjob (.inr hasks)) (.inr hasks)
    simp [hno]
  | true =>
    rcases hkind with hkind | hkind
    · simp [refused, consents, hkind, hphase, hasks]
    · simp [refused, consents, hkind]

/-- The check, from what the tasks have been told. -/
theorem check_cases {s s' : Manager} (hord : Orderly s) (hquiet : Quiet s) (htold : Told s)
    {job : ActiveJob} {rest : List ActiveJob} (hjobs : s.jobs = job :: rest)
    (hphase : job.phase = .asked)
    (hkind : job.plan.kind = .install ∨ job.plan.kind = .installFromFile)
    (hnext : s.next (.job .check) = some s') :
    ∃ phase, s'.jobs = [{ job with phase := phase }] ∧ (phase = .working ∨ phase = .returning) ∧
      (phase = .working ↔
        job.path ∉ s.canceled ∧ (job.plan.asks = true → consents job)) := by
  obtain rfl := hord.rest_eq_nil hjobs
  have hstep := next_job hord hjobs hnext
  obtain ⟨-, hstep⟩ := Option.ite_none_right_eq_some.1 hstep
  obtain rfl := Option.some.inj hstep
  have hdone := htold.isDone_iff hord hjobs hkind (by simp [past, hphase])
  rw [hquiet.refused_iff (hjobs ▸ List.mem_singleton.2 rfl) hphase hkind] at hdone
  refine ⟨_, rfl, ?_, ?_⟩
  · split
    · exact .inr rfl
    · exact .inl rfl
  · cases hd : s.isDone job.path with
    | true =>
      have := hdone.1 hd
      simp only [if_true, reduceCtorEq, false_iff]
      tauto
    | false =>
      have : ¬ (job.path ∈ s.canceled ∨ ¬ (job.plan.asks = true → consents job)) := by
        rw [← hdone, hd]
        decide
      simp only [Bool.false_eq_true, if_false, true_iff]
      tauto

/-- **Consent**: behind the question a job goes on to install unless `Cancel`
    was called on its task or it asked and the replies do not let it. -/
theorem goesOn_iff {es : List Event} {s s' : Manager} {job : ActiveJob} {rest : List ActiveJob}
    (hmeets : machine.Meets marked init es) (hexec : machine.exec init es = some s)
    (hjobs : s.jobs = job :: rest) (hphase : job.phase = .asked)
    (hkind : job.plan.kind = .install ∨ job.plan.kind = .installFromFile)
    (hnext : s.next (.job .check) = some s') :
    ∃ phase, s'.jobs = [{ job with phase := phase }] ∧ (phase = .working ∨ phase = .returning) ∧
      (phase = .working ↔
        job.path ∉ s.canceled ∧ (job.plan.asks = true → consents job)) := by
  obtain ⟨⟨hord, hquiet⟩, htold⟩ := told_of_exec hmeets hexec
  exact check_cases hord hquiet htold hjobs hphase hkind hnext

/-- An upgrade that its user agrees to. -/
theorem goesOn_iff_asking :
    ∃ (s s' : Manager) (job : ActiveJob),
      machine.exec init (asking ++ [.reply "" (some "yes"), .job .resume]) = some s ∧
      s.next (.job .check) = some s' ∧ ∃ phase, s'.jobs = [{ job with phase := phase }] ∧
        (phase = .working ∨ phase = .returning) ∧
        (phase = .working ↔
          job.path ∉ s.canceled ∧ (job.plan.asks = true → consents job)) := by
  obtain ⟨s, hs⟩ := machine.exists_of_exec_isSome init
    (asking ++ [.reply "" (some "yes"), .job .resume]) (by decide)
  obtain ⟨s', hs'⟩ := machine.exists_of_exec_isSome init
    (asking ++ [.reply "" (some "yes"), .job .resume] ++ [.job .check]) (by decide)
  have hjobs : s.jobs = [⟨"/org/deepin/linglong/Task1/a", ⟨.install, .upgrade, false⟩, .asked,
      [some "yes"]⟩] := by
    cases hs
    rfl
  have hnext : s.next (.job .check) = some s' := by
    obtain ⟨s₁, hs₁, hnil⟩ := machine.exec_cons_some.1 (machine.exec_append hs ▸ hs')
    exact Option.some.inj hnil ▸ hs₁
  exact ⟨s, s', _, hs, hnext, goesOn_iff (by decide) hs hjobs rfl (.inl rfl) hnext⟩

/-! ## Section 5: The clients -/

/-- Paths of the jobs that wait and have heard nothing. -/
def awaiting (s : Manager) : List String :=
  (s.jobs.filter fun job => job.phase == .waiting && job.heard.isEmpty).map ActiveJob.path

/-- A job that is started was not started before. -/
theorem fresh_of_idle {s : Manager} (hord : Orderly s) (hidle : s.scheduler.stack = [])
    {t : PackageTask} (hn : s.scheduler.nextTask = some t) :
    t.taskObjectPath ∉ s.scheduler.executed := by
  intro hmem
  have hact := hord.exclusive.gone _ hmem (Scheduler.mem_paths (List.mem_of_find?_eq_some hn))
  rw [Scheduler.active, hidle] at hact
  cases hact

/-- Events other than a reply, as the clients see them. -/
theorem jobs_next {s s' : Manager} {e : Event} (hord : Orderly s) (hok : s.marked e)
    (hreply : notReply e) (hnext : s.next e = some s') :
    (s'.jobs = s.jobs ∧ s'.scheduler.executed = s.scheduler.executed ∧ Dialog.sends s e = []) ∨
    (∃ path plan, s.jobs = [] ∧ s'.jobs = [ActiveJob.start path plan] ∧
      path ∉ s.scheduler.executed ∧ s'.scheduler.executed = path :: s.scheduler.executed ∧
      Dialog.sends s e = []) ∨
    (∃ job, s.jobs = [job] ∧ job.phase = .starting ∧ s'.jobs = [{ job with phase := .waiting }] ∧
      s'.scheduler.executed = s.scheduler.executed ∧ Dialog.sends s e = [job.path]) ∨
    (∃ job phase, s.jobs = [job] ∧ s'.jobs = [{ job with phase := phase }] ∧
      phase ≠ .starting ∧ phase ≠ .waiting ∧ (job.phase = .waiting → job.heard ≠ []) ∧
      (phase = .asked → job.plan.asks = true → job.heard ≠ []) ∧
      s'.scheduler.executed = s.scheduler.executed ∧ Dialog.sends s e = []) ∨
    (∃ job, s.jobs = [job] ∧ s'.jobs = [] ∧ job.phase ≠ .waiting ∧
      s'.scheduler.executed = s.scheduler.executed ∧ Dialog.sends s e = []) := by
  obtain ⟨-, ⟨plan, taskID, refs, sched, rfl, hsched, rfl⟩ | ⟨i, sched, rfl, hsched, rfl⟩ |
    ⟨path, sched, rfl, hsched, rfl⟩ | ⟨object_path, action, rfl, -, rfl⟩ |
    ⟨step, job, rest, rfl, hjobs, hlost, rfl⟩ | ⟨step, job, rest, rfl, hjobs, -, hstep⟩⟩ :=
    next_cases hnext
  · obtain ⟨-, -, rfl⟩ := scheduler_request hsched
    exact .inl ⟨rfl, rfl, rfl⟩
  · rcases deliver_cases hok hsched with ⟨hstart, -, hexecuted, -⟩ |
      ⟨t, hidle, hn, hstart, -, hexecuted, -⟩
    · exact .inl ⟨by simp [hstart], hexecuted, rfl⟩
    · have hjobs := hord.jobs_eq_nil hidle
      exact .inr (.inl ⟨t.taskObjectPath, s.plan t.taskObjectPath, hjobs, by simp [hstart, hjobs],
        fresh_of_idle hord hidle hn, hexecuted, rfl⟩)
  · obtain rfl := scheduler_cancel hsched
    exact .inl ⟨rfl, rfl, rfl⟩
  · cases hreply
  · exact absurd (hord.listed job (hjobs ▸ List.mem_cons_self)) hlost
  · obtain rfl := hord.rest_eq_nil hjobs
    rcases jobNext_cases hstep with ⟨sched, rfl, hphase, -, hsched, rfl⟩ |
      ⟨rfl, hphase, hasks, rfl⟩ | ⟨sched, rfl, hphase, hheard, hsched, rfl⟩ | ⟨rfl, hphase, rfl⟩ |
      ⟨e, sched, hphase, he, hsched, rfl⟩ | ⟨sched, rfl, hphase, hsched, rfl⟩
    · obtain ⟨-, hexecuted, -⟩ := scheduler_job_step (.inr (.inl rfl)) hsched
      exact .inr (.inr (.inl ⟨job, hjobs, hphase, rfl, hexecuted, by simp [Dialog.sends, hjobs]⟩))
    · refine .inr (.inr (.inr (.inl ⟨job, .asked, hjobs, rfl, by decide, by decide, ?_, ?_, rfl,
        rfl⟩)))
      · simp [hphase]
      · simp [hasks]
    · obtain ⟨-, hexecuted, -⟩ := scheduler_job_step (.inr (.inr rfl)) hsched
      refine .inr (.inr (.inr (.inl ⟨job, .asked, hjobs, rfl, by decide, by decide,
        fun _ => hheard, fun _ _ => hheard, ?_, rfl⟩)))
      unfold afterQuestion
      split
      · exact hexecuted
      · exact hexecuted
    · refine .inr (.inr (.inr (.inl ⟨job, _, hjobs, rfl, ?_, ?_, by simp [hphase], ?_, rfl, rfl⟩)))
      · split <;> decide
      · split <;> decide
      · split <;> simp
    · have he' : (∃ c, e = .call c) ∨ e = .enterLoop ∨ e = .leaveLoop := by
        rcases he with ⟨c, -, rfl⟩ | ⟨-, rfl⟩ | ⟨-, rfl⟩
        · exact .inl ⟨c, rfl⟩
        · exact .inr (.inl rfl)
        · exact .inr (.inr rfl)
      obtain ⟨-, hexecuted, -⟩ := scheduler_job_step he' hsched
      refine .inl ⟨hjobs.symm, hexecuted, ?_⟩
      rcases he with ⟨c, rfl, -⟩ | ⟨rfl, -⟩ | ⟨rfl, -⟩ <;> rfl
    · obtain ⟨path, stack, -, rfl⟩ := scheduler_finish hsched
      refine .inr (.inr (.inr (.inr ⟨job, hjobs, rfl, ?_, rfl, rfl⟩)))
      rcases hphase with hphase | hphase <;> simp [hphase]

end Manager

namespace Dialog

open Manager

/-- The condition on the deliveries. -/
def marked (d : Dialog) : Event → Prop
  | .manager e => d.manager.marked e
  | _ => True

instance (d : Dialog) : ∀ e, Decidable (d.marked e)
  | .manager e => inferInstanceAs (Decidable (d.manager.marked e))
  | .answer .. | .arrive _ => isTrue trivial

/-- The signals and replies on their way are for the job that waits. What a
    job heard is what its client answered, and every client was asked once. -/
structure Served (d : Dialog) : Prop where
  flow : d.manager.dangling = false →
    d.requests ++ d.replies.map Prod.fst = awaiting d.manager
  given : ∀ reply ∈ d.replies, reply ∈ d.answered
  heard : ∀ job ∈ d.manager.jobs,
    job.heard = [] ∨ ∃ action, job.heard = [some action] ∧ (job.path, action) ∈ d.answered
  settled : ∀ job ∈ d.manager.jobs, job.phase = .asked → job.plan.asks = true → job.heard ≠ []
  active : ∀ job ∈ d.manager.jobs, job.path ∈ d.manager.scheduler.executed
  once : (d.requests ++ d.answered.map Prod.fst).Nodup
  started : ∀ path ∈ d.requests ++ d.answered.map Prod.fst, path ∈ d.manager.scheduler.executed ∧
    ∀ job ∈ d.manager.jobs, job.path = path → job.phase ≠ .starting

theorem served_init : Served init := by
  constructor <;> simp [init, Manager.init, awaiting]

/-- **Step** of the package manager other than a reply. -/
theorem Served.manager {d : Dialog} (h : Served d) (hord : Orderly d.manager) {s : Manager}
    {e : Interactive.Event} (hok : d.manager.marked e) (hreply : notReply e)
    (hnext : d.manager.next e = some s) :
    Served { d with manager := s, requests := d.requests ++ sends d.manager e } := by
  have hd : d.manager.dangling = false := (next_cases hnext).1
  have hflow := h.flow hd
  rcases jobs_next hord hok hreply hnext with ⟨hjobs, hexecuted, hsends⟩ |
    ⟨path, plan, hjobs, hjobs', hfresh, hexecuted, hsends⟩ |
    ⟨job, hjobs, hphase, hjobs', hexecuted, hsends⟩ |
    ⟨job, phase, hjobs, hjobs', hstart, hwait, hbefore, hasked, hexecuted, hsends⟩ |
    ⟨job, hjobs, hjobs', hphase, hexecuted, hsends⟩
  · rw [hsends, List.append_nil]
    refine ⟨fun _ => ?_, h.given, ?_, ?_, ?_, h.once, ?_⟩
    · rw [hflow, awaiting, awaiting, hjobs]
    · rw [hjobs]; exact h.heard
    · rw [hjobs]; exact h.settled
    · rw [hjobs, hexecuted]; exact h.active
    · rw [hjobs, hexecuted]; exact h.started
  · -- a job is started
    rw [hsends, List.append_nil]
    refine ⟨fun _ => ?_, h.given, ?_, ?_, ?_, h.once, ?_⟩
    · rw [hflow, awaiting, awaiting, hjobs, hjobs']
      rfl
    · simp [hjobs', ActiveJob.start]
    · simp [hjobs', ActiveJob.start]
    · simp [hjobs', ActiveJob.start, hexecuted]
    · intro p hp
      have hp' := (h.started p hp).1
      refine ⟨hexecuted ▸ List.mem_cons_of_mem _ hp', ?_⟩
      intro job hjob heq
      rw [hjobs', List.mem_singleton] at hjob
      have hpath : path = p := by rw [← heq, hjob]; rfl
      exact absurd (hpath ▸ hp') hfresh
  · -- a job asks: nothing was on its way
    have hmem : job ∈ d.manager.jobs := hjobs ▸ List.mem_singleton.2 rfl
    have hnil : d.requests ++ d.replies.map Prod.fst = [] := by
      rw [hflow, awaiting, hjobs]
      simp [hphase]
    obtain ⟨hrequests, hreplies⟩ := List.append_eq_nil_iff.1 hnil
    have hnew : job.path ∉ d.answered.map Prod.fst := by
      intro hp
      exact (h.started _ (List.mem_append_right _ hp)).2 job hmem rfl hphase
    have hheard : job.heard = [] := by
      rcases h.heard job hmem with hheard | ⟨action, -, hans⟩
      · exact hheard
      · exact absurd (List.mem_map_of_mem (f := Prod.fst) hans) hnew
    have honce := h.once
    rw [hrequests, List.nil_append] at honce
    rw [hsends, hrequests, List.nil_append]
    refine ⟨fun _ => ?_, h.given, ?_, by simp [hjobs'], ?_, List.nodup_cons.2 ⟨hnew, honce⟩, ?_⟩
    · rw [hreplies, awaiting, hjobs']
      simp [hheard]
    · simp [hjobs', hheard]
    · simpa [hjobs', hexecuted] using h.active job hmem
    · intro p hp
      refine ⟨?_, by simp [hjobs']⟩
      rw [hexecuted]
      rcases List.mem_cons.1 hp with rfl | hp
      · exact h.active job hmem
      · exact (h.started p (List.mem_append_right _ hp)).1
  · -- the job moves on
    have hmem : job ∈ d.manager.jobs := hjobs ▸ List.mem_singleton.2 rfl
    rw [hsends, List.append_nil]
    refine ⟨fun _ => ?_, h.given, ?_, ?_, ?_, h.once, ?_⟩
    · have hquiet : ¬ (job.phase = .waiting ∧ job.heard = []) := fun hq => hbefore hq.1 hq.2
      rw [hflow, awaiting, awaiting, hjobs, hjobs']
      simp [hwait, hquiet]
    · simpa [hjobs'] using h.heard job hmem
    · simpa [hjobs'] using hasked
    · simpa [hjobs', hexecuted] using h.active job hmem
    · intro p hp
      exact ⟨hexecuted ▸ (h.started p hp).1, by simp [hjobs', hstart]⟩
  · -- the job returns
    rw [hsends, List.append_nil]
    refine ⟨fun _ => ?_, h.given, by simp [hjobs'], by simp [hjobs'], by simp [hjobs'], h.once, ?_⟩
    · rw [hflow, awaiting, awaiting, hjobs, hjobs']
      simp [hphase]
    · intro p hp
      exact ⟨hexecuted ▸ (h.started p hp).1, by simp [hjobs']⟩

/-- At most one job waits without having heard anything. -/
theorem awaiting_cases {s : Manager} (hord : Orderly s) {path : String}
    (h : path ∈ awaiting s) :
    ∃ job, s.jobs = [job] ∧ job.path = path ∧ job.phase = .waiting ∧ job.heard = [] ∧
      awaiting s = [path] := by
  cases hjobs : s.jobs with
  | nil => simp [awaiting, hjobs] at h
  | cons job rest =>
    obtain rfl := hord.rest_eq_nil hjobs
    by_cases hwait : job.phase = .waiting ∧ job.heard = []
    · have heq : awaiting s = [job.path] := by simp [awaiting, hjobs, hwait.1, hwait.2]
      rw [heq, List.mem_singleton] at h
      exact ⟨job, rfl, h.symm, hwait.1, hwait.2, h ▸ heq⟩
    · simp [awaiting, hjobs, hwait] at h

/-- **Step**: the client of a signal answers. -/
theorem Served.answer {d : Dialog} (h : Served d) (hord : Orderly d.manager) {i : Nat}
    {path : String} (hget : d.requests[i]? = some path) (action : String) :
    Served { d with
      requests := d.requests.eraseIdx i
      replies := d.replies ++ [(path, action)]
      answered := (path, action) :: d.answered } := by
  obtain ⟨hi, hpath⟩ := List.getElem?_eq_some_iff.1 hget
  have hperm : (path :: d.requests.eraseIdx i).Perm d.requests :=
    hpath ▸ List.getElem_cons_eraseIdx_perm hi
  have hperm' : (d.requests.eraseIdx i ++ path :: d.answered.map Prod.fst).Perm
      (d.requests ++ d.answered.map Prod.fst) :=
    List.perm_middle.trans (hperm.append_right _)
  refine ⟨?_, ?_, ?_, h.settled, h.active, hperm'.nodup_iff.2 h.once, ?_⟩
  · intro hd
    have hflow := h.flow hd
    have hmem : path ∈ awaiting d.manager :=
      hflow ▸ List.mem_append_left _ (List.mem_of_getElem? hget)
    obtain ⟨job, -, -, -, -, hone⟩ := awaiting_cases hord hmem
    -- so this was the only signal on its way
    rw [hone] at hflow ⊢
    have hlen := congrArg List.length hflow
    simp only [List.length_append, List.length_map, List.length_cons, List.length_nil] at hlen
    have hreplies : d.replies = [] := List.eq_nil_of_length_eq_zero (by omega)
    have hrequests : d.requests.eraseIdx i = [] := by
      apply List.eq_nil_of_length_eq_zero
      rw [List.length_eraseIdx, if_pos hi]
      omega
    rw [hrequests, hreplies]
    rfl
  · intro reply hreply
    rcases List.mem_append.1 hreply with hreply | hreply
    · exact List.mem_cons_of_mem _ (h.given reply hreply)
    · exact List.mem_singleton.1 hreply ▸ List.mem_cons_self
  · intro job hjob
    rcases h.heard job hjob with hheard | ⟨a, hheard, hans⟩
    · exact .inl hheard
    · exact .inr ⟨a, hheard, List.mem_cons_of_mem _ hans⟩
  · intro p hp
    exact h.started p (hperm'.subset hp)

/-- **Step**: a reply arrives. -/
theorem Served.arrive {d : Dialog} (h : Served d) (hord : Orderly d.manager) {i : Nat}
    {path action : String} (hget : d.replies[i]? = some (path, action)) {s : Manager}
    (hnext : d.manager.next (.reply path (some action)) = some s) :
    Served { d with manager := s, replies := d.replies.eraseIdx i } := by
  obtain ⟨hd, -, rfl⟩ := next_reply hnext
  obtain ⟨hi, hpath⟩ := List.getElem?_eq_some_iff.1 hget
  have hflow := h.flow hd
  have hmem : path ∈ awaiting d.manager := by
    rw [← hflow]
    exact List.mem_append_right _ (List.mem_map_of_mem (f := Prod.fst) (List.mem_of_getElem? hget))
  obtain ⟨job, hjobs, rfl, hphase, hheard, hone⟩ := awaiting_cases hord hmem
  have hgiven : (job.path, action) ∈ d.answered := h.given _ (List.mem_of_getElem? hget)
  have hreplies : ∀ reply ∈ d.replies.eraseIdx i, reply ∈ d.answered :=
    fun reply hreply => h.given reply (List.mem_of_mem_eraseIdx hreply)
  unfold replyReceived
  split
  · exact ⟨fun hd' => (by cases hd'), hreplies, h.heard, h.settled, h.active, h.once, h.started⟩
  · have hjobs' : d.manager.jobs.map (ActiveJob.hear (some action)) =
        [{ job with heard := [some action] }] := by
      simp [hjobs, ActiveJob.hear, hphase, hheard]
    have hexecuted : (cancelOn (some action) d.manager.jobs d.manager.scheduler).executed =
        d.manager.scheduler.executed := by
      rw [hjobs]
      simp only [cancelOn, List.foldr_cons, List.foldr_nil]
      split <;> rfl
    rw [hone] at hflow
    have hlen := congrArg List.length hflow
    simp only [List.length_append, List.length_map, List.length_cons, List.length_nil] at hlen
    have hrequests : d.requests = [] := List.eq_nil_of_length_eq_zero (by omega)
    have hnil : d.replies.eraseIdx i = [] := by
      apply List.eq_nil_of_length_eq_zero
      rw [List.length_eraseIdx, if_pos hi]
      omega
    simp only [hjobs']
    refine ⟨fun _ => ?_, hreplies, ?_, ?_, ?_, h.once, ?_⟩
    · simp [hrequests, hnil, awaiting]
    · simpa using hgiven
    · simp
    · simpa [hexecuted] using h.active job (hjobs ▸ List.mem_singleton.2 rfl)
    · intro p hp
      exact ⟨hexecuted ▸ (h.started p hp).1, by simp [hphase]⟩

/-- What holds in every state. -/
def Inv (d : Dialog) : Prop :=
  ((Orderly d.manager ∧ Quiet d.manager) ∧ Told d.manager) ∧ Served d

/-- **Step**: every event keeps all of it. -/
theorem inv_step (d : Dialog) (e : Event) (d' : Dialog) (h : Inv d) (hok : d.marked e)
    (hnext : machine.next d e = some d') : Inv d' := by
  obtain ⟨hmanager, h⟩ := h
  have hord := hmanager.1.1
  cases e with
  | manager e =>
    by_cases hreply : notReply e
    · have hmap : (d.manager.next e).map (fun s =>
          { d with manager := s, requests := d.requests ++ sends d.manager e }) = some d' := by
        cases e with
        | reply object_path action => cases hreply
        | request plan taskID refs => exact hnext
        | deliver i => exact hnext
        | cancel path => exact hnext
        | job step => exact hnext
      obtain ⟨s, hs, rfl⟩ := Option.map_eq_some_iff.1 hmap
      exact ⟨told_step d.manager e s hmanager hok hs, h.manager hord hok hreply hs⟩
    · cases e with
      | reply object_path action => cases hnext
      | request plan taskID refs => exact absurd trivial hreply
      | deliver i => exact absurd trivial hreply
      | cancel path => exact absurd trivial hreply
      | job step => exact absurd trivial hreply
  | answer i notifyReply =>
    have hnext' : d.next (.answer i notifyReply) = some d' := hnext
    simp only [next] at hnext'
    split at hnext'
    · cases hnext'
    · next path hget =>
      obtain rfl := Option.some.inj hnext'
      exact ⟨hmanager, h.answer hord hget (replyAction notifyReply)⟩
  | arrive i =>
    have hnext' : d.next (.arrive i) = some d' := hnext
    simp only [next] at hnext'
    split at hnext'
    · cases hnext'
    · next path action hget =>
      obtain ⟨s, hs, rfl⟩ := Option.map_eq_some_iff.1 hnext'
      exact ⟨told_step d.manager (.reply path (some action)) s hmanager trivial hs,
        h.arrive hord hget hs⟩

theorem inv_of_exec {es : List Event} {d : Dialog} (hmeets : machine.Meets marked init es)
    (hexec : machine.exec init es = some d) : Inv d :=
  machine.invariant_of_meets inv_step ⟨⟨⟨orderly_init, quiet_init⟩, told_init⟩, served_init⟩
    hmeets hexec

/-! ### Main results -/

/-- **Clients**: if no job is started inside another one and nothing that is
    gone has been used, a signal or a reply on its way names the one job that
    waits, although `ReplyInteraction` does not look at the path. -/
theorem addressed_of_exec {es : List Event} {d : Dialog} (hmeets : machine.Meets marked init es)
    (hexec : machine.exec init es = some d) (hd : d.manager.dangling = false) {path : String}
    (hpath : path ∈ d.requests ++ d.replies.map Prod.fst) :
    d.requests ++ d.replies.map Prod.fst = [path] ∧
      ∃ job, d.manager.jobs = [job] ∧ job.path = path ∧ job.phase = .waiting ∧
        job.heard = [] := by
  obtain ⟨⟨⟨hord, -⟩, -⟩, hserved⟩ := inv_of_exec hmeets hexec
  have hflow := hserved.flow hd
  rw [hflow] at hpath ⊢
  obtain ⟨job, hjobs, hp, hphase, hheard, hone⟩ := awaiting_cases hord hpath
  exact ⟨hone, job, hjobs, hp, hphase, hheard⟩

/-- A request that the client answers with what its user typed. -/
def answering : List Event :=
  [.manager (.request ⟨.install, .upgrade, false⟩ "a"
      (.single "stable:main/a/1.0.0.1/x86_64/binary")),
    .manager (.deliver 0), .manager (.job .ask), .answer 0 (some "Y")]

theorem addressed_of_exec_answering :
    ∃ d, machine.exec init answering = some d ∧
      d.requests ++ d.replies.map Prod.fst = ["/org/deepin/linglong/Task1/a"] ∧
      ∃ job, d.manager.jobs = [job] ∧ job.path = "/org/deepin/linglong/Task1/a" ∧
        job.phase = .waiting ∧ job.heard = [] := by
  obtain ⟨d, hd⟩ := machine.exists_of_exec_isSome init answering (by decide)
  have hsafe : d.manager.dangling = false := by
    cases hd
    rfl
  have hpath : "/org/deepin/linglong/Task1/a" ∈ d.requests ++ d.replies.map Prod.fst := by
    cases hd
    decide
  exact ⟨d, hd, addressed_of_exec (by decide) hd hsafe hpath⟩

/-- A task has one answer. -/
theorem answer_unique {answered : List (String × String)}
    (h : (answered.map Prod.fst).Nodup) {path action action' : String}
    (hmem : (path, action) ∈ answered) (hmem' : (path, action') ∈ answered) :
    action = action' :=
  congrArg Prod.snd (List.inj_on_of_nodup_map h hmem hmem' rfl)

/-- **Clients**: if no job is started inside another one, a job that asks goes
    on to install exactly if its own client answered yes and nobody called
    `Cancel` on its task. -/
theorem answers_of_exec {es : List Event} {d d' : Dialog} {job : ActiveJob}
    {rest : List ActiveJob} (hmeets : machine.Meets marked init es)
    (hexec : machine.exec init es = some d) (hjobs : d.manager.jobs = job :: rest)
    (hphase : job.phase = .asked) (hasks : job.plan.asks = true)
    (hnext : d.next (.manager (.job .check)) = some d') :
    ∃ phase, d'.manager.jobs = [{ job with phase := phase }] ∧
      (phase = .working ∨ phase = .returning) ∧
      (phase = .working ↔
        job.path ∉ d.manager.canceled ∧ (job.path, "yes") ∈ d.answered) := by
  obtain ⟨⟨⟨hord, hquiet⟩, htold⟩, hserved⟩ := inv_of_exec hmeets hexec
  obtain ⟨s', hs', rfl⟩ := Option.map_eq_some_iff.1 hnext
  have hmem : job ∈ d.manager.jobs := hjobs ▸ List.mem_cons_self
  obtain ⟨phase, hjobs', hphase', hiff⟩ :=
    check_cases hord hquiet htold hjobs hphase (Plan.kind_of_asks hasks) hs'
  refine ⟨phase, hjobs', hphase', ?_⟩
  rw [hiff]
  refine and_congr_right fun _ => ?_
  -- the job heard one reply, and that is the answer of its client
  obtain ⟨action, hheard, hans⟩ :=
    (hserved.heard job hmem).resolve_left (hserved.settled job hmem hphase hasks)
  have hconsents : consents job ↔ action = "yes" := by
    unfold consents
    split <;> simp [hheard]
  have hnodup := (List.nodup_append.1 hserved.once).2.1
  simp only [hasks, forall_const, hconsents]
  constructor
  · rintro rfl
    exact hans
  · exact fun hyes => answer_unique hnodup hans hyes

theorem answers_of_exec_answering :
    ∃ (d d' : Dialog) (job : ActiveJob),
      machine.exec init (answering ++ [.arrive 0, .manager (.job .resume)]) = some d ∧
      d.next (.manager (.job .check)) = some d' ∧
      ∃ phase, d'.manager.jobs = [{ job with phase := phase }] ∧
        (phase = .working ∨ phase = .returning) ∧
        (phase = .working ↔
          job.path ∉ d.manager.canceled ∧ (job.path, "yes") ∈ d.answered) := by
  obtain ⟨d, hd⟩ := machine.exists_of_exec_isSome init
    (answering ++ [.arrive 0, .manager (.job .resume)]) (by decide)
  obtain ⟨d', hd'⟩ := machine.exists_of_exec_isSome init
    (answering ++ [.arrive 0, .manager (.job .resume)] ++ [.manager (.job .check)]) (by decide)
  have hjobs : d.manager.jobs = [⟨"/org/deepin/linglong/Task1/a", ⟨.install, .upgrade, false⟩,
      .asked, [some "yes"]⟩] := by
    cases hd
    rfl
  have hnext : d.next (.manager (.job .check)) = some d' := by
    obtain ⟨d₁, hd₁, hnil⟩ := machine.exec_cons_some.1 (machine.exec_append hd ▸ hd')
    exact Option.some.inj hnil ▸ hd₁
  exact ⟨d, d', _, hd, hnext, answers_of_exec (by decide) hd hjobs rfl rfl hnext⟩

end Dialog

end Linglong.Interactive
