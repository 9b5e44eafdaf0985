import Linglong.PackageManager.TaskOutcome
import Linglong.PackageManager.Operations

/-! # Undo Actions on Temporary Tasks

    The undo actions of `Install`, `UninstallRef` and `removeAfterInstall`
    run `UninstallRef` or `pull` on a temporary task, a task without refs,
    and read its main state to see whether they succeeded.

    On such a task the number of completed parts equals the number of refs
    from the start. So `updateState` stores `succeed` whatever it is given,
    and an operation that reports nothing leaves the state at `queued`.
    `outcome_fidelity_iff` says exactly what the undo actions see.
-/

namespace Linglong

open PackageTask

/-! ## Section 1: What `pull` tells its task -/

/-- The calls a pull makes: progress, errors, and `Cancel` from outside. -/
def PackageTask.Call.isReport : Call → Bool
  | .updateTask _ _ _ | .reportError _ | .cancel => true
  | _ => false

theorem PullEvent.isReport_toCall (e : PullEvent) : e.toCall.isReport = true := by
  cases e <;> rfl

namespace Repo

theorem ostreePull_isReport (s : Repo) (ref : OstreeRef) :
    ∀ c ∈ (s.ostreePull ref).2.1, c.isReport = true := by
  unfold ostreePull
  split
  · simp
  · next reply rest _ =>
    have hcalls : ∀ c ∈ reply.during.map PullEvent.toCall, c.isReport = true := by
      intro c hc
      obtain ⟨e, -, rfl⟩ := List.mem_map.1 hc
      exact e.isReport_toCall
    simp only
    split <;> exact hcalls

theorem finishPull_isReport (s : Repo) (ref : OstreeRef) :
    ∀ c ∈ (s.finishPull ref).2, c.isReport = true := by
  unfold finishPull
  split
  · simp
  · intro c hc
    rw [List.mem_singleton.1 hc]
    rfl

/-- Calls of two parts of a pull. -/
theorem isReport_append {cs ds : List Call} (hcs : ∀ c ∈ cs, c.isReport = true)
    (hds : ∀ c ∈ ds, c.isReport = true) : ∀ c ∈ cs ++ ds, c.isReport = true := by
  intro c hc
  rcases List.mem_append.1 hc with h | h
  · exact hcs c h
  · exact hds c h

theorem isReport_error (e : Error) : ∀ c ∈ [Call.reportError e], c.isReport = true := by
  intro c hc
  rw [List.mem_singleton.1 hc]
  rfl

theorem pullOldName_isReport (s : Repo) (reference : Reference) (module : String) :
    ∀ c ∈ (s.pullOldName reference module).2, c.isReport = true := by
  have hpull := s.ostreePull_isReport (ostreeSpecFromReference reference module)
  unfold pullOldName
  simp only
  split
  · next s' calls commit heq =>
    rw [heq] at hpull
    exact isReport_append hpull (s'.finishPull_isReport _)
  · next s' calls e heq =>
    rw [heq] at hpull
    exact isReport_append hpull (isReport_error _)
  · next s' calls e heq =>
    rw [heq] at hpull
    exact isReport_append hpull (isReport_error _)

/-- A pull only reports: it never calls `updateState` or `updateSubState`. -/
theorem pull_isReport (s : Repo) (reference : Reference) (module : String) :
    ∀ c ∈ (s.pull reference module).2, c.isReport = true := by
  have hpull := s.ostreePull_isReport (ostreeSpecFromReferenceV2 reference module none)
  unfold pull
  simp only
  split
  · next s' calls commit heq =>
    rw [heq] at hpull
    exact isReport_append hpull (s'.finishPull_isReport _)
  · next s' calls e heq =>
    rw [heq] at hpull
    exact isReport_append hpull (isReport_error _)
  · next s' calls e heq =>
    rw [heq] at hpull
    refine isReport_append hpull ?_
    split
    · exact s'.pullOldName_isReport reference module
    · exact s'.finishPull_isReport _

/-- Neither does the resolution of a reference. -/
theorem clearReference_isReport (s : Repo) (fuzzy : FuzzyReference) :
    ∀ c ∈ (s.clearReference fuzzy).2.1, c.isReport = true := by
  have hremote : ∀ c ∈ s.listRemote.2.1, c.isReport = true := by
    unfold listRemote
    split
    · simp
    · next reply rest _ =>
      cases reply.canceled <;> simp [Call.isReport]
  unfold clearReference
  split
  · simp
  split
  · next s' calls e heq =>
    rw [heq] at hremote
    exact hremote
  · next s' calls records heq =>
    rw [heq] at hremote
    exact hremote

end Repo

/-! ## Section 2: The state after reports -/

namespace PackageTask

/-- The calls after the first `Cancel`. -/
def afterCancel : List Call → Option (List Call)
  | [] => none
  | .cancel :: calls => some calls
  | _ :: calls => afterCancel calls

/-- After the task was canceled, only errors change its state. -/
theorem run_reports_state {calls : List Call} (hcalls : ∀ c ∈ calls, c.isReport = true) :
    ∀ t : PackageTask, t.cancelFlag = true →
      (t.run calls).state = if failureReported calls then .failed else t.state := by
  induction calls with
  | nil => simp [failureReported]
  | cons c calls ih =>
    intro t hflag
    have hreport := hcalls c (by simp)
    have hflag' : (t.apply c).cancelFlag = true := by
      cases c <;> simp [apply, reportError, hflag]
    rw [run_cons, ih (fun d hd => hcalls d (by simp [hd])) _ hflag']
    cases c with
    | updateTask p w msg => simp [apply, failureReported, Call.reportsFailure]
    | reportError e => simp [apply, reportError, failureReported, Call.reportsFailure]
    | cancel => simp [apply, cancel_of_flag hflag, failureReported, Call.reportsFailure]
    | updateState s msg o => simp [Call.isReport] at hreport
    | updateSubState ss msg => simp [Call.isReport] at hreport

/-- A task without refs counts as complete. -/
theorem stateAfter_temporary {t : PackageTask} (hrefs : t.refs = .empty) (hparts : t.taskParts = 0)
    {s : State} (hs : s ≠ .partCompleted) : t.stateAfter s = .succeed := by
  simp [stateAfter, partsAfter, hs, hparts, hrefs, QStringList.size, QStringList.empty]

/-- A temporary task under reports: errors make it `failed`, the first
    `Cancel` makes it `succeed`. -/
theorem run_temporary_state {calls : List Call} (hcalls : ∀ c ∈ calls, c.isReport = true) :
    ∀ t : PackageTask, t.refs = .empty → t.taskParts = 0 → t.cancelFlag = false →
      (t.run calls).state =
        match afterCancel calls with
        | some post => if failureReported post then .failed else .succeed
        | none => if failureReported calls then .failed else t.state := by
  induction calls with
  | nil => simp [afterCancel, failureReported]
  | cons c calls ih =>
    intro t hrefs hparts hflag
    have hreport := hcalls c (by simp)
    have hrest : ∀ d ∈ calls, d.isReport = true := fun d hd => hcalls d (by simp [hd])
    cases c with
    | updateTask p w msg =>
      have hstep := ih hrest (t.apply (.updateTask p w msg)) (by simpa [apply])
        (by simpa [apply]) (by simpa [apply])
      rw [run_cons, hstep]
      simp [afterCancel, failureReported, Call.reportsFailure, apply]
    | reportError e =>
      have hstep := ih hrest (t.apply (.reportError e)) hrefs hparts hflag
      rw [run_cons, hstep]
      simp [afterCancel, failureReported, Call.reportsFailure, apply, reportError]
    | cancel =>
      -- without refs all parts count as complete, so that the task succeeds
      have hcancel : t.cancel.state = .succeed := by
        rw [cancel_state hflag]
        exact stateAfter_temporary hrefs hparts (by decide)
      rw [run_cons, run_reports_state hrest (t.apply .cancel) (by simp [apply])]
      simp only [afterCancel, apply, hcancel]
    | updateState s msg o => simp [Call.isReport] at hreport
    | updateSubState ss msg => simp [Call.isReport] at hreport

/-- The undo action reads a pull on a temporary task rightly: an error was
    reported after the first `Cancel`, if there was one; or there was a
    `Cancel` and no error at all. -/
def SeenRightly (calls : List Call) : Prop :=
  match afterCancel calls with
  | none => failureReported calls = true
  | some post => failureReported post = true ∨ failureReported calls = false

/-- An error after the first `Cancel` is an error. -/
theorem failureReported_of_afterCancel {calls post : List Call}
    (hpost : afterCancel calls = some post) (hfail : failureReported post = true) :
    failureReported calls = true := by
  induction calls with
  | nil => simp [afterCancel] at hpost
  | cons c calls ih =>
    cases c with
    | cancel =>
      cases hpost
      simpa [failureReported, Call.reportsFailure] using hfail
    | _ =>
      have := ih hpost
      simp only [failureReported, List.any_cons] at this ⊢
      simp [this]

/-- **Run**: after any reports, a temporary task shows `succeed` iff no
    error was reported exactly when they are seen rightly. -/
theorem temporary_state_iff (taskID : String) {calls : List Call}
    (hcalls : ∀ c ∈ calls, c.isReport = true) :
    ((((createTemporaryTask taskID).run calls).state = .succeed) ↔
      failureReported calls = false) ↔ SeenRightly calls := by
  rw [run_temporary_state hcalls _ rfl rfl rfl, SeenRightly]
  cases hpost : afterCancel calls with
  | none =>
    cases hall : failureReported calls <;> simp [createTemporaryTask, create]
  | some post =>
    have himp := failureReported_of_afterCancel hpost
    cases hfail : failureReported post with
    | true => simp [hfail, himp hfail]
    | false => simp [hfail]

end PackageTask

/-! ## Section 3: The undo actions -/

open Job

/-- `UninstallRef` on a temporary task shows `succeed` exactly when it has
    reported an error. -/
theorem temporary_uninstallRef_state (taskID : String) (s : Repo) (ref : Reference)
    (modules : List String) :
    (uninstallRef ⟨s, createTemporaryTask taskID⟩ ref modules).task.state = .succeed ↔
      ∃ e, (Repo.uninstallLoop ref modules [] s).2 = .error e := by
  have hdone : (⟨s, createTemporaryTask taskID⟩ : Job).isDone = false := rfl
  simp only [uninstallRef, hdone, Bool.false_eq_true, if_false, call]
  cases hloop : Repo.uninstallLoop ref modules [] s with
  | mk repo result =>
    cases result with
    | ok u =>
      simp [apply, createTemporaryTask, create]
    | error e =>
      simp only [fail, call, apply, updateState_state, Except.error.injEq, exists_eq', iff_true]
      exact stateAfter_temporary (by simp [createTemporaryTask, create])
        (by simp [createTemporaryTask, create]) (by decide)

/-- What tasks show, over all sequences of calls and all undo actions. A
    sequence of calls gives the right state at every point iff every call of
    it counts honestly. An undo action by `UninstallRef` always sees the
    opposite of what happened; one by `pull` sees what happened exactly when
    an error was reported, with no later first `Cancel`, or when a `Cancel`
    came and no error. -/
theorem outcome_fidelity_iff (taskID : String) (refs : QStringList) (calls : List Call)
    (s : Repo) (ref : Reference) (modules : List String) (module : String) :
    ((∀ pre c post, calls = pre ++ c :: post →
        FaithfulStep ((create taskID refs).run pre) pre c) ↔
      ∀ pre c post, calls = pre ++ c :: post →
        CountsHonestly ((create taskID refs).run pre) pre c) ∧
    ¬ ((uninstallRef ⟨s, createTemporaryTask taskID⟩ ref modules).task.state = .succeed ↔
      (Repo.uninstallLoop ref modules [] s).2 = .ok ()) ∧
    (((pull ⟨s, createTemporaryTask taskID⟩ ref module).task.state = .succeed ↔
      failureReported (s.pull ref module).2 = false) ↔ SeenRightly (s.pull ref module).2) := by
  refine ⟨faithful_run_iff taskID refs calls, ?_, ?_⟩
  · rw [temporary_uninstallRef_state]
    cases (Repo.uninstallLoop ref modules [] s).2 with
    | ok u => simp
    | error e => simp
  · exact temporary_state_iff taskID (s.pull_isReport ref module)

/-- A failure reported to a temporary task is stored as `succeed`. -/
theorem not_outcome_fidelity :
    ¬ ∀ (taskID : String) (refs : QStringList) (calls pre : List Call) (c : Call)
      (post : List Call), calls = pre ++ c :: post →
        FaithfulStep ((create taskID refs).run pre) pre c := by
  intro h
  have := (h "1" .empty [.updateState .failed "remove failed" none] [] _ [] rfl).1
    "remove failed" none rfl
  exact absurd this (by decide)

end Linglong
