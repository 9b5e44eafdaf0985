import Linglong.PackageManager.PackageTask

/-! # How Long a Task Outcome Lasts, and When It Is the Real One

    Two questions about `PackageTask` under arbitrary sequences of calls.

    1. Once the main state is final, what can change it again? The calls
       carry no guard, so the answer is a list of calls (`Call.reopens`,
       `Call.writesState`), and `settled_always_iff` says it is exact.
    2. Does the stored state tell what was reported? `updateState` replaces
       the new state by `succeed` whenever the number of completed parts
       equals the number of refs. `CountsHonestly` names the calls for
       which this replacement does no harm, and `faithfulStep_iff` says it
       is exact.
-/

namespace Linglong

namespace PackageTask

/-! ## Section 1: Final states -/

/-- A final main state together with a done sub-state. -/
def Settled (t : PackageTask) : Prop :=
  t.state.isTerminal = true ∧ isTaskDone t.subState = true

instance (t : PackageTask) : Decidable t.Settled := inferInstanceAs (Decidable (_ ∧ _))

theorem Settled.getPercentage {t : PackageTask} (h : t.Settled) : t.getPercentage = 100 := by
  simp [PackageTask.getPercentage, h.2]

/-- The call overwrites a final state by another one, or a done sub-state by
    one that is not done. -/
def Call.reopens (t : PackageTask) : Call → Bool
  | .updateState s _ o => !((t.stateAfter s).isTerminal && isTaskDone (o.getD .allDone))
  | .updateSubState ss _ => !isTaskDone ss
  | _ => false

/-- The call writes the main state. -/
def Call.writesState (t : PackageTask) : Call → Bool
  | .updateState _ _ _ | .reportError _ => true
  | .cancel => !t.cancelFlag
  | _ => false

/-- The sub-state argument of `updateState`, if given, is a done one. -/
def Call.doneArg : Call → Bool
  | .updateState _ _ o => isTaskDone (o.getD .allDone)
  | _ => true

/-- **Step**: a settled task stays settled under exactly the calls that do
    not reopen it. -/
theorem settled_apply_iff {t : PackageTask} (h : t.Settled) (c : Call) :
    (t.apply c).Settled ↔ c.reopens t = false := by
  obtain ⟨hstate, hsub⟩ := h
  cases c with
  | updateState s msg o =>
    simp only [Settled, apply, updateState_state, updateState_subState, Call.reopens]
    by_cases hs : (t.stateAfter s).isTerminal = true <;> simp [hs]
  | updateSubState ss msg => simp [Settled, apply, Call.reopens, hstate]
  | updateTask p w msg => simp [Settled, apply, Call.reopens, hstate, hsub]
  | reportError e => simp [Settled, apply, reportError, Call.reopens, State.isTerminal, isTaskDone]
  | cancel =>
    cases hf : t.cancelFlag with
    | true => simp [Settled, apply, cancel_of_flag hf, Call.reopens, hstate, hsub]
    | false =>
      simp [Settled, apply, cancel_state hf, cancel_subState hf, Call.reopens,
        stateAfter_canceled_isTerminal, isTaskDone]

/-- **Run**: a settled task is settled all along a sequence of calls iff no
    call of it reopens the task it meets. -/
theorem settled_always_iff {t : PackageTask} (h : t.Settled) (cs : List Call) :
    machine.Always (fun u => u.Settled ∧ u.getPercentage = 100) t cs ↔
      machine.Meets (fun u c => c.reopens u = false) t cs := by
  refine machine.always_iff_meets (fun u c hu => ⟨u.apply c, rfl, ?_⟩) ⟨h, h.getPercentage⟩
  rw [← settled_apply_iff hu.1 c]
  exact ⟨fun hnext => hnext.1, fun hnext => ⟨hnext, hnext.getPercentage⟩⟩

theorem apply_state_of_not_writesState {t : PackageTask} {c : Call}
    (h : c.writesState t = false) : (t.apply c).state = t.state := by
  cases c with
  | updateState s msg o => simp [Call.writesState] at h
  | updateSubState ss msg => simp [apply]
  | updateTask p w msg => simp [apply]
  | reportError e => simp [Call.writesState] at h
  | cancel =>
    have hf : t.cancelFlag = true := by simpa [Call.writesState] using h
    simp [apply, cancel_of_flag hf]

/-- Without a call that writes the main state, it is the same all along. -/
theorem state_always_of_not_writesState {s : State} {cs : List Call} :
    ∀ {t : PackageTask}, t.state = s →
      machine.Meets (fun u c => c.writesState u = false) t cs →
      machine.Always (fun u => u.state = s) t cs := by
  induction cs with
  | nil => exact fun h _ => h
  | cons c cs ih =>
    rintro t h ⟨hc, hrest⟩
    refine ⟨h, ?_⟩
    rintro s' ⟨⟩
    exact ih ((apply_state_of_not_writesState hc).trans h) (hrest _ rfl)

/-- A call that makes the main state final settles the task, unless it
    passes a sub-state that is not done. -/
theorem settled_of_becomes_terminal {t : PackageTask} {c : Call}
    (hbefore : t.state.isTerminal = false) (hafter : (t.apply c).state.isTerminal = true)
    (harg : c.doneArg = true) : (t.apply c).Settled := by
  refine ⟨hafter, ?_⟩
  cases c with
  | updateState s msg o =>
    have hs : (t.stateAfter s).isTerminal = true := by simpa [apply] using hafter
    simpa [apply, updateState_subState, hs, Call.doneArg] using harg
  | updateSubState ss msg => simp [apply, hbefore] at hafter
  | updateTask p w msg => simp [apply, hbefore] at hafter
  | reportError e => rfl
  | cancel =>
    cases hf : t.cancelFlag with
    | true => simp [apply, cancel_of_flag hf, hbefore] at hafter
    | false => simp [apply, cancel_subState hf, isTaskDone]

/-- From the call that makes the main state final on: the state stays final
    with a done sub-state and 100 percent exactly as long as no call reopens
    the task, and it is not changed at all by calls that do not write it. -/
theorem terminal_persists_iff (taskID : String) (refs : QStringList) (pre post : List Call)
    (c : Call) (hbefore : ((create taskID refs).run pre).state.isTerminal = false)
    (hafter : ((create taskID refs).run (pre ++ [c])).state.isTerminal = true)
    (harg : c.doneArg = true) :
    (machine.Always (fun u => u.Settled ∧ u.getPercentage = 100)
        ((create taskID refs).run (pre ++ [c])) post ↔
      machine.Meets (fun u d => d.reopens u = false)
        ((create taskID refs).run (pre ++ [c])) post) ∧
    (machine.Meets (fun u d => d.writesState u = false)
        ((create taskID refs).run (pre ++ [c])) post →
      machine.Always (fun u => u.state = ((create taskID refs).run (pre ++ [c])).state)
        ((create taskID refs).run (pre ++ [c])) post) := by
  have hrun : (create taskID refs).run (pre ++ [c]) = ((create taskID refs).run pre).apply c := by
    rw [run_append]; rfl
  rw [hrun] at hafter ⊢
  have hsettled := settled_of_becomes_terminal hbefore hafter harg
  exact ⟨settled_always_iff hsettled post, state_always_of_not_writesState rfl⟩

/-- A failed task, two later progress reports and a repeated report: failed
    and done throughout. -/
theorem terminal_persists_after_failure :
    machine.Always (fun u => u.Settled ∧ u.getPercentage = 100)
      ((create "1" (.single "stable:main/app/x86_64/binary")).run
        ([] ++ [.updateState .failed "pull failed" none]))
      [.updateTask 1 2 "late", .reportError ⟨-1, "late"⟩] := by
  refine (terminal_persists_iff "1" (.single "stable:main/app/x86_64/binary") [] _
    (.updateState .failed "pull failed" none) (by decide) (by decide) (by decide)).1.2 ?_
  refine ⟨by decide, ?_⟩
  rintro s' ⟨⟩
  refine ⟨by decide, ?_⟩
  rintro s' ⟨⟩
  trivial

/-- The final states are not absorbing: the scheduler's and the jobs' own
    `updateState(Processing)` moves a failed task out of them. -/
theorem terminal_not_absorbing :
    ¬ ∀ (taskID : String) (refs : QStringList) (pre post : List Call),
      ((create taskID refs).run pre).state.isTerminal = true →
        ((create taskID refs).run (pre ++ post)).state = ((create taskID refs).run pre).state ∧
        isTaskDone ((create taskID refs).run (pre ++ post)).subState = true ∧
        ((create taskID refs).run (pre ++ post)).getPercentage = 100 := by
  intro h
  have := (h "1" (.single "stable:main/app/x86_64/binary")
    [.updateState .failed "install failed" none]
    [.updateState .processing "start to uninstalling package" none] (by decide)).1
  exact absurd this (by decide)

/-! ## Section 2: Reported and stored outcome -/

/-- A completed part is reported. -/
def Call.isPartCompleted : Call → Bool
  | .updateState .partCompleted _ _ => true
  | _ => false

/-- The number of completed parts reported by a sequence of calls. -/
def partCount (cs : List Call) : Nat := cs.countP Call.isPartCompleted

/-- A failure is reported. -/
def Call.reportsFailure : Call → Bool
  | .updateState .failed _ _ | .reportError _ => true
  | _ => false

/-- Some call of the sequence reports a failure. -/
def failureReported (cs : List Call) : Bool := cs.any Call.reportsFailure

/-- What the stored state should be after one more call `c` on a task that
    has seen the calls `pre`: a reported failure or cancellation is stored
    as such, and the task becomes `succeed` only if it is told so or if the
    last part is completed and nothing failed. -/
def FaithfulStep (t : PackageTask) (pre : List Call) (c : Call) : Prop :=
  (∀ msg o, c = .updateState .failed msg o → (t.apply c).state = .failed) ∧
  (∀ msg o, c = .updateState .canceled msg o → (t.apply c).state = .canceled) ∧
  (c = .cancel → t.cancelFlag = false → (t.apply c).state = .canceled) ∧
  (t.state ≠ .succeed → (t.apply c).state = .succeed →
    (∃ msg o, c = .updateState .succeed msg o) ∨
    (c.isPartCompleted = true ∧ partCount (pre ++ [c]) = t.refs.size ∧
      failureReported pre = false))

/-- The calls for which the count of parts gives no wrong outcome: the
    number of completed parts (modulo the width of `uint`) differs from the
    number of refs, or the call asks for `succeed`, or it completes the last
    part of a task that has not failed. -/
def CountsHonestly (t : PackageTask) (pre : List Call) : Call → Prop
  | .updateState .succeed _ _ => True
  | .updateState .partCompleted _ _ =>
      (partCount pre + 1) % 2 ^ 32 = t.refs.size →
        t.state = .succeed ∨ (partCount pre + 1 = t.refs.size ∧ failureReported pre = false)
  | .updateState .failed _ _ | .updateState .canceled _ _ =>
      partCount pre % 2 ^ 32 ≠ t.refs.size
  | .updateState _ _ _ => partCount pre % 2 ^ 32 = t.refs.size → t.state = .succeed
  | .cancel => t.cancelFlag = false → partCount pre % 2 ^ 32 ≠ t.refs.size
  | _ => True

theorem apply_taskParts (t : PackageTask) (c : Call) :
    (t.apply c).taskParts = if c.isPartCompleted then t.taskParts + 1 else t.taskParts := by
  cases c with
  | updateState s msg o => cases s <;> simp [apply, Call.isPartCompleted]
  | _ => simp [apply, reportError, Call.isPartCompleted]

/-- The counter holds the number of completed parts modulo `2 ^ 32`. -/
theorem taskParts_run (t : PackageTask) (cs : List Call) :
    (t.run cs).taskParts.toNat = (t.taskParts.toNat + partCount cs) % 2 ^ 32 := by
  induction cs generalizing t with
  | nil =>
    have := t.taskParts.toNat_lt
    simp only [run_nil, partCount, List.countP_nil]
    omega
  | cons c cs ih =>
    rw [run_cons, ih, apply_taskParts]
    by_cases hc : c.isPartCompleted = true
    · simp only [hc, if_true, partCount, List.countP_cons, UInt32.toNat_add]
      have h1 : (1 : UInt32).toNat = 1 := rfl
      omega
    · simp [hc, partCount]

theorem taskParts_create_run (taskID : String) (refs : QStringList) (pre : List Call) :
    ((create taskID refs).run pre).taskParts.toNat = partCount pre % 2 ^ 32 := by
  have := taskParts_run (create taskID refs) pre
  simpa [create] using this

theorem partsAfter_create_run (taskID : String) (refs : QStringList) (pre : List Call)
    (s : State) :
    ((create taskID refs).run pre).partsAfter s =
      if s = .partCompleted then (partCount pre + 1) % 2 ^ 32 else partCount pre % 2 ^ 32 := by
  have h := taskParts_create_run taskID refs pre
  unfold partsAfter
  split
  · rw [UInt32.toNat_add, h]
    have h1 : (1 : UInt32).toNat = 1 := rfl
    omega
  · exact h

/-- A call that is no `updateState` and leaves the state alone is faithful. -/
theorem faithfulStep_of_state_eq {t : PackageTask} {pre : List Call} {c : Call}
    (hc : ∀ s msg o, c ≠ .updateState s msg o) (hcancel : c = .cancel → t.cancelFlag = true)
    (hstate : (t.apply c).state = t.state) : FaithfulStep t pre c := by
  refine ⟨fun msg o h => absurd h (hc _ _ _), fun msg o h => absurd h (hc _ _ _), ?_, ?_⟩
  · intro h hf
    rw [hcancel h] at hf
    exact absurd hf (by decide)
  · intro hne heq
    exact absurd (hstate ▸ heq) hne

/-- **Step**: after any history, one more call is faithful exactly when it
    counts honestly. -/
theorem faithfulStep_iff (taskID : String) (refs : QStringList) (pre : List Call) (c : Call) :
    FaithfulStep ((create taskID refs).run pre) pre c ↔
      CountsHonestly ((create taskID refs).run pre) pre c := by
  have hrefs : ((create taskID refs).run pre).refs = refs := by rw [run_refs]; rfl
  have hparts := partsAfter_create_run taskID refs pre
  generalize (create taskID refs).run pre = t at hrefs hparts
  subst hrefs
  cases c with
  | updateState s msg o =>
    -- the stored state is `succeed` or the new state, by the comparison of the counts
    have hstate : (t.apply (.updateState s msg o)).state = t.stateAfter s := by simp [apply]
    cases s with
    | partCompleted =>
      have hcount : partCount (pre ++ [.updateState .partCompleted msg o]) = partCount pre + 1 := by
        simp [partCount, Call.isPartCompleted]
      simp only [FaithfulStep, CountsHonestly, hstate, stateAfter, hparts, hcount]
      generalize (partCount pre + 1) % 2 ^ 32 = n
      by_cases hp : n = t.refs.size <;> simp [hp, Call.isPartCompleted]
      tauto
    | _ =>
      simp only [FaithfulStep, CountsHonestly, hstate, stateAfter, hparts]
      generalize partCount pre % 2 ^ 32 = n
      by_cases hp : n = t.refs.size <;> simp [hp, Call.isPartCompleted]
  | updateSubState ss msg =>
    exact iff_of_true (faithfulStep_of_state_eq (by simp) (by simp) (by simp [apply])) trivial
  | updateTask p w msg =>
    exact iff_of_true (faithfulStep_of_state_eq (by simp) (by simp) (by simp [apply])) trivial
  | reportError e => simp [FaithfulStep, CountsHonestly, apply, reportError]
  | cancel =>
    cases hf : t.cancelFlag with
    | true =>
      refine iff_of_true (faithfulStep_of_state_eq (by simp) (fun _ => hf) ?_) ?_
      · simp [apply, cancel_of_flag hf]
      · simp [CountsHonestly, hf]
    | false =>
      simp only [FaithfulStep, CountsHonestly, apply, cancel_state hf, stateAfter, hparts]
      generalize partCount pre % 2 ^ 32 = n
      by_cases hp : n = t.refs.size <;> simp [hp, hf, Call.isPartCompleted]

/-- **Run**: every call of a sequence is faithful iff every one of them
    counts honestly. -/
theorem faithful_run_iff (taskID : String) (refs : QStringList) (calls : List Call) :
    (∀ pre c post, calls = pre ++ c :: post →
        FaithfulStep ((create taskID refs).run pre) pre c) ↔
      ∀ pre c post, calls = pre ++ c :: post →
        CountsHonestly ((create taskID refs).run pre) pre c := by
  constructor
  · intro h pre c post heq
    exact (faithfulStep_iff taskID refs pre c).1 (h pre c post heq)
  · intro h pre c post heq
    exact (faithfulStep_iff taskID refs pre c).2 (h pre c post heq)

end PackageTask

end Linglong
