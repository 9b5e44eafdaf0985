import Linglong.PackageManager.TemporaryTasks

/-! # The Job of `Update`

    The request `Update` sets one job for a list of pairs of an installed
    and a new reference, on a task with one ref for each pair. The job
    installs the pairs one after the other. It does not look at the task
    between two pairs, each pair sets the state back to `processing`, and
    `succeed` is inferred from the count of completed pairs.

    1. What `InstallRef` can do to its task (`Reaches`): it never completes
       a part, and it leaves a done sub-state only with a failed or canceled
       task.
    2. One pair: completed, or failed or canceled.
    3. The whole job: `updateJob_sound_iff` says which patterns of outcomes
       the final state reports rightly.
-/

namespace Linglong

open PackageTask Framework

/-! ## Section 1: What `InstallRef` does to its task -/

/-- The calls that reach a task while `InstallRef` runs. -/
def PackageTask.Call.isInstallCall : Call → Bool
  | .updateSubState ss _ => !isTaskDone ss
  | .updateState .failed _ none => true
  | .updateTask _ _ _ | .reportError _ | .cancel => true
  | _ => false

theorem PackageTask.Call.isInstallCall_of_isReport {c : Call} (h : c.isReport = true) :
    c.isInstallCall = true := by
  cases c <;> simp_all [Call.isReport, Call.isInstallCall]

namespace Job

/-- The task of `j'` has received calls of `InstallRef` since `j`. -/
def Reaches (j j' : Job) : Prop :=
  ∃ calls, (∀ c ∈ calls, c.isInstallCall = true) ∧ j'.task = j.task.run calls

theorem Reaches.of_task_eq {j j' : Job} (h : j'.task = j.task) : Reaches j j' :=
  ⟨[], by simp, h⟩

theorem Reaches.refl (j : Job) : Reaches j j := .of_task_eq rfl

theorem Reaches.trans {j₁ j₂ j₃ : Job} (h : Reaches j₁ j₂) (h' : Reaches j₂ j₃) :
    Reaches j₁ j₃ := by
  obtain ⟨cs, hcs, heq⟩ := h
  obtain ⟨ds, hds, heq'⟩ := h'
  refine ⟨cs ++ ds, ?_, by rw [heq', heq, run_append]⟩
  intro c hc
  rcases List.mem_append.1 hc with h | h
  · exact hcs c h
  · exact hds c h

theorem reaches_call (j : Job) {c : Call} (h : c.isInstallCall = true) : Reaches j (j.call c) := by
  refine ⟨[c], ?_, rfl⟩
  intro d hd
  rw [List.mem_singleton.1 hd]
  exact h

theorem reaches_fail (j : Job) (message : String) : Reaches j (j.fail message) :=
  j.reaches_call rfl

theorem reaches_perform {α : Type} (j : Job) (m : RepoM α) : Reaches j (j.perform m).1 := by
  unfold perform
  split <;> exact .of_task_eq rfl

theorem reaches_pull (j : Job) (ref : Reference) (module : String) :
    Reaches j (j.pull ref module) :=
  ⟨_, fun c hc => Call.isInstallCall_of_isReport (j.repo.pull_isReport ref module c hc), rfl⟩

theorem reaches_clearReference (j : Job) (fuzzy : FuzzyReference) :
    Reaches j (j.clearReference fuzzy).1 := by
  exact ⟨_, fun c hc => Call.isInstallCall_of_isReport
    (j.repo.clearReference_isReport fuzzy c hc), rfl⟩

theorem reaches_pullRuntime (j : Job) (info : PackageInfoV2) (module : String) :
    Reaches j (j.pullRuntime info module).1 := by
  unfold pullRuntime
  split
  · exact .refl j
  split
  · exact j.reaches_fail _
  · next fuzzy _ =>
    have hclear := j.reaches_clearReference fuzzy
    split
    · next j₁ e heq =>
      rw [heq] at hclear
      exact hclear.trans (j₁.reaches_fail e)
    · next j₁ runtime heq =>
      rw [heq] at hclear
      have hsub : Reaches j (j₁.call (.updateSubState .installRuntime
          ("Installing runtime " ++ runtime.toString))) := hclear.trans (j₁.reaches_call rfl)
      simp only
      split
      · exact hsub
      · split
        · exact hsub
        · split <;> exact hsub.trans (reaches_pull _ runtime module)

theorem reaches_pullBase (j : Job) (info : PackageInfoV2) (module : String) :
    Reaches j (j.pullBase info module).1 := by
  unfold pullBase
  split
  · exact j.reaches_fail _
  · next fuzzy _ =>
    have hclear := j.reaches_clearReference fuzzy
    split
    · next j₁ e heq =>
      rw [heq] at hclear
      exact hclear.trans (j₁.reaches_fail e)
    · next j₁ base heq =>
      rw [heq] at hclear
      have hsub : Reaches j (j₁.call (.updateSubState .installBase
          ("Installing base " ++ base.toString))) := hclear.trans (j₁.reaches_call rfl)
      simp only
      split
      · exact hsub
      · split
        · exact hsub
        · exact hsub.trans (reaches_pull _ base module)

theorem reaches_pullDependency (j : Job) (info : PackageInfoV2) (module : String) :
    Reaches j (j.pullDependency info module) := by
  unfold pullDependency
  split
  · exact .refl j
  split
  · exact .refl j
  · have hruntime := j.reaches_pullRuntime info module
    split
    · next j₁ heq =>
      rw [heq] at hruntime
      exact hruntime
    · next j₁ actions heq =>
      rw [heq] at hruntime
      have hbase := j₁.reaches_pullBase info module
      split
      · next j₂ heq₂ =>
        rw [heq₂] at hbase
        exact hruntime.trans hbase
      · next j₂ heq₂ =>
        rw [heq₂] at hbase
        exact (hruntime.trans hbase).trans (.of_task_eq rfl)

theorem reaches_unmarkRound (ref : Reference) (item : RepositoryCacheLayersItem)
    (p : Installing) : Reaches p.job (unmarkRound ref item p).job := by
  unfold unmarkRound
  split
  · exact .refl p.job
  split
  · have hperform := p.job.reaches_perform
      (Repo.markDeleted ref false item.info.packageInfoV2Module)
    simp only [unmark]
    split
    · next job u heq =>
      rw [heq] at hperform
      exact hperform
    · next job e heq =>
      rw [heq] at hperform
      exact hperform.trans (job.reaches_fail _)
  · exact .refl p.job

theorem reaches_pullRound (ref : Reference) (module : String) (p : Installing) :
    Reaches p.job (pullRound ref module p).job := by
  have hpull := p.job.reaches_pull ref module
  unfold pullRound
  split
  · exact .refl p.job
  split
  · exact hpull
  unfold dependencyRound
  split
  · exact hpull
  simp only
  split
  · exact hpull.trans (reaches_fail _ _)
  split
  · exact hpull.trans (reaches_fail _ _)
  · next info _ => exact hpull.trans (reaches_pullDependency _ info "binary")

theorem reaches_checkArch (j : Job) (ref : Reference) : Reaches j (j.checkArch ref) := by
  have hhost : Reaches j j.checkHostArch := by
    unfold checkHostArch
    split
    · exact .refl j
    · exact j.reaches_fail _
  unfold checkArch
  split
  · exact hhost.trans (reaches_fail _ _)
  · exact hhost

/-- The task after `InstallRef`: its first call makes the sub-state one that
    is not done, all others are calls of `InstallRef` as well. -/
theorem reaches_installRef (j : Job) (ref : Reference) (modules : List String) :
    Reaches (j.call (.updateSubState .preAction "Beginning to install"))
      (j.installRef ref modules) := by
  have hbegin : Reaches (j.call (.updateSubState .preAction "Beginning to install"))
      (j.beginInstall ref) :=
    (reaches_checkArch _ ref).trans (reaches_call _ rfl)
  have hloops : Reaches (j.beginInstall ref)
      ((j.beginInstall ref).installLoops ref modules).job := by
    unfold installLoops
    simp only
    have hunmark : Reaches (j.beginInstall ref) (unmarkLoop ref
        (deletedList (j.beginInstall ref).repo ref) ⟨j.beginInstall ref, modules, [], false⟩).job :=
      loopUntil_rel (R := fun p q : Installing => Reaches p.job q.job) (fun p => .refl p.job)
        (fun _ _ _ => Reaches.trans) (reaches_unmarkRound ref) _ _
    split
    · exact hunmark
    · refine hunmark.trans ?_
      exact loopUntil_rel (R := fun p q : Installing => Reaches p.job q.job)
        (fun p => .refl p.job) (fun _ _ _ => Reaches.trans) (reaches_pullRound ref) _ _
  refine (hbegin.trans hloops).trans ?_
  unfold installRef Installing.finish
  split <;> exact .of_task_eq rfl

end Job

namespace PackageTask

/-- A done sub-state comes with a failed or canceled task. -/
def DoneMeansOver (t : PackageTask) : Prop :=
  isTaskDone t.subState = true → t.state = .failed ∨ t.state = .canceled

/-- **Step**: a call of `InstallRef` on a task with parts left to complete. -/
theorem apply_installCall {t : PackageTask} {c : Call} (hc : c.isInstallCall = true)
    (hopen : t.taskParts.toNat ≠ t.refs.size) :
    (t.apply c).taskParts = t.taskParts ∧ (t.apply c).refs = t.refs ∧
      (t.cancelFlag = true → (t.apply c).cancelFlag = true) ∧
      (t.DoneMeansOver → (t.apply c).DoneMeansOver) := by
  cases c with
  | updateTask p w msg => simp [apply, DoneMeansOver]
  | reportError e => simp [apply, reportError, DoneMeansOver]
  | updateSubState ss msg =>
    have hss : isTaskDone ss = false := by simpa [Call.isInstallCall] using hc
    simp [apply, DoneMeansOver, hss]
  | updateState s msg o =>
    obtain ⟨rfl, rfl⟩ : s = .failed ∧ o = none := by
      cases s <;> cases o <;> simp_all [Call.isInstallCall]
    have hstate : t.stateAfter .failed = .failed := by
      simp [stateAfter, partsAfter, hopen]
    simp [apply, DoneMeansOver, hstate]
  | cancel =>
    refine ⟨by simp [apply], by simp [apply], by simp [apply], ?_⟩
    cases hf : t.cancelFlag with
    | true => simp [apply, cancel_of_flag hf]
    | false =>
      have hstate : t.stateAfter .canceled = .canceled := by
        simp [stateAfter, partsAfter, hopen]
      simp [apply, DoneMeansOver, cancel_state hf, hstate]

/-- **Run**: the same for all calls of an `InstallRef`. -/
theorem run_installCalls {calls : List Call} (hcalls : ∀ c ∈ calls, c.isInstallCall = true) :
    ∀ t : PackageTask, t.taskParts.toNat ≠ t.refs.size →
      (t.run calls).taskParts = t.taskParts ∧ (t.run calls).refs = t.refs ∧
        (t.cancelFlag = true → (t.run calls).cancelFlag = true) ∧
        (t.DoneMeansOver → (t.run calls).DoneMeansOver) := by
  induction calls with
  | nil => simp
  | cons c calls ih =>
    intro t hopen
    obtain ⟨hparts, hrefs, hflag, hover⟩ := apply_installCall (hcalls c (by simp)) hopen
    have hopen' : (t.apply c).taskParts.toNat ≠ (t.apply c).refs.size := by
      rw [hparts, hrefs]
      exact hopen
    obtain ⟨hparts', hrefs', hflag', hover'⟩ :=
      ih (fun d hd => hcalls d (by simp [hd])) (t.apply c) hopen'
    exact ⟨hparts'.trans hparts, hrefs'.trans hrefs, hflag' ∘ hflag, hover' ∘ hover⟩

/-- The counter does not overflow while parts are left. -/
theorem toNat_taskParts_succ {t : PackageTask} (hopen : t.taskParts.toNat < t.refs.size) :
    (t.taskParts + 1).toNat = t.taskParts.toNat + 1 := by
  have hsize : t.refs.size < 2 ^ 31 := t.refs.size_lt
  have hone : (1 : UInt32).toNat = 1 := rfl
  rw [UInt32.toNat_add]
  omega

end PackageTask

namespace Job

/-- What `InstallRef` leaves of a task with parts left to complete. -/
theorem installRef_task (j : Job) (ref : Reference) (modules : List String)
    (hopen : j.task.taskParts.toNat ≠ j.task.refs.size) :
    (j.installRef ref modules).task.taskParts = j.task.taskParts ∧
      (j.installRef ref modules).task.refs = j.task.refs ∧
      (j.task.cancelFlag = true → (j.installRef ref modules).task.cancelFlag = true) ∧
      (j.installRef ref modules).task.DoneMeansOver := by
  obtain ⟨calls, hcalls, htask⟩ := j.reaches_installRef ref modules
  -- the first call leaves a sub-state that is not done
  obtain ⟨hparts₁, hrefs₁, hflag₁, -⟩ := apply_installCall
    (c := .updateSubState .preAction "Beginning to install") rfl hopen
  have hover₁ : (j.task.apply
      (.updateSubState .preAction "Beginning to install")).DoneMeansOver := by
    simp [apply, DoneMeansOver, isTaskDone]
  obtain ⟨hparts, hrefs, hflag, hover⟩ := run_installCalls hcalls
    (j.task.apply (.updateSubState .preAction "Beginning to install"))
    (by rw [hparts₁, hrefs₁]; exact hopen)
  rw [htask]
  exact ⟨hparts.trans hparts₁, hrefs.trans hrefs₁, hflag ∘ hflag₁, hover hover₁⟩

/-! ## Section 2: One pair -/

/-- `Update` of one pair up to the end of `InstallRef`. -/
def installPair (j : Job) (ref newRef : Reference) : Job :=
  let j := j.call (.updateState .processing "start to uninstalling package" none)
  j.installRef newRef (j.repo.getModuleList ref)

/-- What happened to a pair: was it installed, and did the first `Cancel`
    call arrive while it was processed? -/
structure PairOutcome where
  installed : Bool
  canceled : Bool
  deriving DecidableEq

/-- The outcome of a pair processed in a given state. -/
def pairOutcome (j : Job) (containers : Containers) (ref newRef : Reference) : PairOutcome where
  installed := !(j.installPair ref newRef).isDone
  canceled := !j.task.cancelFlag && (j.update containers ref newRef).task.cancelFlag

theorem update_eq (j : Job) (containers : Containers) (ref newRef : Reference) :
    j.update containers ref newRef =
      if (j.installPair ref newRef).isDone then j.installPair ref newRef
      else (j.installPair ref newRef).afterUpdate containers ref newRef
        (j.repo.getModuleList ref) := rfl

/-- After `InstallRef` succeeded, the task learns that the part is complete;
    what follows only touches the repository. -/
theorem afterUpdate_task (j : Job) (containers : Containers) (ref newRef : Reference)
    (modules : List String) :
    (j.afterUpdate containers ref newRef modules).task =
      ((j.task.updateState .partCompleted
        ("Upgrade " ++ ref.toString ++ " to " ++ newRef.toString ++ " success")
        none).setSubState .packageManagerDone).setMessage
        "Please restart the application after saving the data to experience the new version." := by
  unfold afterUpdate
  simp only [call, apply]
  split
  · rfl
  · split <;> rfl

/-- The task when `InstallRef` of a pair returns. -/
theorem installPair_task (j : Job) (ref newRef : Reference)
    (hopen : j.task.taskParts.toNat < j.task.refs.size) :
    (j.installPair ref newRef).task.taskParts = j.task.taskParts ∧
      (j.installPair ref newRef).task.refs = j.task.refs ∧
      (j.task.cancelFlag = true → (j.installPair ref newRef).task.cancelFlag = true) ∧
      (j.installPair ref newRef).task.DoneMeansOver := by
  have hbegin := installRef_task
    (j.call (.updateState .processing "start to uninstalling package" none)) newRef
    (j.repo.getModuleList ref) (by simpa [call, apply] using Nat.ne_of_lt hopen)
  simpa [installPair, call, apply] using hbegin

/-- **Step**: a pair adds one to the count iff it was installed. -/
theorem update_count (j : Job) (containers : Containers) (ref newRef : Reference)
    (hopen : j.task.taskParts.toNat < j.task.refs.size) :
    (j.update containers ref newRef).task.taskParts.toNat =
      j.task.taskParts.toNat + (j.pairOutcome containers ref newRef).installed.toNat ∧
    (j.update containers ref newRef).task.refs = j.task.refs ∧
    (j.task.cancelFlag = true → (j.update containers ref newRef).task.cancelFlag = true) := by
  obtain ⟨hparts, hrefs, hflag, -⟩ := j.installPair_task ref newRef hopen
  rw [update_eq]
  split
  · next hdone => simpa [pairOutcome, hdone, hparts, hrefs] using hflag
  · next hdone =>
    have hsucc := toNat_taskParts_succ hopen
    rw [afterUpdate_task]
    simpa [setSubState, setMessage, pairOutcome, hdone, hparts, hrefs, hsucc] using hflag

/-- **Step**: the state that a pair leaves behind. -/
theorem update_state (j : Job) (containers : Containers) (ref newRef : Reference)
    (hopen : j.task.taskParts.toNat < j.task.refs.size) :
    ((j.pairOutcome containers ref newRef).installed = true →
      (j.update containers ref newRef).task.state =
        if j.task.taskParts.toNat + 1 = j.task.refs.size then .succeed else .partCompleted) ∧
    ((j.pairOutcome containers ref newRef).installed = false →
      (j.update containers ref newRef).task.state = .failed ∨
        (j.update containers ref newRef).task.state = .canceled) := by
  obtain ⟨hparts, hrefs, -, hover⟩ := j.installPair_task ref newRef hopen
  rw [update_eq]
  split
  · next hdone => simpa [pairOutcome, hdone] using hover hdone
  · next hdone =>
    have hsucc := toNat_taskParts_succ hopen
    rw [afterUpdate_task]
    simp [setSubState, setMessage, stateAfter, partsAfter, pairOutcome, hdone, hparts, hrefs, hsucc]

/-! ## Section 3: The whole job -/

/-- The job at the start of each pair that is processed. -/
def starts (containers : Containers) : Job → List (Reference × Reference) → List Job
  | _, [] => []
  | j, (oldRef, newRef) :: rest =>
      j :: starts containers (j.update containers oldRef newRef) rest

/-- The outcome of each pair that is processed. -/
def outcomes (containers : Containers) : Job → List (Reference × Reference) → List PairOutcome
  | _, [] => []
  | j, (oldRef, newRef) :: rest =>
      j.pairOutcome containers oldRef newRef ::
        outcomes containers (j.update containers oldRef newRef) rest

theorem length_outcomes (containers : Containers) (j : Job)
    (upgradeList : List (Reference × Reference)) :
    (outcomes containers j upgradeList).length = upgradeList.length := by
  induction upgradeList generalizing j with
  | nil => rfl
  | cons pair rest ih => simp [outcomes, ih]

/-- The number of installed pairs. -/
def installedCount (os : List PairOutcome) : Nat := os.countP PairOutcome.installed

/-- **Run**: the final state is the one that the last pair leaves, and
    `succeed` if by then all parts are complete. -/
theorem updateLoop_state (containers : Containers) (upgradeList : List (Reference × Reference)) :
    ∀ (j : Job) (last : PairOutcome),
      j.task.taskParts.toNat + upgradeList.length ≤ j.task.refs.size →
      (outcomes containers j upgradeList).getLast? = some last →
      (last.installed = true →
        (j.updateLoop containers upgradeList).task.state =
          if j.task.taskParts.toNat + installedCount (outcomes containers j upgradeList) =
            j.task.refs.size then .succeed else .partCompleted) ∧
      (last.installed = false →
        (j.updateLoop containers upgradeList).task.state = .failed ∨
          (j.updateLoop containers upgradeList).task.state = .canceled) := by
  induction upgradeList with
  | nil =>
    intro j last _ hlast
    simp [outcomes] at hlast
  | cons pair rest ih =>
    intro j last hsize hlast
    obtain ⟨oldRef, newRef⟩ := pair
    rw [List.length_cons] at hsize
    have hopen : j.task.taskParts.toNat < j.task.refs.size := by omega
    simp only [updateLoop]
    -- the last pair decides; an earlier one only counts
    cases rest with
    | nil =>
      have hlast' : j.pairOutcome containers oldRef newRef = last := by
        simpa [outcomes] using hlast
      subst hlast'
      obtain ⟨hinst, hnot⟩ := j.update_state containers oldRef newRef hopen
      refine ⟨fun h => ?_, hnot⟩
      simpa [updateLoop, outcomes, installedCount, h] using hinst h
    | cons pair' rest' =>
      obtain ⟨hparts, hrefs, -⟩ := j.update_count containers oldRef newRef hopen
      have hle : (j.pairOutcome containers oldRef newRef).installed.toNat ≤ 1 := Bool.toNat_le _
      have hih := ih (j.update containers oldRef newRef) last
        (by rw [hparts, hrefs]; simp only [List.length_cons] at hsize ⊢; omega)
        (by simpa [outcomes] using hlast)
      have hcount : installedCount (outcomes containers j ((oldRef, newRef) :: pair' :: rest')) =
          (j.pairOutcome containers oldRef newRef).installed.toNat +
            installedCount (outcomes containers (j.update containers oldRef newRef)
              (pair' :: rest')) := by
        cases h : (j.pairOutcome containers oldRef newRef).installed <;>
          simp [outcomes, installedCount, h, Nat.add_comm]
      rw [hparts, hrefs, Nat.add_assoc, ← hcount] at hih
      exact hih

/-- **Run**: the `Cancel` flag at the start of the pairs. It is down
    everywhere iff it is down at the first one and no `Cancel` arrives
    during a pair before the last. -/
theorem starts_canceled_iff (containers : Containers) (upgradeList : List (Reference × Reference)) :
    ∀ j : Job, j.task.cancelFlag = false →
      ((∀ k ∈ starts containers j upgradeList, k.task.cancelFlag = false) ↔
        ∀ o ∈ (outcomes containers j upgradeList).dropLast, o.canceled = false) := by
  induction upgradeList with
  | nil => simp [starts, outcomes]
  | cons pair rest ih =>
    intro j hflag
    obtain ⟨oldRef, newRef⟩ := pair
    cases rest with
    | nil => simp [starts, outcomes, hflag]
    | cons pair' rest' =>
      have hfirst : (j.pairOutcome containers oldRef newRef).canceled =
          (j.update containers oldRef newRef).task.cancelFlag := by
        simp [pairOutcome, hflag]
      cases hnext : (j.update containers oldRef newRef).task.cancelFlag with
      | true => simp [starts, outcomes, hflag, hfirst, hnext]
      | false =>
        have hih := ih (j.update containers oldRef newRef) hnext
        simp only [starts, outcomes, List.mem_cons, List.dropLast_cons_cons,
        forall_eq_or_imp] at hih ⊢
        simp only [hflag, hfirst, hnext, true_and] at hih ⊢
        exact hih

/-- What the final state of the task should say about the job: it is final,
    it is `succeed` iff every pair was installed, and no pair was begun
    after a `Cancel`. -/
structure ReportsRightly (j : Job) (containers : Containers)
    (upgradeList : List (Reference × Reference)) : Prop where
  terminal : (j.updateJob containers upgradeList).task.state.isTerminal = true
  succeed_iff : (j.updateJob containers upgradeList).task.state = .succeed ↔
    j.isDone = false ∧ installedCount (outcomes containers j upgradeList) = upgradeList.length
  not_after_cancel : j.isDone = false →
    ∀ k ∈ starts containers j upgradeList, k.task.cancelFlag = false

/-- The patterns of outcomes that the job reports rightly: no `Cancel`
    arrives before the last pair, and all pairs are installed or the last
    one is not. -/
def SoundPattern (os : List PairOutcome) : Prop :=
  (∀ o ∈ os.dropLast, o.canceled = false) ∧
    (installedCount os = os.length ∨ ∃ o, os.getLast? = some o ∧ o.installed = false)

/-- A pattern whose last pair failed has not all pairs installed. -/
theorem installedCount_ne_length {os : List PairOutcome} {last : PairOutcome}
    (hlast : os.getLast? = some last) (h : last.installed = false) :
    installedCount os ≠ os.length := by
  intro hcount
  have hall := List.countP_eq_length.1 hcount last (List.mem_of_getLast? hlast)
  rw [h] at hall
  cases hall

end Job

namespace PackageTask

/-- What a task that waits for its turn is told by the scheduler. -/
def waitingCall : Call := .updateState .queued "Waiting for the other tasks" none

/-- Before its job starts, a task counts no part, and its sub-state is done
    exactly when it was canceled. -/
theorem waiting_run {pre : List Call} (hpre : ∀ c ∈ pre, c = waitingCall ∨ c = .cancel) :
    ∀ t : PackageTask, t.taskParts = 0 → t.refs.size ≠ 0 →
      isTaskDone t.subState = t.cancelFlag →
      (t.run pre).taskParts = 0 ∧ (t.run pre).refs = t.refs ∧
        isTaskDone (t.run pre).subState = (t.run pre).cancelFlag := by
  induction pre with
  | nil =>
    intro t hparts _ hdone
    exact ⟨hparts, rfl, hdone⟩
  | cons c pre ih =>
    intro t hparts hsize hdone
    have hstep : (t.apply c).taskParts = 0 ∧ (t.apply c).refs = t.refs ∧
        isTaskDone (t.apply c).subState = (t.apply c).cancelFlag := by
      rcases hpre c (by simp) with rfl | rfl
      · have hstate : t.stateAfter .queued = .queued := by
          simp [stateAfter, partsAfter, hparts, Ne.symm hsize]
        simp [waitingCall, apply, updateState_subState, hstate, State.isTerminal, hparts, hdone]
      · refine ⟨by simp [apply, hparts], by simp [apply], ?_⟩
        cases hf : t.cancelFlag with
        | true => simp [apply, cancel_of_flag hf, hdone]
        | false => simp [apply, cancel_subState hf, isTaskDone]
    obtain ⟨hparts', hrefs', hdone'⟩ := hstep
    obtain ⟨h₁, h₂, h₃⟩ := ih (fun d hd => hpre d (by simp [hd])) (t.apply c) hparts'
      (by rw [hrefs']; exact hsize) hdone'
    exact ⟨h₁, h₂.trans hrefs', h₃⟩

end PackageTask

namespace Job

section Started

variable (j : Job) (containers : Containers) {upgradeList : List (Reference × Reference)}

/-- The last of the outcomes of a job with at least one pair. -/
theorem exists_last_outcome (hne : upgradeList ≠ []) :
    ∃ last, (outcomes containers j upgradeList).getLast? = some last := by
  cases h : (outcomes containers j upgradeList).getLast? with
  | some last => exact ⟨last, rfl⟩
  | none =>
    have hlen := length_outcomes containers j upgradeList
    rw [List.getLast?_eq_none_iff.1 h] at hlen
    exact absurd (List.eq_nil_of_length_eq_zero hlen.symm) hne

/-- Whatever happened, the final state is `succeed` iff all pairs were
    installed. -/
theorem updateLoop_succeed_iff (hne : upgradeList ≠ []) (hparts : j.task.taskParts.toNat = 0)
    (hsize : j.task.refs.size = upgradeList.length) :
    (j.updateLoop containers upgradeList).task.state = .succeed ↔
      installedCount (outcomes containers j upgradeList) = upgradeList.length := by
  obtain ⟨last, hlast⟩ := exists_last_outcome j containers hne
  obtain ⟨hinst, hnot⟩ := updateLoop_state containers upgradeList j last (by omega) hlast
  rw [hparts, Nat.zero_add, hsize] at hinst
  cases hcase : last.installed with
  | true =>
    rw [hinst hcase]
    split <;> simp_all
  | false =>
    have hcount := installedCount_ne_length hlast hcase
    rw [length_outcomes] at hcount
    rcases hnot hcase with h | h <;> simp [h, hcount]

/-- The final state is a final one iff all pairs were installed or the last
    one was not. -/
theorem updateLoop_terminal_iff (hne : upgradeList ≠ []) (hparts : j.task.taskParts.toNat = 0)
    (hsize : j.task.refs.size = upgradeList.length) :
    (j.updateLoop containers upgradeList).task.state.isTerminal = true ↔
      (installedCount (outcomes containers j upgradeList) =
          (outcomes containers j upgradeList).length ∨
        ∃ o, (outcomes containers j upgradeList).getLast? = some o ∧ o.installed = false) := by
  obtain ⟨last, hlast⟩ := exists_last_outcome j containers hne
  obtain ⟨hinst, hnot⟩ := updateLoop_state containers upgradeList j last (by omega) hlast
  rw [hparts, Nat.zero_add, hsize] at hinst
  rw [length_outcomes, hlast]
  cases hcase : last.installed with
  | true =>
    rw [hinst hcase]
    split <;> simp_all [State.isTerminal]
  | false =>
    rcases hnot hcase with h | h <;> simp [h, hcase, State.isTerminal]

end Started

/-- The job of `Update`, started by the scheduler on a queued task with one
    ref for each pair: its task reports rightly iff it was not canceled
    before, no `Cancel` arrives during a pair before the last, and all pairs
    are installed or the last one is not. -/
theorem updateJob_sound_iff (s : Repo) (containers : Containers) (taskID : String)
    (refs : QStringList) (pre : List Call) (upgradeList : List (Reference × Reference))
    (hne : upgradeList ≠ []) (hrefs : refs.size = upgradeList.length)
    (hpre : ∀ c ∈ pre, c = waitingCall ∨ c = .cancel)
    (hqueued : ((create taskID refs).setJob.run pre).state = .queued) :
    ReportsRightly ⟨s, (create taskID refs).setJob.run pre⟩ containers upgradeList ↔
      isDone ⟨s, (create taskID refs).setJob.run pre⟩ = false ∧
        SoundPattern (outcomes containers ⟨s, (create taskID refs).setJob.run pre⟩ upgradeList) := by
  have hlength : upgradeList.length ≠ 0 := by simpa using hne
  obtain ⟨hparts, hrefs', hdone⟩ := waiting_run hpre (create taskID refs).setJob rfl
    (by show refs.size ≠ 0; omega) rfl
  have hsize : ((create taskID refs).setJob.run pre).refs.size = upgradeList.length := by
    rw [hrefs']
    exact hrefs
  generalize (create taskID refs).setJob.run pre = t at *
  have hparts' : t.taskParts.toNat = 0 := by rw [hparts]; rfl
  cases hstart : isDone ⟨s, t⟩ with
  | true =>
    -- canceled before: the job returns at once and the task stays queued
    have hjob : updateJob ⟨s, t⟩ containers upgradeList = ⟨s, t⟩ := by simp [updateJob, hstart]
    refine iff_of_false ?_ (by simp)
    intro h
    have hterm := h.terminal
    rw [hjob] at hterm
    simp [hqueued, State.isTerminal] at hterm
  | false =>
    have hjob : updateJob ⟨s, t⟩ containers upgradeList =
        updateLoop ⟨s, t⟩ containers upgradeList := by simp [updateJob, hstart]
    have hcancel := starts_canceled_iff containers upgradeList ⟨s, t⟩ (hdone ▸ hstart)
    have hsucceed := updateLoop_succeed_iff ⟨s, t⟩ containers hne hparts' hsize
    have hterminal := updateLoop_terminal_iff ⟨s, t⟩ containers hne hparts' hsize
    constructor
    · intro h
      exact ⟨rfl, hcancel.1 (h.not_after_cancel hstart), hterminal.1 (hjob ▸ h.terminal)⟩
    · rintro ⟨-, hquiet, hpattern⟩
      refine ⟨?_, ?_, fun _ => hcancel.2 hquiet⟩
      · rw [hjob]
        exact hterminal.2 hpattern
      · rw [hjob, hsucceed]
        simp [hstart]

/-- Two packages in two versions each. -/
def packageInfo (id version : String) : PackageInfoV2 where
  arch := ["x86_64"]
  base := ""
  channel := "main"
  id := id
  kind := "base"
  packageInfoV2Module := "binary"
  runtime := none
  uuid := none
  version := version

def upgradePairs : List (Reference × Reference) :=
  [(Reference.onMain "a" 0 (by decide), Reference.onMain "a" 1 (by decide)),
    (Reference.onMain "b" 0 (by decide), Reference.onMain "b" 1 (by decide))]

/-- Both packages are installed in the old version; the replies to the pulls
    are open. -/
def upgradeRepo (pulls : List PullReply) : Repo :=
  .ofLayers
    (.ofCommits [("a0", packageInfo "a" "1.0.0.0"), ("a1", packageInfo "a" "1.0.1.0"),
      ("b0", packageInfo "b" "1.0.0.0"), ("b1", packageInfo "b" "1.0.1.0")])
    [⟨"a0", none, packageInfo "a" "1.0.0.0", "stable"⟩,
      ⟨"b0", none, packageInfo "b" "1.0.0.0", "stable"⟩] pulls []

def upgradeRefs : QStringList :=
  ⟨["stable:main/a/x86_64/binary", "stable:main/b/x86_64/binary"], by decide⟩

/-- Both pulls succeed. -/
theorem updateJob_sound_both :
    ReportsRightly ⟨upgradeRepo [⟨[], fun _ => .ok "a1"⟩, ⟨[], fun _ => .ok "b1"⟩],
      (create "1" upgradeRefs).setJob.run [waitingCall]⟩ (.ok []) upgradePairs := by
  have houtcomes : outcomes (.ok [])
      ⟨upgradeRepo [⟨[], fun _ => .ok "a1"⟩, ⟨[], fun _ => .ok "b1"⟩],
        (create "1" upgradeRefs).setJob.run [waitingCall]⟩ upgradePairs =
        [⟨true, false⟩, ⟨true, false⟩] := by decide
  refine (updateJob_sound_iff _ (.ok []) "1" upgradeRefs [waitingCall] upgradePairs (by decide)
    (by decide) (by simp) (by decide)).2 ⟨by decide, ?_⟩
  rw [houtcomes]
  exact ⟨by decide, .inl (by decide)⟩

/-- The first pull fails and the second succeeds: the state at the end is
    `partCompleted`. -/
theorem updateJob_not_sound :
    ¬ ∀ (s : Repo) (containers : Containers) (taskID : String) (refs : QStringList)
      (pre : List Call) (upgradeList : List (Reference × Reference)), upgradeList ≠ [] →
      refs.size = upgradeList.length → (∀ c ∈ pre, c = waitingCall ∨ c = .cancel) →
      ((create taskID refs).setJob.run pre).state = .queued →
      ReportsRightly ⟨s, (create taskID refs).setJob.run pre⟩ containers upgradeList := by
  intro h
  have hright := h
    (upgradeRepo [⟨[], fun _ => .error "connection lost"⟩, ⟨[], fun _ => .ok "b1"⟩]) (.ok []) "1"
    upgradeRefs [] upgradePairs (by decide) (by decide) (by simp) (by decide)
  exact absurd hright.terminal (by decide)

end Job

end Linglong
