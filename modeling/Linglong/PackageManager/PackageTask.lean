import Mathlib.Algebra.Group.Nat.Defs
import Mathlib.Data.Rat.Defs
import Linglong.Framework.Machine

/-! # PackageTask

    The task object that every request of the package manager works on
    (`package_task.h`, `package_task.cpp`): a main state, a sub-state, a
    progress percentage, the refs the task is about and the number of
    completed parts.

    Five calls write these fields: `updateTask`, `updateState`,
    `updateSubState`, `reportError` and `Cancel`. None of the first four
    looks at the state it overwrites; `Cancel` looks at its own flag only.
    D-Bus signals and the property forwarder are left out, percentages are
    exact rationals.
-/

namespace Linglong

/-! ## Section 1: Data model -/

/-- Main state of a task (`api/types/v1/State.hpp`). -/
inductive State where
  | canceled | failed | partCompleted | pending | processing | queued | succeed | unknown
  deriving DecidableEq, Repr

/-- Sub-state of a task (`api/types/v1/SubState.hpp`). -/
inductive SubState where
  | allDone | installApplication | installBase | installRuntime | packageManagerDone
  | postAction | preAction | uninstall | unknown
  deriving DecidableEq, Repr

/-- `utils::error::Error`: what `code()` and `message()` return. -/
structure Error where
  code : Int
  message : String
  deriving DecidableEq, Repr

/-- A `QStringList`; its `size()` is an `int`. -/
structure QStringList where
  toList : List String
  size_lt : toList.length < 2 ^ 31
  deriving DecidableEq

/-- `QStringList::size`. -/
def QStringList.size (l : QStringList) : Nat := l.toList.length

/-- The empty list of refs. -/
def QStringList.empty : QStringList := ⟨[], by decide⟩

/-- A list with one ref. -/
def QStringList.single (ref : String) : QStringList := ⟨[ref], by simp⟩

/-- `PackageTask`. `taskParts` is a `uint`, `cancelFlag` is the state of the
    `GCancellable`, `hasJob` says whether `m_job` holds a function. -/
structure PackageTask where
  state : State
  subState : SubState
  err : Option Error
  totalPercentage : ℚ
  curStagePercentage : ℚ
  message : String
  taskID : String
  refs : QStringList
  taskParts : UInt32
  cancelFlag : Bool
  hasJob : Bool
  deriving DecidableEq

/-- `TASK_DONE`. -/
def taskDone : ℚ := 100

/-- `isTaskDone`: the two sub-states that callers read as "finished". -/
def isTaskDone : SubState → Bool
  | .allDone | .packageManagerDone => true
  | _ => false

/-- The three main states `updateState` treats as final. -/
def State.isTerminal : State → Bool
  | .canceled | .failed | .succeed => true
  | _ => false

namespace PackageTask

/-- `PackageTask::PackageTask`: a new task for a list of refs. -/
def create (taskID : String) (refs : QStringList) : PackageTask where
  state := .queued
  subState := .unknown
  err := none
  totalPercentage := 0
  curStagePercentage := 0
  message := ""
  taskID := taskID
  refs := refs
  taskParts := 0
  cancelFlag := false
  hasJob := false

/-- `createTemporaryTask`: a task with no refs. -/
def createTemporaryTask (taskID : String) : PackageTask := create taskID .empty

/-- `taskObjectPath`. -/
def taskObjectPath (t : PackageTask) : String := "/org/deepin/linglong/Task1/" ++ t.taskID

theorem taskObjectPath_congr {t u : PackageTask} (h : t.taskID = u.taskID) :
    t.taskObjectPath = u.taskObjectPath :=
  congrArg (fun id => "/org/deepin/linglong/Task1/" ++ id) h

/-- `setJob`; what the job does is up to the model of the scheduler. -/
def setJob (t : PackageTask) : PackageTask := { t with hasJob := true }

/-- `isRefExist`. -/
def isRefExist (t : PackageTask) (ref : String) : Bool := t.refs.toList.contains ref

/-- `m_subStateMap`: the share of each stage; a missing key reads as zero. -/
def subStateMap : SubState → ℚ
  | .preAction => 10
  | .installBase | .installRuntime | .installApplication => 20
  | .uninstall => 80
  | .postAction => 5
  | _ => 0

/-- `getPercentage`. -/
def getPercentage (t : PackageTask) : ℚ :=
  if isTaskDone t.subState then 100
  else t.totalPercentage + t.curStagePercentage * subStateMap t.subState

/-! ## Section 2: The five writing calls -/

/-- `updateTask`. -/
def updateTask (t : PackageTask) (part whole : UInt32) (message : String) : PackageTask :=
  if whole = 0 then t
  else if whole < part then t
  else { t with message := message, curStagePercentage := part.toNat / whole.toNat }

/-- `updateSubState`. -/
def updateSubState (t : PackageTask) (newSubState : SubState) (message : String) :
    PackageTask :=
  if isTaskDone newSubState then
    { t with subState := newSubState, message := message, totalPercentage := taskDone }
  else
    { t with
      subState := newSubState
      message := message
      totalPercentage := t.totalPercentage + subStateMap newSubState
      curStagePercentage := 0 }

/-- First half of `updateState`: store the new state and, for a completed
    part, count it and reset the percentages. -/
def storeState (t : PackageTask) (newState : State) : PackageTask :=
  if newState = .partCompleted then
    { t with
      state := newState
      taskParts := t.taskParts + 1
      totalPercentage := 0
      curStagePercentage := 0 }
  else { t with state := newState }

/-- Middle of `updateState`: "every part is completed, it means succeed". -/
def inferSucceed (t : PackageTask) : PackageTask :=
  if t.taskParts.toNat = t.refs.size then { t with state := .succeed } else t

/-- Last part of `updateState`: a final state takes the sub-state along. -/
def settleState (t : PackageTask) (message : String) (optDone : Option SubState) :
    PackageTask :=
  if t.state.isTerminal then t.updateSubState (optDone.getD .allDone) message
  else { t with message := message }

/-- `updateState`. -/
def updateState (t : PackageTask) (newState : State) (message : String)
    (optDone : Option SubState) : PackageTask :=
  ((t.storeState newState).inferSucceed).settleState message optDone

/-- `reportError`. -/
def reportError (t : PackageTask) (err : Error) : PackageTask :=
  { t with
    totalPercentage := taskDone
    curStagePercentage := 0
    state := .failed
    subState := .allDone
    err := some err
    message := err.message }

/-- `Cancel`: only the first one counts. -/
def cancel (t : PackageTask) : PackageTask :=
  if t.cancelFlag then t
  else
    ({ t with cancelFlag := true }).updateState .canceled
      ("task " ++ t.taskID ++ " has been canceled by user") none

/-- `setSubState`, `setMessage`: plain writes without a signal. -/
def setSubState (t : PackageTask) (newSubState : SubState) : PackageTask :=
  { t with subState := newSubState }

def setMessage (t : PackageTask) (message : String) : PackageTask :=
  { t with message := message }

/-! ## Section 3: Calls as data -/

/-- One call of the public interface. -/
inductive Call where
  | updateState (newState : State) (message : String) (optDone : Option SubState)
  | updateSubState (newSubState : SubState) (message : String)
  | updateTask (part whole : UInt32) (message : String)
  | reportError (err : Error)
  | cancel
  deriving DecidableEq

/-- Perform one call. -/
def apply (t : PackageTask) : Call → PackageTask
  | .updateState newState message optDone => t.updateState newState message optDone
  | .updateSubState newSubState message => t.updateSubState newSubState message
  | .updateTask part whole message => t.updateTask part whole message
  | .reportError err => t.reportError err
  | .cancel => t.cancel

/-- Perform a sequence of calls. -/
def run (t : PackageTask) (calls : List Call) : PackageTask := calls.foldl apply t

@[simp] theorem run_nil (t : PackageTask) : t.run [] = t := rfl

@[simp] theorem run_cons (t : PackageTask) (c : Call) (cs : List Call) :
    t.run (c :: cs) = (t.apply c).run cs := rfl

theorem run_append (t : PackageTask) (cs ds : List Call) :
    t.run (cs ++ ds) = (t.run cs).run ds := List.foldl_append

/-- A task under calls, as a machine: every call is enabled. -/
def machine : Framework.Machine PackageTask Call where
  next := fun t c => some (t.apply c)

theorem exec_machine (t : PackageTask) (cs : List Call) :
    machine.exec t cs = some (t.run cs) := by
  induction cs generalizing t with
  | nil => rfl
  | cons c cs ih => exact ih (t.apply c)

/-! ### What one call writes -/

/-- The number of completed parts that `updateState newState` compares with
    the number of refs. -/
def partsAfter (t : PackageTask) (newState : State) : Nat :=
  if newState = .partCompleted then (t.taskParts + 1).toNat else t.taskParts.toNat

/-- The main state that `updateState newState` leaves behind. -/
def stateAfter (t : PackageTask) (newState : State) : State :=
  if t.partsAfter newState = t.refs.size then .succeed else newState

@[simp] theorem updateSubState_state (t : PackageTask) (ss : SubState) (msg : String) :
    (t.updateSubState ss msg).state = t.state := by
  unfold updateSubState; split <;> rfl

@[simp] theorem updateSubState_subState (t : PackageTask) (ss : SubState) (msg : String) :
    (t.updateSubState ss msg).subState = ss := by
  unfold updateSubState; split <;> rfl

@[simp] theorem updateSubState_refs (t : PackageTask) (ss : SubState) (msg : String) :
    (t.updateSubState ss msg).refs = t.refs := by
  unfold updateSubState; split <;> rfl

@[simp] theorem updateSubState_taskParts (t : PackageTask) (ss : SubState) (msg : String) :
    (t.updateSubState ss msg).taskParts = t.taskParts := by
  unfold updateSubState; split <;> rfl

@[simp] theorem updateSubState_cancelFlag (t : PackageTask) (ss : SubState) (msg : String) :
    (t.updateSubState ss msg).cancelFlag = t.cancelFlag := by
  unfold updateSubState; split <;> rfl

theorem inferSucceed_storeState_state (t : PackageTask) (s : State) :
    ((t.storeState s).inferSucceed).state = t.stateAfter s := by
  unfold storeState inferSucceed stateAfter partsAfter
  by_cases hs : s = .partCompleted <;> simp only [hs, if_true, if_false] <;> split <;> rfl

@[simp] theorem settleState_state (t : PackageTask) (msg : String) (o : Option SubState) :
    (t.settleState msg o).state = t.state := by
  unfold settleState; split <;> simp

@[simp] theorem settleState_refs (t : PackageTask) (msg : String) (o : Option SubState) :
    (t.settleState msg o).refs = t.refs := by
  unfold settleState; split <;> simp

@[simp] theorem settleState_taskParts (t : PackageTask) (msg : String)
    (o : Option SubState) : (t.settleState msg o).taskParts = t.taskParts := by
  unfold settleState; split <;> simp

@[simp] theorem settleState_cancelFlag (t : PackageTask) (msg : String)
    (o : Option SubState) : (t.settleState msg o).cancelFlag = t.cancelFlag := by
  unfold settleState; split <;> simp

@[simp] theorem updateState_state (t : PackageTask) (s : State) (msg : String)
    (o : Option SubState) : (t.updateState s msg o).state = t.stateAfter s := by
  rw [updateState, settleState_state, inferSucceed_storeState_state]

theorem updateState_subState (t : PackageTask) (s : State) (msg : String)
    (o : Option SubState) :
    (t.updateState s msg o).subState =
      if (t.stateAfter s).isTerminal then o.getD .allDone else t.subState := by
  rw [← inferSucceed_storeState_state, updateState, settleState]
  split
  · simp
  · unfold inferSucceed storeState
    split <;> split <;> rfl

@[simp] theorem updateState_refs (t : PackageTask) (s : State) (msg : String)
    (o : Option SubState) : (t.updateState s msg o).refs = t.refs := by
  rw [updateState, settleState_refs, inferSucceed, storeState]
  split <;> split <;> rfl

@[simp] theorem updateState_taskParts (t : PackageTask) (s : State) (msg : String)
    (o : Option SubState) :
    (t.updateState s msg o).taskParts =
      if s = .partCompleted then t.taskParts + 1 else t.taskParts := by
  rw [updateState, settleState_taskParts, inferSucceed, storeState]
  by_cases hs : s = .partCompleted <;> simp only [hs, if_true, if_false] <;> split <;> rfl

@[simp] theorem updateState_cancelFlag (t : PackageTask) (s : State) (msg : String)
    (o : Option SubState) : (t.updateState s msg o).cancelFlag = t.cancelFlag := by
  rw [updateState, settleState_cancelFlag, inferSucceed, storeState]
  split <;> split <;> rfl

@[simp] theorem updateTask_state (t : PackageTask) (p w : UInt32) (msg : String) :
    (t.updateTask p w msg).state = t.state := by
  unfold updateTask; split <;> [rfl; (split <;> rfl)]

@[simp] theorem updateTask_subState (t : PackageTask) (p w : UInt32) (msg : String) :
    (t.updateTask p w msg).subState = t.subState := by
  unfold updateTask; split <;> [rfl; (split <;> rfl)]

@[simp] theorem updateTask_refs (t : PackageTask) (p w : UInt32) (msg : String) :
    (t.updateTask p w msg).refs = t.refs := by
  unfold updateTask; split <;> [rfl; (split <;> rfl)]

@[simp] theorem updateTask_taskParts (t : PackageTask) (p w : UInt32) (msg : String) :
    (t.updateTask p w msg).taskParts = t.taskParts := by
  unfold updateTask; split <;> [rfl; (split <;> rfl)]

@[simp] theorem updateTask_cancelFlag (t : PackageTask) (p w : UInt32) (msg : String) :
    (t.updateTask p w msg).cancelFlag = t.cancelFlag := by
  unfold updateTask; split <;> [rfl; (split <;> rfl)]

theorem cancel_of_flag {t : PackageTask} (h : t.cancelFlag = true) : t.cancel = t := by
  simp [cancel, h]

theorem cancel_state {t : PackageTask} (h : t.cancelFlag = false) :
    t.cancel.state = t.stateAfter .canceled := by
  simp only [cancel, h, Bool.false_eq_true, if_false, updateState_state]
  rfl

theorem stateAfter_canceled_isTerminal (t : PackageTask) :
    (t.stateAfter .canceled).isTerminal = true := by
  unfold stateAfter; split <;> rfl

theorem cancel_subState {t : PackageTask} (h : t.cancelFlag = false) :
    t.cancel.subState = .allDone := by
  simp only [cancel, h, Bool.false_eq_true, if_false, updateState_subState]
  rw [if_pos (stateAfter_canceled_isTerminal _)]
  rfl

@[simp] theorem cancel_refs (t : PackageTask) : t.cancel.refs = t.refs := by
  unfold cancel; split <;> simp

@[simp] theorem cancel_taskParts (t : PackageTask) : t.cancel.taskParts = t.taskParts := by
  unfold cancel; split <;> simp

@[simp] theorem cancel_cancelFlag (t : PackageTask) : t.cancel.cancelFlag = true := by
  unfold cancel
  split
  · assumption
  · simp

/-! ### What no call writes -/

@[simp] theorem updateState_taskID (t : PackageTask) (s : State) (msg : String)
    (o : Option SubState) : (t.updateState s msg o).taskID = t.taskID := by
  rw [updateState, settleState, updateSubState, inferSucceed, storeState]
  split_ifs <;> rfl

@[simp] theorem updateState_hasJob (t : PackageTask) (s : State) (msg : String)
    (o : Option SubState) : (t.updateState s msg o).hasJob = t.hasJob := by
  rw [updateState, settleState, updateSubState, inferSucceed, storeState]
  split_ifs <;> rfl

@[simp] theorem cancel_taskID (t : PackageTask) : t.cancel.taskID = t.taskID := by
  unfold cancel; split <;> simp

@[simp] theorem cancel_hasJob (t : PackageTask) : t.cancel.hasJob = t.hasJob := by
  unfold cancel; split <;> simp

@[simp] theorem apply_taskID (t : PackageTask) (c : Call) : (t.apply c).taskID = t.taskID := by
  cases c with
  | updateState s msg o => simp [apply]
  | updateSubState ss msg => simp only [apply, updateSubState]; split_ifs <;> rfl
  | updateTask p w msg => simp only [apply, updateTask]; split_ifs <;> rfl
  | reportError e => rfl
  | cancel => exact cancel_taskID t

@[simp] theorem apply_hasJob (t : PackageTask) (c : Call) : (t.apply c).hasJob = t.hasJob := by
  cases c with
  | updateState s msg o => simp [apply]
  | updateSubState ss msg => simp only [apply, updateSubState]; split_ifs <;> rfl
  | updateTask p w msg => simp only [apply, updateTask]; split_ifs <;> rfl
  | reportError e => rfl
  | cancel => exact cancel_hasJob t

@[simp] theorem updateState_taskObjectPath (t : PackageTask) (st : State) (msg : String)
    (o : Option SubState) : (t.updateState st msg o).taskObjectPath = t.taskObjectPath :=
  taskObjectPath_congr (updateState_taskID t st msg o)

@[simp] theorem cancel_taskObjectPath (t : PackageTask) :
    t.cancel.taskObjectPath = t.taskObjectPath :=
  taskObjectPath_congr (cancel_taskID t)

@[simp] theorem apply_taskObjectPath (t : PackageTask) (c : Call) :
    (t.apply c).taskObjectPath = t.taskObjectPath :=
  taskObjectPath_congr (apply_taskID t c)

@[simp] theorem run_taskObjectPath (t : PackageTask) (cs : List Call) :
    (t.run cs).taskObjectPath = t.taskObjectPath := by
  induction cs generalizing t with
  | nil => rfl
  | cons c cs ih => rw [run_cons, ih, apply_taskObjectPath]

@[simp] theorem apply_refs (t : PackageTask) (c : Call) : (t.apply c).refs = t.refs := by
  cases c <;> simp [apply, reportError]

@[simp] theorem run_refs (t : PackageTask) (cs : List Call) : (t.run cs).refs = t.refs := by
  induction cs generalizing t with
  | nil => rfl
  | cons c cs ih => rw [run_cons, ih, apply_refs]

end PackageTask

end Linglong
