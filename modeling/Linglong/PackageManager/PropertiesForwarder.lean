import Linglong.PackageManager.PackageTask

/-! # The Properties of a Task on the Bus

    A task that is registered on D-Bus has a forwarder
    (`dbus/properties_forwarder.cpp`). It connects to the notify signals of
    the task, reads each property that has changed into a cache, and sends
    the whole cache when the task says so. The cache is never cleared. So
    one message brings a client up to date that has missed all the others.

    Three things stay out of the cache or are late there: what
    `setSubState` and `setMessage` write "directly", a percentage that is
    reset after a completed part, and a value that is set once more.

    1. The cache and the signals.
    2. The calls, with what they send (`task_apply`).
    3. What the cache holds (`sent_of_acts`).
-/

namespace Linglong

/-! ## Section 1: The cache -/

/-- `propCache`, from the names of the properties to their values. -/
structure PropCache where
  state : Option State := none
  subState : Option SubState := none
  percentage : Option ℚ := none
  message : Option String := none
  deriving DecidableEq

/-- A task and the cache of its forwarder. -/
structure BusTask where
  task : PackageTask
  propCache : PropCache := {}
  deriving DecidableEq

namespace BusTask

/-- The properties of a task. Each has a notify signal. -/
inductive Property where
  | state | subState | percentage | message
  deriving DecidableEq

/-- `PropertyChanged`, the slot: read the property. -/
def propertyChanged (b : BusTask) : Property → BusTask
  | .state => { b with propCache := { b.propCache with state := some b.task.state } }
  | .subState => { b with propCache := { b.propCache with subState := some b.task.subState } }
  | .percentage =>
      { b with propCache := { b.propCache with percentage := some b.task.getPercentage } }
  | .message => { b with propCache := { b.propCache with message := some b.task.message } }

/-- A plain write. -/
def write (b : BusTask) (f : PackageTask → PackageTask) : BusTask := { b with task := f b.task }

/-- `setProperty` of a member: there is no signal if the value is equal. -/
def setProperty {α : Type} [DecidableEq α] (read : PackageTask → α)
    (assign : α → PackageTask → PackageTask) (p : Property) (b : BusTask) (v : α) : BusTask :=
  if read b.task = v then b else (b.write (assign v)).propertyChanged p

def setState (b : BusTask) (newState : State) : BusTask :=
  b.setProperty PackageTask.state (fun v t => { t with state := v }) .state newState

def setSubState (b : BusTask) (newSubState : SubState) : BusTask :=
  b.setProperty PackageTask.subState (fun v t => t.setSubState v) .subState newSubState

def setMessage (b : BusTask) (message : String) : BusTask :=
  b.setProperty PackageTask.message (fun v t => t.setMessage v) .message message

/-- Change the fields of the percentage, and emit `PercentageChanged`. -/
def setPercentage (b : BusTask) (total cur : ℚ) : BusTask :=
  (b.write fun t => { t with totalPercentage := total, curStagePercentage := cur }).propertyChanged
    .percentage

/-! ## Section 2: The calls -/

/-- The messages that a call sends, `changePropertiesDone` at its end. -/
abbrev Sent := BusTask × List PropCache

def changePropertiesDone (b : BusTask) : Sent := (b, [b.propCache])

/-- `updateTask`. -/
def updateTask (b : BusTask) (part whole : UInt32) (message : String) : Sent :=
  if whole = 0 then (b, [])
  else if whole < part then (b, [])
  else
    let b := b.setMessage message
    (b.setPercentage b.task.totalPercentage (part.toNat / whole.toNat)).changePropertiesDone

/-- `updateSubState`. -/
def updateSubState (b : BusTask) (newSubState : SubState) (message : String) : Sent :=
  let b := (b.setSubState newSubState).setMessage message
  if isTaskDone b.task.subState then
    (b.setPercentage taskDone b.task.curStagePercentage).changePropertiesDone
  else
    let total := b.task.totalPercentage + PackageTask.subStateMap b.task.subState
    (b.setPercentage total 0).changePropertiesDone

/-- A part is completed. After the signal the percentage is reset, without
    another one. -/
def completePart (b : BusTask) : BusTask :=
  let b := b.write fun t => { t with taskParts := t.taskParts + 1 }
  let b := b.setPercentage taskDone b.task.curStagePercentage
  b.write fun t => { t with totalPercentage := 0, curStagePercentage := 0 }

/-- First half of `updateState`. -/
def storeState (b : BusTask) (newState : State) : BusTask :=
  let b := b.setState newState
  if b.task.state = .partCompleted then b.completePart else b

def inferSucceed (b : BusTask) : BusTask :=
  if b.task.taskParts.toNat = b.task.refs.size then b.setState .succeed else b

def settleState (b : BusTask) (message : String) (optDone : Option SubState) : Sent :=
  if b.task.state.isTerminal then b.updateSubState (optDone.getD .allDone) message
  else (b.setMessage message).changePropertiesDone

/-- `updateState`. -/
def updateState (b : BusTask) (newState : State) (message : String)
    (optDone : Option SubState) : Sent :=
  ((b.storeState newState).inferSucceed).settleState message optDone

/-- `reportError`. -/
def reportError (b : BusTask) (err : Error) : Sent :=
  let b := ((b.setPercentage taskDone 0).setState .failed).setSubState .allDone
  ((b.write fun t => { t with err := some err }).setMessage err.message).changePropertiesDone

/-- `Cancel`. -/
def cancel (b : BusTask) : Sent :=
  if b.task.cancelFlag then (b, [])
  else
    (b.write fun t => { t with cancelFlag := true }).updateState .canceled
      ("task " ++ b.task.taskID ++ " has been canceled by user") none

/-- One call. -/
def apply (b : BusTask) : PackageTask.Call → Sent
  | .updateState newState message optDone => b.updateState newState message optDone
  | .updateSubState newSubState message => b.updateSubState newSubState message
  | .updateTask part whole message => b.updateTask part whole message
  | .reportError err => b.reportError err
  | .cancel => b.cancel

/-- One call after the other. -/
def run (b : BusTask) : List PackageTask.Call → Sent
  | [] => (b, [])
  | c :: cs => (((b.apply c).1.run cs).1, (b.apply c).2 ++ ((b.apply c).1.run cs).2)

/-! ### The task itself -/

@[simp] theorem task_write (b : BusTask) (f : PackageTask → PackageTask) :
    (b.write f).task = f b.task := rfl

@[simp] theorem task_propertyChanged (b : BusTask) (p : Property) :
    (b.propertyChanged p).task = b.task := by
  cases p <;> rfl

theorem task_setProperty {α : Type} [DecidableEq α] {read : PackageTask → α}
    {assign : α → PackageTask → PackageTask} (h : ∀ t, assign (read t) t = t) (p : Property)
    (b : BusTask) (v : α) : (b.setProperty read assign p v).task = assign v b.task := by
  unfold setProperty
  split
  · next heq => rw [← heq, h]
  · rw [task_propertyChanged, task_write]

@[simp] theorem task_setState (b : BusTask) (s : State) :
    (b.setState s).task = { b.task with state := s } :=
  task_setProperty (fun _ => rfl) .state b s

@[simp] theorem task_setSubState (b : BusTask) (ss : SubState) :
    (b.setSubState ss).task = b.task.setSubState ss :=
  task_setProperty (fun _ => rfl) .subState b ss

@[simp] theorem task_setMessage (b : BusTask) (msg : String) :
    (b.setMessage msg).task = b.task.setMessage msg :=
  task_setProperty (fun _ => rfl) .message b msg

@[simp] theorem task_setPercentage (b : BusTask) (total cur : ℚ) :
    (b.setPercentage total cur).task =
      { b.task with totalPercentage := total, curStagePercentage := cur } := by
  rw [setPercentage, task_propertyChanged, task_write]

@[simp] theorem task_changePropertiesDone (b : BusTask) :
    b.changePropertiesDone.1.task = b.task := rfl

theorem task_updateSubState (b : BusTask) (ss : SubState) (msg : String) :
    (b.updateSubState ss msg).1.task = b.task.updateSubState ss msg := by
  unfold updateSubState PackageTask.updateSubState
  simp only [task_setMessage, task_setSubState, PackageTask.setMessage, PackageTask.setSubState]
  split
  · rw [task_changePropertiesDone, task_setPercentage, task_setMessage, task_setSubState]
    rfl
  · rw [task_changePropertiesDone, task_setPercentage, task_setMessage, task_setSubState]
    rfl

theorem task_completePart (b : BusTask) : b.completePart.task =
    { b.task with
      taskParts := b.task.taskParts + 1
      totalPercentage := 0
      curStagePercentage := 0 } := by
  unfold completePart
  rw [task_write, task_setPercentage]
  rfl

theorem task_storeState (b : BusTask) (s : State) :
    (b.storeState s).task = b.task.storeState s := by
  unfold storeState PackageTask.storeState
  simp only [task_setState]
  split
  · rw [task_completePart, task_setState]
  · rw [task_setState]

theorem task_inferSucceed (b : BusTask) : (b.inferSucceed).task = b.task.inferSucceed := by
  unfold inferSucceed PackageTask.inferSucceed
  split
  · rw [task_setState]
  · rfl

theorem task_updateState (b : BusTask) (s : State) (msg : String) (o : Option SubState) :
    (b.updateState s msg o).1.task = b.task.updateState s msg o := by
  have htask : ((b.storeState s).inferSucceed).task = (b.task.storeState s).inferSucceed := by
    rw [task_inferSucceed, task_storeState]
  unfold updateState PackageTask.updateState settleState PackageTask.settleState
  rw [htask]
  split
  · rw [task_updateSubState, htask]
  · rw [task_changePropertiesDone, task_setMessage, htask]
    rfl

/-- **The task** under a call is the task without a forwarder. -/
theorem task_apply (b : BusTask) (c : PackageTask.Call) : (b.apply c).1.task = b.task.apply c := by
  cases c with
  | updateState s msg o => exact task_updateState b s msg o
  | updateSubState ss msg => exact task_updateSubState b ss msg
  | updateTask part whole msg =>
    unfold apply updateTask PackageTask.apply PackageTask.updateTask
    dsimp only
    split
    · rfl
    · split
      · rfl
      · rw [task_changePropertiesDone, task_setPercentage, task_setMessage]
        rfl
  | reportError e =>
    unfold apply reportError
    simp only [task_changePropertiesDone, task_setMessage, task_write, task_setSubState,
      task_setState, task_setPercentage]
    rfl
  | cancel =>
    unfold apply cancel PackageTask.apply PackageTask.cancel
    dsimp only
    split
    · rfl
    · rw [task_updateState, task_write]

theorem task_run (b : BusTask) (cs : List PackageTask.Call) :
    (b.run cs).1.task = b.task.run cs := by
  induction cs generalizing b with
  | nil => rfl
  | cons c cs ih => exact (ih (b.apply c).1).trans (by rw [task_apply, PackageTask.run_cons])

/-! ## Section 3: What the cache holds -/

/-- The cache has the value of a property, or nothing if it is the one of a
    new task. -/
def Agrees (b : BusTask) : Property → Prop
  | .state => b.propCache.state.getD .queued = b.task.state
  | .subState => b.propCache.subState.getD .unknown = b.task.subState
  | .percentage => b.propCache.percentage.getD 0 = b.task.getPercentage
  | .message => b.propCache.message.getD "" = b.task.message

variable {b : BusTask} {p q : Property}

theorem agrees_propertyChanged_self (b : BusTask) (p : Property) :
    (b.propertyChanged p).Agrees p := by
  cases p <;> rfl

theorem Agrees.propertyChanged (h : b.Agrees q) (p : Property) :
    (b.propertyChanged p).Agrees q := by
  by_cases heq : p = q
  · rw [heq]
    exact agrees_propertyChanged_self b q
  · cases p <;> cases q <;> first | exact absurd rfl heq | exact h

/-- A plain write keeps what it does not touch. -/
theorem Agrees.write (h : b.Agrees q) {f : PackageTask → PackageTask}
    (hstate : q = .state → (f b.task).state = b.task.state)
    (hsub : q = .subState → (f b.task).subState = b.task.subState)
    (hpercentage : q = .percentage → (f b.task).getPercentage = b.task.getPercentage)
    (hmessage : q = .message → (f b.task).message = b.task.message) : (b.write f).Agrees q := by
  cases q with
  | state => exact h.trans (hstate rfl).symm
  | subState => exact h.trans (hsub rfl).symm
  | percentage => exact h.trans (hpercentage rfl).symm
  | message => exact h.trans (hmessage rfl).symm

/-- A new value is either no change or in the cache. -/
theorem Agrees.setState (h : b.Agrees q) (s : State) : (b.setState s).Agrees q := by
  unfold BusTask.setState setProperty
  split
  · exact h
  · by_cases hq : q = .state
    · rw [hq]
      exact agrees_propertyChanged_self _ _
    · exact (h.write (fun heq => absurd heq hq) (fun _ => rfl) (fun _ => rfl)
        fun _ => rfl).propertyChanged _

theorem Agrees.setMessage (h : b.Agrees q) (msg : String) : (b.setMessage msg).Agrees q := by
  unfold BusTask.setMessage setProperty
  split
  · exact h
  · by_cases hq : q = .message
    · rw [hq]
      exact agrees_propertyChanged_self _ _
    · exact (h.write (fun _ => rfl) (fun _ => rfl) (fun _ => rfl)
        fun heq => absurd heq hq).propertyChanged _

theorem Agrees.setSubState (h : b.Agrees q) (hq : q ≠ .percentage) (ss : SubState) :
    (b.setSubState ss).Agrees q := by
  unfold BusTask.setSubState setProperty
  split
  · exact h
  · by_cases hsub : q = .subState
    · rw [hsub]
      exact agrees_propertyChanged_self _ _
    · exact (h.write (fun _ => rfl) (fun heq => absurd heq hsub) (fun heq => absurd heq hq)
        fun _ => rfl).propertyChanged _

theorem agrees_setPercentage (b : BusTask) (total cur : ℚ) :
    (b.setPercentage total cur).Agrees .percentage :=
  agrees_propertyChanged_self _ _

theorem Agrees.setPercentage (h : b.Agrees q) (total cur : ℚ) :
    (b.setPercentage total cur).Agrees q := by
  by_cases hq : q = .percentage
  · rw [hq]
    exact agrees_setPercentage b total cur
  · exact (h.write (fun _ => rfl) (fun _ => rfl) (fun heq => absurd heq hq)
      fun _ => rfl).propertyChanged _

theorem Agrees.updateSubState (h : b.Agrees q) (hq : q ≠ .percentage) (ss : SubState)
    (msg : String) : (b.updateSubState ss msg).1.Agrees q := by
  unfold BusTask.updateSubState
  dsimp only
  split
  · exact ((h.setSubState hq ss).setMessage msg).setPercentage _ _
  · exact ((h.setSubState hq ss).setMessage msg).setPercentage _ _

theorem agrees_updateSubState (b : BusTask) (ss : SubState) (msg : String) :
    (b.updateSubState ss msg).1.Agrees .percentage := by
  unfold BusTask.updateSubState
  dsimp only
  split
  · exact agrees_setPercentage _ _ _
  · exact agrees_setPercentage _ _ _

theorem Agrees.completePart (h : b.Agrees q) (hq : q ≠ .percentage) : b.completePart.Agrees q := by
  have hpart : (b.write fun t => { t with taskParts := t.taskParts + 1 }).Agrees q :=
    h.write (fun _ => rfl) (fun _ => rfl) (fun _ => rfl) fun _ => rfl
  exact (hpart.setPercentage _ _).write (fun _ => rfl) (fun _ => rfl) (fun heq => absurd heq hq)
    fun _ => rfl

theorem Agrees.inferSucceed (h : b.Agrees q) : b.inferSucceed.Agrees q := by
  unfold BusTask.inferSucceed
  split
  · exact h.setState .succeed
  · exact h

theorem Agrees.updateState (h : b.Agrees q) (hq : q ≠ .percentage) (s : State) (msg : String)
    (o : Option SubState) : (b.updateState s msg o).1.Agrees q := by
  have hstore : (b.storeState s).Agrees q := by
    unfold storeState
    dsimp only
    split
    · exact (h.setState s).completePart hq
    · exact h.setState s
  unfold BusTask.updateState settleState
  split
  · exact hstore.inferSucceed.updateSubState hq _ msg
  · exact hstore.inferSucceed.setMessage msg

/-- **Step**: state, sub-state and message stay right in the cache. -/
theorem Agrees.apply (h : b.Agrees q) (hq : q ≠ .percentage) (c : PackageTask.Call) :
    (b.apply c).1.Agrees q := by
  cases c with
  | updateState s msg o => exact h.updateState hq s msg o
  | updateSubState ss msg => exact h.updateSubState hq ss msg
  | updateTask part whole msg =>
    unfold BusTask.apply updateTask
    dsimp only
    split
    · exact h
    · split
      · exact h
      · exact (h.setMessage msg).setPercentage _ _
  | reportError e =>
    have hdone := ((h.setPercentage taskDone 0).setState .failed).setSubState hq .allDone
    exact (hdone.write (f := fun t => { t with err := some e }) (fun _ => rfl) (fun _ => rfl)
      (fun _ => rfl) fun _ => rfl).setMessage e.message
  | cancel =>
    unfold BusTask.apply cancel
    dsimp only
    split
    · exact h
    · have hflag : (b.write fun t => { t with cancelFlag := true }).Agrees q :=
        h.write (fun _ => rfl) (fun _ => rfl) (fun _ => rfl) fun _ => rfl
      exact hflag.updateState hq _ _ _

/-- **Run**: any calls. -/
theorem Agrees.run (h : b.Agrees q) (hq : q ≠ .percentage) (cs : List PackageTask.Call) :
    (b.run cs).1.Agrees q := by
  induction cs generalizing b with
  | nil => exact h
  | cons c cs ih => exact ih (h.apply hq c)

/-- What is in the cache stays there, with this or another value. -/
structure Grows (b b' : BusTask) : Prop where
  state : b'.propCache.state = none → b.propCache.state = none
  subState : b'.propCache.subState = none → b.propCache.subState = none
  percentage : b'.propCache.percentage = none → b.propCache.percentage = none
  message : b'.propCache.message = none → b.propCache.message = none

theorem Grows.refl (b : BusTask) : Grows b b := ⟨id, id, id, id⟩

theorem Grows.trans {b b' b'' : BusTask} (h : Grows b b') (h' : Grows b' b'') : Grows b b'' :=
  ⟨h.state ∘ h'.state, h.subState ∘ h'.subState, h.percentage ∘ h'.percentage,
    h.message ∘ h'.message⟩

theorem Grows.write {b b' : BusTask} (h : Grows b b') (f : PackageTask → PackageTask) :
    Grows b (b'.write f) := ⟨h.state, h.subState, h.percentage, h.message⟩

theorem Grows.propertyChanged {b b' : BusTask} (h : Grows b b') (p : Property) :
    Grows b (b'.propertyChanged p) := by
  refine h.trans ?_
  cases p with
  | state => exact ⟨nofun, id, id, id⟩
  | subState => exact ⟨id, nofun, id, id⟩
  | percentage => exact ⟨id, id, nofun, id⟩
  | message => exact ⟨id, id, id, nofun⟩

theorem Grows.setProperty {b b' : BusTask} (h : Grows b b') {α : Type} [DecidableEq α]
    (read : PackageTask → α) (assign : α → PackageTask → PackageTask) (p : Property) (v : α) :
    Grows b (b'.setProperty read assign p v) := by
  unfold BusTask.setProperty
  split
  · exact h
  · exact (h.write _).propertyChanged p

theorem Grows.setState {b b' : BusTask} (h : Grows b b') (s : State) : Grows b (b'.setState s) :=
  h.setProperty _ _ _ s

theorem Grows.setSubState {b b' : BusTask} (h : Grows b b') (ss : SubState) :
    Grows b (b'.setSubState ss) :=
  h.setProperty _ _ _ ss

theorem Grows.setMessage {b b' : BusTask} (h : Grows b b') (msg : String) :
    Grows b (b'.setMessage msg) :=
  h.setProperty _ _ _ msg

theorem Grows.setPercentage {b b' : BusTask} (h : Grows b b') (total cur : ℚ) :
    Grows b (b'.setPercentage total cur) :=
  (h.write _).propertyChanged .percentage

theorem Grows.completePart {b b' : BusTask} (h : Grows b b') : Grows b b'.completePart := by
  unfold BusTask.completePart
  exact ((h.write _).setPercentage _ _).write _

theorem Grows.updateSubState {b b' : BusTask} (h : Grows b b') (ss : SubState) (msg : String) :
    Grows b (b'.updateSubState ss msg).1 := by
  unfold BusTask.updateSubState
  dsimp only
  split
  · exact ((h.setSubState ss).setMessage msg).setPercentage _ _
  · exact ((h.setSubState ss).setMessage msg).setPercentage _ _

theorem Grows.updateState {b b' : BusTask} (h : Grows b b') (s : State) (msg : String)
    (o : Option SubState) : Grows b (b'.updateState s msg o).1 := by
  have hstore : Grows b (b'.storeState s) := by
    unfold storeState
    dsimp only
    split
    · exact (h.setState s).completePart
    · exact h.setState s
  have hinfer : Grows b (b'.storeState s).inferSucceed := by
    unfold inferSucceed
    split
    · exact hstore.setState .succeed
    · exact hstore
  unfold BusTask.updateState settleState
  split
  · exact hinfer.updateSubState _ msg
  · exact hinfer.setMessage msg

/-- **Step**: the cache only grows. -/
theorem grows_apply (b : BusTask) (c : PackageTask.Call) : Grows b (b.apply c).1 := by
  cases c with
  | updateState s msg o => exact (Grows.refl b).updateState s msg o
  | updateSubState ss msg => exact (Grows.refl b).updateSubState ss msg
  | updateTask part whole msg =>
    unfold apply updateTask
    dsimp only
    split
    · exact Grows.refl b
    · split
      · exact Grows.refl b
      · exact ((Grows.refl b).setMessage msg).setPercentage _ _
  | reportError e =>
    have hset : Grows b (((b.setPercentage taskDone 0).setState .failed).setSubState .allDone) :=
      (((Grows.refl b).setPercentage _ _).setState _).setSubState _
    have hlast : Grows b (b.reportError e).1 :=
      (hset.write fun t => { t with err := some e }).setMessage e.message
    exact hlast
  | cancel =>
    unfold apply cancel
    dsimp only
    split
    · exact Grows.refl b
    · exact ((Grows.refl b).write _).updateState _ _ _

/-- A call sends the cache as it is at the end, or it changes nothing. -/
theorem apply_sent (b : BusTask) (c : PackageTask.Call) :
    (b.apply c).2 = [(b.apply c).1.propCache] ∨ b.apply c = (b, []) := by
  have hsub : ∀ (b : BusTask) (ss : SubState) (msg : String),
      (b.updateSubState ss msg).2 = [(b.updateSubState ss msg).1.propCache] := by
    intro b ss msg
    unfold updateSubState
    dsimp only
    split
    · rfl
    · rfl
  have hstate : ∀ (b : BusTask) (s : State) (msg : String) (o : Option SubState),
      (b.updateState s msg o).2 = [(b.updateState s msg o).1.propCache] := by
    intro b s msg o
    unfold updateState settleState
    split
    · exact hsub _ _ _
    · rfl
  cases c with
  | updateState s msg o => exact .inl (hstate b s msg o)
  | updateSubState ss msg => exact .inl (hsub b ss msg)
  | updateTask part whole msg =>
    unfold apply updateTask
    dsimp only
    split
    · exact .inr rfl
    · split
      · exact .inr rfl
      · exact .inl rfl
  | reportError e => exact .inl rfl
  | cancel =>
    unfold apply cancel
    dsimp only
    split
    · exact .inr rfl
    · exact .inl (hstate _ _ _ _)

/-- What a call sends is the cache at its end. -/
theorem eq_of_mem_sent {c : PackageTask.Call} {m : PropCache} (h : m ∈ (b.apply c).2) :
    m = (b.apply c).1.propCache := by
  rcases apply_sent b c with hsent | hnone
  · rw [hsent] at h
    exact List.mem_singleton.1 h
  · rw [hnone] at h
    cases h

theorem percentage_setProperty {α : Type} [DecidableEq α] {read : PackageTask → α}
    {assign : α → PackageTask → PackageTask} (hp : p ≠ .percentage) (b : BusTask) (v : α) :
    (b.setProperty read assign p v).propCache.percentage = b.propCache.percentage := by
  unfold setProperty
  split
  · rfl
  · cases p <;> first | exact absurd rfl hp | rfl

/-- The percentage is 100 before the sub-state says so. -/
theorem agrees_reportError (b : BusTask) (e : Error) :
    (b.reportError e).1.Agrees .percentage := by
  have hcached : (b.setPercentage taskDone 0).propCache.percentage = some 100 := by
    unfold setPercentage BusTask.propertyChanged PackageTask.getPercentage BusTask.write
    dsimp only
    split
    · rfl
    · rw [Rat.zero_mul, Rat.add_zero]
      rfl
  have hlast : (b.reportError e).1.propCache.percentage = some 100 := by
    unfold reportError
    dsimp only [changePropertiesDone]
    rw [setMessage, percentage_setProperty (by decide)]
    dsimp only [BusTask.write]
    rw [setSubState, percentage_setProperty (by decide), setState,
      percentage_setProperty (by decide), hcached]
  have htask : (b.reportError e).1.task.getPercentage = 100 := by
    have hrun : (b.reportError e).1.task = b.task.reportError e := task_apply b (.reportError e)
    rw [hrun]
    rfl
  exact (congrArg (Option.getD · 0) hlast).trans htask.symm

/-- The percentage is right in what a call sends, unless the call is an
    `updateState` that does not end the task. -/
theorem agrees_percentage_of_sent {c : PackageTask.Call}
    (hc : ∀ s msg o, c = .updateState s msg o → (b.task.stateAfter s).isTerminal = true)
    (hsent : (b.apply c).2 ≠ []) : (b.apply c).1.Agrees .percentage := by
  have hstate : ∀ (b : BusTask) (s : State) (msg : String) (o : Option SubState),
      (b.task.stateAfter s).isTerminal = true → (b.updateState s msg o).1.Agrees .percentage := by
    intro b s msg o hterminal
    have htask : ((b.storeState s).inferSucceed).task.state = b.task.stateAfter s := by
      rw [task_inferSucceed, task_storeState, PackageTask.inferSucceed_storeState_state]
    unfold updateState settleState
    rw [htask, if_pos hterminal]
    exact agrees_updateSubState _ _ _
  cases c with
  | updateState s msg o => exact hstate b s msg o (hc s msg o rfl)
  | updateSubState ss msg => exact agrees_updateSubState b ss msg
  | updateTask part whole msg =>
    unfold apply updateTask at hsent ⊢
    dsimp only at hsent ⊢
    split at hsent
    · exact absurd rfl hsent
    · next hwhole =>
      split at hsent
      · exact absurd rfl hsent
      · next hpart =>
        rw [if_neg hwhole, if_neg hpart]
        exact agrees_setPercentage _ _ _
  | reportError e => exact agrees_reportError b e
  | cancel =>
    unfold apply cancel at hsent ⊢
    dsimp only at hsent ⊢
    split at hsent
    · exact absurd rfl hsent
    · next hflag =>
      rw [if_neg hflag]
      exact hstate _ _ _ _ (PackageTask.stateAfter_canceled_isTerminal _)

/-! ### Any use of a task -/

/-- What is done with a task: "use setMessage and setSubState directly will
    not trigger signal". -/
inductive Action where
  | call (c : PackageTask.Call)
  | setSubState (newSubState : SubState)
  | setMessage (message : String)
  deriving DecidableEq

def act (b : BusTask) : Action → Sent
  | .call c => b.apply c
  | .setSubState newSubState => (b.write fun t => t.setSubState newSubState, [])
  | .setMessage message => (b.write fun t => t.setMessage message, [])

/-- One action after the other. -/
def acts (b : BusTask) (as : List Action) : BusTask := as.foldl (fun b a => (b.act a).1) b

/-- `create`, with a forwarder. -/
def create (taskID : String) (refs : QStringList) : BusTask := ⟨.create taskID refs, {}⟩

theorem agrees_create (taskID : String) (refs : QStringList) (q : Property) :
    (create taskID refs).Agrees q := by
  cases q with
  | percentage =>
    have hzero : (0 : ℚ) = 0 + 0 * PackageTask.subStateMap .unknown := by
      rw [Rat.zero_mul, Rat.add_zero]
    exact hzero
  | state | subState | message => rfl

/-- Does an action write the property without a signal? -/
def Action.hides : Action → Property → Bool
  | .setSubState _, .subState => true
  | .setMessage _, .message => true
  | _, _ => false

/-- **Step**: one action. -/
theorem Agrees.act (h : b.Agrees q) (hq : q ≠ .percentage) {a : Action} (ha : a.hides q = false) :
    (b.act a).1.Agrees q := by
  cases a with
  | call c => exact h.apply hq c
  | setSubState ss =>
    refine h.write (fun _ => rfl) (fun heq => ?_) (fun heq => absurd heq hq) fun _ => rfl
    subst heq
    cases ha
  | setMessage msg =>
    refine h.write (fun _ => rfl) (fun _ => rfl) (fun heq => absurd heq hq) fun heq => ?_
    subst heq
    cases ha

/-- **Run**: any actions. -/
theorem Agrees.acts {as : List Action} (h : b.Agrees q) (hq : q ≠ .percentage)
    (has : ∀ a ∈ as, a.hides q = false) : (b.acts as).Agrees q := by
  induction as generalizing b with
  | nil => exact h
  | cons a as ih =>
    exact ih (h.act hq (has a List.mem_cons_self)) fun a' ha' => has a' (List.mem_cons_of_mem _ ha')

/-- **Main result**: after anything that was done with a task, the message
    that a call sends holds the state of the task; its sub-state and message,
    unless they were written without a signal before; and its percentage,
    unless the call is an `updateState` that does not end the task. -/
theorem sent_of_acts (taskID : String) (refs : QStringList) (as : List Action)
    (c : PackageTask.Call) {m : PropCache}
    (hm : m ∈ (((create taskID refs).acts as).apply c).2) :
    let b := ((create taskID refs).acts as).apply c |>.1
    m.state.getD .queued = b.task.state ∧
      ((∀ a ∈ as, a.hides .subState = false) → m.subState.getD .unknown = b.task.subState) ∧
      ((∀ a ∈ as, a.hides .message = false) → m.message.getD "" = b.task.message) ∧
      ((∀ s msg o, c = .updateState s msg o →
          (((create taskID refs).acts as).task.stateAfter s).isTerminal = true) →
        m.percentage.getD 0 = b.task.getPercentage) := by
  intro b
  have heq : m = b.propCache := eq_of_mem_sent hm
  have hsent : (((create taskID refs).acts as).apply c).2 ≠ [] := List.ne_nil_of_mem hm
  have hagrees : ∀ q, q ≠ .percentage → (∀ a ∈ as, a.hides q = false) → b.Agrees q :=
    fun q hq has => ((agrees_create taskID refs q).acts hq has).apply hq c
  have hstate : ∀ a ∈ as, a.hides .state = false := fun a _ => by cases a <;> rfl
  rw [heq]
  exact ⟨hagrees .state (by decide) hstate, fun has => hagrees .subState (by decide) has,
    fun has => hagrees .message (by decide) has, fun hc => agrees_percentage_of_sent hc hsent⟩

/-- A task is started and reports its progress. -/
def downloading : List Action :=
  [.call (.updateState .processing "start" none),
    .call (.updateSubState .installRuntime "runtime"), .call (.updateTask 1 2 "half")]

/-- Nothing was written without a signal, so the last message holds the whole
    state. -/
theorem sent_of_acts_downloading :
    let b₀ := (create "a" (.single "main:stable/org.shop/x86_64")).acts downloading
    let c : PackageTask.Call := .updateState .succeed "done" none
    let b := (b₀.apply c).1
    b.propCache.state.getD .queued = b.task.state ∧
      ((∀ a ∈ downloading, a.hides .subState = false) →
        b.propCache.subState.getD .unknown = b.task.subState) ∧
      ((∀ a ∈ downloading, a.hides .message = false) →
        b.propCache.message.getD "" = b.task.message) ∧
      ((∀ s msg o, c = .updateState s msg o → (b₀.task.stateAfter s).isTerminal = true) →
        b.propCache.percentage.getD 0 = b.task.getPercentage) :=
  sent_of_acts "a" (.single "main:stable/org.shop/x86_64") downloading
    (.updateState .succeed "done" none) (List.mem_singleton.2 rfl)

theorem percentage_completePart (b : BusTask) : b.completePart.propCache.percentage =
    some ({ b.task with
      taskParts := b.task.taskParts + 1
      totalPercentage := taskDone } : PackageTask).getPercentage := rfl

/-- After a part that is not the last one the message has the percentage from
    before it is reset. -/
theorem percentage_of_partCompleted (b : BusTask) (msg : String) (o : Option SubState)
    (hdone : isTaskDone b.task.subState = false)
    (hparts : b.task.partsAfter .partCompleted ≠ b.task.refs.size) :
    (b.updateState .partCompleted msg o).1.propCache.percentage =
        some (taskDone + b.task.curStagePercentage * PackageTask.subStateMap b.task.subState) ∧
      (b.updateState .partCompleted msg o).1.task.getPercentage = 0 := by
  have hstore : b.storeState .partCompleted = (b.setState .partCompleted).completePart := by
    unfold storeState
    dsimp only
    rw [if_pos (by rw [task_setState])]
  have htask : (b.setState .partCompleted).completePart.task =
      { b.task with
        state := .partCompleted
        taskParts := b.task.taskParts + 1
        totalPercentage := 0
        curStagePercentage := 0 } := by
    rw [task_completePart, task_setState]
  have hrun : b.updateState .partCompleted msg o =
      ((b.setState .partCompleted).completePart.setMessage msg).changePropertiesDone := by
    have hinfer : (b.setState .partCompleted).completePart.inferSucceed =
        (b.setState .partCompleted).completePart := by
      unfold inferSucceed
      rw [htask]
      exact if_neg hparts
    unfold updateState settleState
    rw [hstore, hinfer, htask]
    rfl
  rw [hrun]
  constructor
  · dsimp only [changePropertiesDone]
    rw [setMessage, percentage_setProperty (by decide), percentage_completePart, task_setState,
      PackageTask.getPercentage, if_neg (by simp [hdone])]
  · rw [task_changePropertiesDone, task_setMessage, htask]
    unfold PackageTask.getPercentage PackageTask.setMessage
    dsimp only
    rw [if_neg (by simp [hdone]), Rat.zero_mul, Rat.add_zero]

end BusTask

end Linglong
