import Linglong.Framework.Effect

/-! # Transactions

    A `Transaction` is a local variable of the functions that change the
    repository. After each change they register a closure that takes it back.
    When the function returns, the destructor calls what is registered, the
    newest first; `commit` forgets it.

    The closures are `noexcept` and return nothing, so that each is a function
    of the state. What is called is kept in a log.

    1. `Transaction` (`destroy_eq`: what its destructor does).
    2. A function with a transaction, left after any of its steps.
    3. Every run: the state of the last `commit` is restored (`run_restores`).
-/

namespace Linglong

open Framework

universe u

variable {σ : Type u}

/-! ## Section 1: Transaction -/

/-- `utils::Transaction`: the vector of closures, in the order in which they
    were registered. -/
structure Transaction (σ : Type u) where
  rollbacks : List (σ → σ)

/-- A state, and the closures that were called. -/
structure Called (σ : Type u) where
  state : σ
  called : List (σ → σ)

namespace Transaction

/-- A new one. -/
def new : Transaction σ := ⟨[]⟩

/-- `addRollBack`. -/
def addRollBack (t : Transaction σ) (func : σ → σ) : Transaction σ :=
  ⟨t.rollbacks ++ [func]⟩

/-- `commit`. -/
def commit (_ : Transaction σ) : Transaction σ := ⟨[]⟩

/-- `(*func)()`. -/
def call (c : Called σ) (func : σ → σ) : Called σ := ⟨func c.state, c.called ++ [func]⟩

/-- `~Transaction`: `for_each` from `rbegin` to `rend`. -/
def destroy (t : Transaction σ) (s : σ) : Called σ := t.rollbacks.reverse.foldl call ⟨s, []⟩

theorem foldl_call (l : List (σ → σ)) (c : Called σ) :
    l.foldl call c = ⟨rollback l c.state, c.called ++ l⟩ := by
  induction l generalizing c with
  | nil => simp
  | cons func l ih =>
    rw [List.foldl_cons, ih, rollback_cons, call, List.append_assoc, List.singleton_append]

/-- **Destructor**: each closure is called once, in the reverse order. -/
theorem destroy_eq (t : Transaction σ) (s : σ) :
    t.destroy s = ⟨rollback t.rollbacks.reverse s, t.rollbacks.reverse⟩ := by
  rw [destroy, foldl_call, List.nil_append]

end Transaction

/-! ## Section 2: A function with a transaction -/

/-- A change of the state, and the closure that is registered after it. -/
structure Operation (σ : Type u) where
  run : σ → σ
  undo : σ → σ

/-- What the function does next. -/
inductive TransactionStep (σ : Type u) where
  | operation (o : Operation σ)
  | commit

/-- The state and the local variable. -/
structure Scope (σ : Type u) where
  state : σ
  transaction : Transaction σ

namespace Scope

/-- Where the function begins. -/
def enter (s : σ) : Scope σ := ⟨s, .new⟩

def step (c : Scope σ) : TransactionStep σ → Scope σ
  | .operation o => ⟨o.run c.state, c.transaction.addRollBack o.undo⟩
  | .commit => ⟨c.state, c.transaction.commit⟩

def steps (c : Scope σ) (l : List (TransactionStep σ)) : Scope σ := l.foldl step c

/-- The function returns. -/
def leave (c : Scope σ) : Called σ := c.transaction.destroy c.state

@[simp] theorem steps_nil (c : Scope σ) : c.steps [] = c := rfl

@[simp] theorem steps_cons (c : Scope σ) (x : TransactionStep σ) (l : List (TransactionStep σ)) :
    c.steps (x :: l) = (c.step x).steps l := rfl

/-- Every closure undoes its operation, where the operation is run. -/
def Undone : Scope σ → List (TransactionStep σ) → Prop
  | _, [] => True
  | c, .operation o :: l => o.undo (o.run c.state) = c.state ∧ Undone (c.step (.operation o)) l
  | c, .commit :: l => Undone (c.step .commit) l

/-- The state of the last `commit`, if there is one in the steps. -/
def committed (s : σ) : Scope σ → List (TransactionStep σ) → σ
  | _, [] => s
  | c, .operation o :: l => committed s (c.step (.operation o)) l
  | c, .commit :: l => committed c.state (c.step .commit) l

/-- The closures that were registered after the last `commit`. -/
def registered (funcs : List (σ → σ)) : List (TransactionStep σ) → List (σ → σ)
  | [] => funcs
  | .operation o :: l => registered (funcs ++ [o.undo]) l
  | .commit :: l => registered [] l

end Scope

/-! ## Section 3: Every run -/

namespace Scope

variable {s : σ} {c : Scope σ}

/-- What is registered leads back to a state. -/
def Restores (s : σ) (c : Scope σ) : Prop :=
  Undoes (· = s) (· = c.state) c.transaction.rollbacks.reverse

theorem restores_enter (s : σ) : Restores s (enter s) := fun _ h => h

/-- **Step**: an operation whose closure undoes it. -/
theorem Restores.operation (h : Restores s c) {o : Operation σ}
    (hundo : o.undo (o.run c.state) = c.state) : Restores s (c.step (.operation o)) := by
  have hlist : (c.step (.operation o)).transaction.rollbacks.reverse =
      o.undo :: c.transaction.rollbacks.reverse := List.reverse_append
  unfold Restores
  rw [hlist]
  refine h.push ?_
  rintro _ rfl
  exact hundo

/-- **Step**: after a `commit` nothing is taken back. -/
theorem restores_commit (c : Scope σ) : Restores c.state (c.step .commit) := fun _ h => h

/-- **Run**: the state that is restored is that of the last `commit`. -/
theorem Restores.steps (h : Restores s c) {l : List (TransactionStep σ)} (hundone : c.Undone l) :
    Restores (c.committed s l) (c.steps l) := by
  induction l generalizing s c with
  | nil => exact h
  | cons x l ih =>
    cases x with
    | operation o => exact ih (h.operation hundone.1) hundone.2
    | commit => exact ih (restores_commit c) hundone

/-- **Run**: the closures that are registered. -/
theorem rollbacks_steps (c : Scope σ) (l : List (TransactionStep σ)) :
    (c.steps l).transaction.rollbacks = registered c.transaction.rollbacks l := by
  induction l generalizing c with
  | nil => rfl
  | cons x l ih =>
    rw [steps_cons, ih]
    cases x with
    | operation o => rfl
    | commit => rfl

theorem Restores.leave (h : Restores s c) : c.leave.state = s := by
  rw [Scope.leave, Transaction.destroy_eq]
  exact h _ rfl

theorem called_leave (c : Scope σ) : c.leave.called = c.transaction.rollbacks.reverse := by
  rw [leave, Transaction.destroy_eq]

/-- **Transactions**: wherever the function returns, what was registered since
    the last `commit` is called, in the reverse order, and the state of the
    last `commit` is restored. -/
theorem run_restores (s : σ) {l : List (TransactionStep σ)} (hundone : (enter s).Undone l) :
    ((enter s).steps l).leave.called = (registered [] l).reverse ∧
      ((enter s).steps l).leave.state = (enter s).committed s l := by
  rw [called_leave, rollbacks_steps]
  exact ⟨rfl, ((restores_enter s).steps hundone).leave⟩

theorem registered_operations (funcs : List (σ → σ)) (ops : List (Operation σ)) :
    registered funcs (ops.map .operation) = funcs ++ ops.map Operation.undo := by
  induction ops generalizing funcs with
  | nil => simp [registered]
  | cons o ops ih =>
    rw [List.map_cons, registered, ih]
    simp

theorem committed_operations (s : σ) (c : Scope σ) (ops : List (Operation σ)) :
    c.committed s (ops.map .operation) = s := by
  induction ops generalizing c with
  | nil => rfl
  | cons o ops ih => exact ih _

/-- **Rollback**: without a `commit` every closure is called once, in the
    reverse order, and the first state is restored; after a `commit` none is
    called and the state stays. -/
theorem rollback_unless_committed (s : σ) (ops : List (Operation σ))
    (hundone : (enter s).Undone (ops.map .operation)) :
    (((enter s).steps (ops.map .operation)).leave.called = (ops.map Operation.undo).reverse ∧
      ((enter s).steps (ops.map .operation)).leave.state = s) ∧
    ((((enter s).steps (ops.map .operation)).step .commit).leave.called = [] ∧
      (((enter s).steps (ops.map .operation)).step .commit).leave.state =
        ((enter s).steps (ops.map .operation)).state) := by
  obtain ⟨hcalled, hstate⟩ := run_restores s hundone
  rw [registered_operations, List.nil_append] at hcalled
  rw [committed_operations] at hstate
  refine ⟨⟨hcalled, hstate⟩, ?_, (restores_commit _).leave⟩
  rw [called_leave]
  rfl

/-- A number that is increased and doubled. -/
theorem rollback_unless_committed_number :
    (((enter (0 : Int)).steps ([⟨(· + 5), (· - 5)⟩, ⟨(· * 2), (· / 2)⟩].map .operation)).leave.state
      = 0) ∧
    ((((enter (0 : Int)).steps ([⟨(· + 5), (· - 5)⟩, ⟨(· * 2), (· / 2)⟩].map .operation)).step
      .commit).leave.state = 10) := by
  have hundone : (enter (0 : Int)).Undone
      ([⟨(· + 5), (· - 5)⟩, ⟨(· * 2), (· / 2)⟩].map .operation) := ⟨by decide, by decide, trivial⟩
  obtain ⟨⟨-, hrestored⟩, -, hkept⟩ := rollback_unless_committed 0 _ hundone
  exact ⟨hrestored, hkept⟩

end Scope

end Linglong
