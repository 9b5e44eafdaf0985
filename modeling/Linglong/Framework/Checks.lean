import Mathlib.Data.List.Basic

/-! # Chains of Checks

    A computation of type `Except ε α` has no store: it is a chain of steps
    that may fail, and it returns iff all of them return. The rules take such
    a chain apart step by step.

    * `bind_eq_ok_iff`: a sequence.
    * `ite_error_eq_ok_iff`: a check that fails with a message.
    * `foldlM_concat_eq_ok_iff`: the last round of a loop.
    * `foldlM_cons_eq_ok_iff`: its first round.
    * `foldlM_ne_error`: an error that no round has.
-/

namespace Framework

universe u v w

variable {ε : Type u} {α β : Type v}

/-- A sequence returns iff both parts do. -/
theorem bind_eq_ok_iff {x : Except ε α} {f : α → Except ε β} {b : β} :
    (x >>= f) = .ok b ↔ ∃ a, x = .ok a ∧ f a = .ok b := by
  cases x with
  | error e =>
    constructor
    · intro h
      cases h
    · intro ⟨a, h, _⟩
      cases h
  | ok a =>
    constructor
    · intro h
      exact ⟨a, rfl, h⟩
    · intro ⟨a', h, hf⟩
      cases h
      exact hf

/-- A check that does not fail. -/
theorem ite_error_eq_ok_iff {c : Prop} [Decidable c] {e : ε} {x : Except ε α} {a : α} :
    (if c then .error e else x) = .ok a ↔ ¬ c ∧ x = .ok a := by
  by_cases h : c
  · rw [if_pos h]
    simp [h]
  · rw [if_neg h]
    simp [h]

/-- The last round of a loop. -/
theorem foldlM_concat_eq_ok_iff {γ : Type w} {f : β → γ → Except ε β} {l : List γ} {a : γ}
    {b c : β} :
    (l ++ [a]).foldlM f b = .ok c ↔ ∃ m, l.foldlM f b = .ok m ∧ f m a = .ok c := by
  rw [List.foldlM_append, bind_eq_ok_iff]
  refine exists_congr fun m => and_congr_right fun _ => ?_
  rw [List.foldlM_cons, bind_eq_ok_iff]
  constructor
  · intro ⟨m', hround, hend⟩
    cases hend
    exact hround
  · intro hround
    exact ⟨c, hround, rfl⟩

/-- The first round of a loop. -/
theorem foldlM_cons_eq_ok_iff {γ : Type w} {f : β → γ → Except ε β} {l : List γ} {a : γ}
    {b c : β} :
    (a :: l).foldlM f b = .ok c ↔ ∃ m, f b a = .ok m ∧ l.foldlM f m = .ok c := by
  rw [List.foldlM_cons, bind_eq_ok_iff]

/-- A loop fails with an error of one of its rounds. -/
theorem foldlM_ne_error {γ : Type w} {f : β → γ → Except ε β} {l : List γ} {e : ε}
    (h : ∀ b, ∀ a ∈ l, f b a ≠ .error e) (b : β) : l.foldlM f b ≠ .error e := by
  induction l generalizing b with
  | nil =>
    intro herror
    cases herror
  | cons a l ih =>
    rw [List.foldlM_cons]
    cases hround : f b a with
    | error e' =>
      intro herror
      have hsame : e' = e := Except.error.inj herror
      exact h b a List.mem_cons_self (by rw [hround, hsame])
    | ok b' => exact ih (fun b a ha => h b a (List.mem_cons_of_mem _ ha)) b'

end Framework
