import Mathlib.Data.List.Basic

/-! # Loops over System Calls

    `read` and `write` may be interrupted by a signal, may fail, and may
    transfer fewer bytes than asked for. A loop around such calls is a state
    with an end test and a step for each answer; a pattern of answers is an
    infinite sequence, so that a statement about all patterns covers every
    way to split a transfer.

    * `count`: the bytes that a call transfers.
    * `Fair`: the calls are not interrupted for ever.
    * `stateAt`, `Ends`: the loop under a pattern.
    * `inv_stateAt`: the invariant rule.
    * `not_ends`: an invariant without an end.
    * `exists_ends`: the variant rule. Under a fair pattern a loop ends if
      every answer that is not an interruption brings it nearer to its end.
-/

namespace Framework

universe u v

/-- What a call answers. A call that is asked for `n` bytes transfers
    `extra + 1` of them, or all. -/
inductive Answer where
  | interrupted
  | failed
  | upTo (extra : Nat)
  deriving DecidableEq

/-- The bytes that a call asked for `n` bytes transfers. -/
def Answer.count : Answer → Nat → Nat
  | .upTo extra, n => min (extra + 1) n
  | _, _ => 0

theorem Answer.count_le (a : Answer) (n : Nat) : a.count n ≤ n := by
  cases a <;> simp only [count] <;> omega

/-- Not interrupted for ever. -/
def Fair (os : Nat → Answer) : Prop := ∀ i, ∃ j, i ≤ j ∧ os j ≠ .interrupted

/-- A loop around calls. -/
structure CallLoop (σ : Type u) (ρ : Type v) where
  /-- The result, if the loop ends here. -/
  result : σ → Option ρ
  /-- The state after the answer to the next call. -/
  next : σ → Answer → σ

namespace CallLoop

variable {σ : Type u} {ρ : Type v} (l : CallLoop σ ρ) {os : Nat → Answer} {s : σ}

/-- The state after the first `i` answers; nothing is called any more after
    the end. -/
def stateAt (os : Nat → Answer) (s : σ) : Nat → σ
  | 0 => s
  | i + 1 =>
      if (l.result (stateAt os s i)).isSome then stateAt os s i
      else l.next (stateAt os s i) (os i)

/-- The loop ends with a result. -/
def Ends (os : Nat → Answer) (s : σ) (r : ρ) : Prop := ∃ i, l.result (l.stateAt os s i) = some r

theorem stateAt_succ_of_none {i : Nat} (h : l.result (l.stateAt os s i) = none) :
    l.stateAt os s (i + 1) = l.next (l.stateAt os s i) (os i) := by
  show (if _ then _ else _) = _
  rw [h]
  rfl

theorem stateAt_of_ended {i : Nat} {r : ρ} (h : l.result (l.stateAt os s i) = some r) (k : Nat) :
    l.stateAt os s (i + k) = l.stateAt os s i := by
  induction k with
  | zero => rfl
  | succ k ih =>
    have hended : (l.result (l.stateAt os s (i + k))).isSome = true := by rw [ih, h]; rfl
    exact (if_pos hended).trans ih

/-- There is one result at most. -/
theorem ends_unique {r r' : ρ} (h : l.Ends os s r) (h' : l.Ends os s r') : r = r' := by
  obtain ⟨i, hi⟩ := h
  obtain ⟨j, hj⟩ := h'
  rcases Nat.le_total i j with hle | hle
  · have hsame := l.stateAt_of_ended hi (j - i)
    rw [show i + (j - i) = j by omega] at hsame
    rw [hsame, hi] at hj
    exact Option.some.inj hj
  · have hsame := l.stateAt_of_ended hj (i - j)
    rw [show j + (i - j) = i by omega] at hsame
    rw [hsame, hj] at hi
    exact (Option.some.inj hi).symm

/-- **Invariant rule.** -/
theorem inv_stateAt (Inv : Nat → σ → Prop) (hstart : Inv 0 s)
    (hended : ∀ i s', (l.result s').isSome = true → Inv i s' → Inv (i + 1) s')
    (hnext : ∀ i s', l.result s' = none → Inv i s' → Inv (i + 1) (l.next s' (os i))) (i : Nat) :
    Inv i (l.stateAt os s i) := by
  induction i with
  | zero => exact hstart
  | succ i ih =>
    cases hresult : l.result (l.stateAt os s i) with
    | none =>
      rw [l.stateAt_succ_of_none hresult]
      exact hnext i _ hresult ih
    | some r =>
      rw [l.stateAt_of_ended hresult 1]
      exact hended i _ (by rw [hresult]; rfl) ih

/-- An invariant under which there is no result. -/
theorem not_ends (Inv : σ → Prop) (hstart : Inv s)
    (hnext : ∀ i s', Inv s' → Inv (l.next s' (os i))) (hnone : ∀ s', Inv s' → l.result s' = none)
    (r : ρ) : ¬ l.Ends os s r := by
  intro ⟨i, hi⟩
  have hinv : Inv (l.stateAt os s i) :=
    l.inv_stateAt (fun _ => Inv) hstart (fun _ _ _ h => h) (fun i s' _ h => hnext i s' h) i
  rw [hnone _ hinv] at hi
  cases hi

/-- **Variant rule.** Interruptions change nothing, and every other answer
    ends the loop or makes the variant smaller. -/
theorem exists_ends (Inv : σ → Prop) (μ : σ → Nat) (hfair : Fair os) (hstart : Inv s)
    (hinv : ∀ s' a, Inv s' → l.result s' = none → Inv (l.next s' a))
    (hinterrupted : ∀ s', l.next s' .interrupted = s')
    (hless : ∀ s' a, Inv s' → l.result s' = none → a ≠ .interrupted →
      (l.result (l.next s' a)).isSome = true ∨ μ (l.next s' a) < μ s') :
    ∃ r, l.Ends os s r := by
  have hall : ∀ i, Inv (l.stateAt os s i) :=
    l.inv_stateAt (fun _ => Inv) hstart (fun _ _ _ h => h) fun i s' hnone h => hinv s' _ h hnone
  -- from any point on the loop ends or the variant has become smaller
  have hstep : ∀ i k, (∃ r, l.Ends os s r) ∨ μ (l.stateAt os s (i + k)) ≤ μ (l.stateAt os s i) ∧
      ((∃ j, j < k ∧ os (i + j) ≠ .interrupted) →
        μ (l.stateAt os s (i + k)) < μ (l.stateAt os s i)) := by
    intro i k
    induction k with
    | zero => exact .inr ⟨Nat.le_refl _, fun ⟨j, hj, _⟩ => absurd hj (by omega)⟩
    | succ k ih =>
      rcases ih with hends | ⟨hle, hlt⟩
      · exact .inl hends
      cases hresult : l.result (l.stateAt os s (i + k)) with
      | some r => exact .inl ⟨r, i + k, hresult⟩
      | none =>
        have hnext := l.stateAt_succ_of_none hresult
        by_cases hos : os (i + k) = .interrupted
        · rw [hos, hinterrupted] at hnext
          refine .inr ⟨?_, ?_⟩
          · show μ (l.stateAt os s (i + k + 1)) ≤ _
            rw [hnext]
            exact hle
          · intro ⟨j, hj, hne⟩
            show μ (l.stateAt os s (i + k + 1)) < _
            rw [hnext]
            refine hlt ⟨j, ?_, hne⟩
            -- the last answer was an interruption
            have hjk : j ≠ k := fun heq => hne (heq ▸ hos)
            omega
        · rcases hless _ _ (hall (i + k)) hresult hos with hends | hless
          · obtain ⟨r, hr⟩ := Option.isSome_iff_exists.1 hends
            exact .inl ⟨r, i + k + 1, by rw [hnext]; exact hr⟩
          · have hsmaller : μ (l.stateAt os s (i + k + 1)) < μ (l.stateAt os s i) := by
              rw [hnext]
              omega
            exact .inr ⟨Nat.le_of_lt hsmaller, fun _ => hsmaller⟩
  suffices hbound : ∀ bound i, μ (l.stateAt os s i) ≤ bound → ∃ r, l.Ends os s r from
    hbound _ 0 (Nat.le_refl _)
  intro bound
  induction bound with
  | zero =>
    intro i hle
    obtain ⟨j, hij, hj⟩ := hfair i
    rcases hstep i (j - i + 1) with hends | ⟨-, hlt⟩
    · exact hends
    · have hless := hlt ⟨j - i, by omega, by rwa [show i + (j - i) = j by omega]⟩
      omega
  | succ bound ih =>
    intro i hle
    obtain ⟨j, hij, hj⟩ := hfair i
    rcases hstep i (j - i + 1) with hends | ⟨-, hlt⟩
    · exact hends
    · have hless := hlt ⟨j - i, by omega, by rwa [show i + (j - i) = j by omega]⟩
      exact ih (i + (j - i + 1)) (by omega)

end CallLoop

end Framework
