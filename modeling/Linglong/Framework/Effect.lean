import Mathlib.Order.Defs.Unbundled
import Mathlib.Data.List.Basic

/-! # Fallible Computations on a Store

    A computation of type `EStateM ε σ α` changes a store of type `σ` and
    returns a value or an error; what it changed before failing stays
    changed. This module has the rules to reason about such computations and
    about the transactions that undo them.

    * `after`: the store a computation leaves behind, in both cases.
    * `returns`: the run ends without an error.
    * `Within R`: every run relates the store before and after by `R`. For a
      reflexive and transitive `R` this is closed under all the ways to build
      computations, so a frame condition or an invariant is proved once for
      the primitive operations.
    * `rollback`: run the registered undo actions, newest first.
    * `Undoes`: the registered actions lead back to where the transaction
      began.
    * `loopUntil`: a loop whose rounds may return from the function.
-/

namespace Framework

universe u

variable {ε σ α β : Type u}

/-! ## Section 1: Computations -/

/-- The store after a run, whether it failed or not. -/
def after (m : EStateM ε σ α) (s : σ) : σ :=
  match m s with
  | .ok _ s' => s'
  | .error _ s' => s'

theorem after_of_ok {m : EStateM ε σ α} {s s' : σ} {a : α} (h : m s = .ok a s') :
    after m s = s' := by
  simp [after, h]

theorem after_of_error {m : EStateM ε σ α} {s s' : σ} {e : ε} (h : m s = .error e s') :
    after m s = s' := by
  simp [after, h]

/-- The run ends without an error. -/
def returns (m : EStateM ε σ α) (s : σ) : Bool :=
  match m s with
  | .ok _ _ => true
  | .error _ _ => false

theorem exists_of_returns {m : EStateM ε σ α} {s : σ} (h : returns m s = true) :
    ∃ a s', m s = .ok a s' := by
  cases hrun : m s with
  | ok a s' => exact ⟨a, s', rfl⟩
  | error e s' => simp [returns, hrun] at h

/-- A sequence is a run of the first part, then of the second if the first
    one returned. -/
theorem bind_run (m : EStateM ε σ α) (f : α → EStateM ε σ β) (s : σ) :
    (m >>= f) s =
      match m s with
      | .ok a s' => f a s'
      | .error e s' => .error e s' := rfl

theorem bind_of_ok {m : EStateM ε σ α} {f : α → EStateM ε σ β} {s s' : σ} {a : α}
    (h : m s = .ok a s') : (m >>= f) s = f a s' := by
  rw [bind_run, h]

theorem bind_of_error {m : EStateM ε σ α} {f : α → EStateM ε σ β} {s s' : σ} {e : ε}
    (h : m s = .error e s') : (m >>= f) s = .error e s' := by
  rw [bind_run, h]

theorem after_bind_of_ok {m : EStateM ε σ α} {f : α → EStateM ε σ β} {s s' : σ} {a : α}
    (h : m s = .ok a s') : after (m >>= f) s = after (f a) s' := by
  rw [after, bind_of_ok h, after]

theorem get_run (s : σ) : (get : EStateM ε σ σ) s = .ok s s := rfl

/-- A sequence returns iff both parts do. -/
theorem bind_ok_iff {m : EStateM ε σ α} {f : α → EStateM ε σ β} {s s'' : σ} {b : β} :
    (m >>= f) s = .ok b s'' ↔ ∃ a s', m s = .ok a s' ∧ f a s' = .ok b s'' := by
  rw [bind_run]
  cases hm : m s with
  | ok a s' =>
    constructor
    · intro h
      exact ⟨a, s', rfl, h⟩
    · rintro ⟨a', s₁, heq, h⟩
      cases heq
      exact h
  | error e s' =>
    constructor
    · intro h
      cases h
    · rintro ⟨a', s₁, heq, -⟩
      cases heq

/-- To show something of the result of a sequence, show it of the first part
    if that fails, else of the second part. -/
theorem bind_elim {m : EStateM ε σ α} {f : α → EStateM ε σ β} {s : σ}
    {P : EStateM.Result ε σ β → Prop} (hok : ∀ a s', m s = .ok a s' → P (f a s'))
    (herror : ∀ e s', m s = .error e s' → P (.error e s')) : P ((m >>= f) s) := by
  rw [bind_run]
  cases hrun : m s with
  | ok a s' => exact hok a s' hrun
  | error e s' => exact herror e s' hrun

/-- To show something of a result, show it of both kinds. -/
theorem run_elim {m : EStateM ε σ α} {s : σ} {P : EStateM.Result ε σ α → Prop}
    (hok : ∀ a s', m s = .ok a s' → P (.ok a s'))
    (herror : ∀ e s', m s = .error e s' → P (.error e s')) : P (m s) := by
  cases hrun : m s with
  | ok a s' => exact hok a s' hrun
  | error e s' => exact herror e s' hrun

/-- Every run relates the store before and after by `R`. -/
def Within (R : σ → σ → Prop) (m : EStateM ε σ α) : Prop := ∀ s, R s (after m s)

section Within

variable {R : σ → σ → Prop}

theorem within_pure [Std.Refl R] (a : α) : Within R (pure a : EStateM ε σ α) :=
  fun s => refl_of R s

theorem within_get [Std.Refl R] : Within R (get : EStateM ε σ σ) :=
  fun s => refl_of R s

theorem within_set_of (f : σ → σ) (h : ∀ s, R s (f s)) :
    Within R (modify f : EStateM ε σ PUnit) := h

theorem Within.of_ok {m : EStateM ε σ α} (h : Within R m) {s s' : σ} {a : α}
    (hrun : m s = .ok a s') : R s s' := by
  have hafter := h s
  rwa [after_of_ok hrun] at hafter

theorem Within.of_error {m : EStateM ε σ α} (h : Within R m) {s s' : σ} {e : ε}
    (hrun : m s = .error e s') : R s s' := by
  have hafter := h s
  rwa [after_of_error hrun] at hafter

/-- Sequencing in one store; the second part may use what the first one
    found. -/
theorem rel_bind [IsTrans σ R] {m : EStateM ε σ α} {f : α → EStateM ε σ β} {s : σ}
    (hm : R s (after m s)) (hf : ∀ a s', m s = .ok a s' → R s' (after (f a) s')) :
    R s (after (m >>= f) s) := by
  cases hrun : m s with
  | ok a s' =>
    have hafter : after (m >>= f) s = after (f a) s' := by
      simp only [after, bind_of_ok hrun]
    rw [after_of_ok hrun] at hm
    rw [hafter]
    exact trans_of R hm (hf a s' hrun)
  | error e s' =>
    have hafter : after (m >>= f) s = after m s := by
      simp only [after, bind_of_error hrun, hrun]
    rw [hafter]
    exact hm

theorem within_bind [IsTrans σ R] {m : EStateM ε σ α} {f : α → EStateM ε σ β}
    (hm : Within R m) (hf : ∀ a, Within R (f a)) : Within R (m >>= f) :=
  fun s => rel_bind (hm s) fun a s' _ => hf a s'

/-- A handler for errors. -/
theorem tryCatch_run (m : EStateM ε σ α) (f : ε → EStateM ε σ α) (s : σ) :
    (tryCatch m f : EStateM ε σ α) s =
      match m s with
      | .ok a s' => .ok a s'
      | .error e s' => f e s' := by
  show EStateM.tryCatch m f s = _
  unfold EStateM.tryCatch
  cases m s <;> rfl

theorem within_tryCatch [IsTrans σ R] {m : EStateM ε σ α} {f : ε → EStateM ε σ α}
    (hm : Within R m) (hf : ∀ e, Within R (f e)) : Within R (tryCatch m f) := by
  intro s
  have hfirst := hm s
  have hrun := tryCatch_run m f s
  cases hcase : m s with
  | ok a s' =>
    rw [after_of_ok hcase] at hfirst
    simpa [after, hrun, hcase] using hfirst
  | error e s' =>
    have hafter : after (tryCatch m f) s = after (f e) s' := by
      simp only [after, hrun, hcase]
    rw [after_of_error hcase] at hfirst
    rw [hafter]
    exact trans_of R hfirst (hf e s')

theorem within_ite {p : Prop} [Decidable p] {m m' : EStateM ε σ α} (h : p → Within R m)
    (h' : ¬ p → Within R m') : Within R (if p then m else m') := by
  split
  · exact h ‹_›
  · exact h' ‹_›

/-- A loop whose body stays within `R` does so as well. -/
theorem within_forM [Std.Refl R] [IsTrans σ R] {f : α → EStateM ε σ PUnit} {l : List α}
    (h : ∀ a ∈ l, Within R (f a)) : Within R (l.forM f) := by
  induction l with
  | nil => exact within_pure _
  | cons a l ih =>
    refine within_bind (h a (by simp)) fun _ => ih ?_
    intro b hb
    exact h b (by simp [hb])

/-- The round of a loop for one of its elements. -/
theorem forM_ok_mem [Std.Refl R] [IsTrans σ R] {f : α → EStateM ε σ PUnit} {l : List α} {a : α}
    {s s' : σ} (h : ∀ a ∈ l, Within R (f a)) (hrun : l.forM f s = .ok ⟨⟩ s') (ha : a ∈ l) :
    ∃ s₁ s₂, R s s₁ ∧ f a s₁ = .ok ⟨⟩ s₂ ∧ R s₂ s' := by
  induction l generalizing s with
  | nil => cases ha
  | cons b l ih =>
    obtain ⟨_, s₁, hfirst, hrest⟩ := bind_ok_iff.1 hrun
    have hl : ∀ a ∈ l, Within R (f a) := fun c hc => h c (List.mem_cons_of_mem _ hc)
    rcases List.mem_cons.1 ha with rfl | ha
    · exact ⟨s, s₁, refl_of R s, hfirst, (within_forM hl).of_ok hrest⟩
    · obtain ⟨s₂, s₃, hbefore, hround, hafter⟩ := ih hl hrest ha
      exact ⟨s₂, s₃, trans_of R ((h b List.mem_cons_self).of_ok hfirst) hbefore, hround, hafter⟩

end Within

/-! ## Section 2: Transactions -/

/-- Run the undo actions, newest first; this is what the destructor of a
    transaction does unless it was committed. -/
def rollback (actions : List (σ → σ)) (s : σ) : σ := actions.foldl (fun s f => f s) s

@[simp] theorem rollback_nil (s : σ) : rollback [] s = s := rfl

@[simp] theorem rollback_cons (f : σ → σ) (actions : List (σ → σ)) (s : σ) :
    rollback (f :: actions) s = rollback actions (f s) := rfl

theorem rollback_append (newer older : List (σ → σ)) (s : σ) :
    rollback (newer ++ older) s = rollback older (rollback newer s) :=
  List.foldl_append

/-- The actions lead from every store described by `Q` to one described by
    `P`. -/
def Undoes (P Q : σ → Prop) (actions : List (σ → σ)) : Prop :=
  ∀ s, Q s → P (rollback actions s)

/-- Register one more action: it has to lead from the new description to
    the old one. -/
theorem Undoes.push {P Q Q' : σ → Prop} {actions : List (σ → σ)} (h : Undoes P Q actions)
    {f : σ → σ} (hf : ∀ s, Q' s → Q (f s)) : Undoes P Q' (f :: actions) :=
  fun s hs => h (f s) (hf s hs)

/-- Undo actions that stay within `R` do so together. -/
theorem rollback_within {R : σ → σ → Prop} [Std.Refl R] [IsTrans σ R]
    {actions : List (σ → σ)} (h : ∀ f ∈ actions, ∀ s, R s (f s)) (s : σ) :
    R s (rollback actions s) := by
  induction actions generalizing s with
  | nil => exact refl_of R s
  | cons f actions ih =>
    have hfirst : R s (f s) := h f (by simp) s
    exact trans_of R hfirst (ih (fun g hg => h g (by simp [hg])) (f s))

/-! ## Section 3: Loops that return -/

section Loop

variable {α σ : Type u} (stop : σ → Bool) (f : α → σ → σ)

/-- A loop over a list whose rounds may return from the function around it. -/
def loopUntil : List α → σ → σ
  | [], s => s
  | a :: l, s => if stop (f a s) then f a s else loopUntil l (f a s)

variable {stop f}

/-- **Run**: a reflexive and transitive relation that every round keeps. -/
theorem loopUntil_rel {R : σ → σ → Prop} (hrefl : ∀ s, R s s)
    (htrans : ∀ s₁ s₂ s₃, R s₁ s₂ → R s₂ s₃ → R s₁ s₃) (hstep : ∀ a s, R s (f a s))
    (l : List α) (s : σ) : R s (loopUntil stop f l s) := by
  induction l generalizing s with
  | nil => exact hrefl s
  | cons a l ih =>
    unfold loopUntil
    split
    · exact hstep a s
    · exact htrans _ _ _ (hstep a s) (ih (f a s))

theorem loopUntil_append {s : σ} (pre post : List α) (hs : stop s = false) :
    loopUntil stop f (pre ++ post) s =
      if stop (loopUntil stop f pre s) then loopUntil stop f pre s
      else loopUntil stop f post (loopUntil stop f pre s) := by
  induction pre generalizing s with
  | nil => simp [loopUntil, hs]
  | cons a pre ih =>
    simp only [List.cons_append, loopUntil]
    by_cases hstop : stop (f a s) = true
    · simp [hstop]
    · simpa [hstop] using ih (by simpa using hstop)

/-- A loop that did not return has not returned on the way. -/
theorem not_stop_of_append {s : σ} {pre post : List α} (hs : stop s = false)
    (h : stop (loopUntil stop f (pre ++ post) s) = false) :
    stop (loopUntil stop f pre s) = false := by
  rw [loopUntil_append pre post hs] at h
  split at h
  · exact h
  · next hpre => simpa using hpre

/-- The last round of a loop that did not return before. -/
theorem loopUntil_concat {s : σ} {pre : List α} (a : α) (hs : stop s = false)
    (hpre : stop (loopUntil stop f pre s) = false) :
    loopUntil stop f (pre ++ [a]) s = f a (loopUntil stop f pre s) := by
  rw [loopUntil_append pre [a] hs, hpre]
  simp [loopUntil]

/-- **Run**: what holds at the start and is kept by every round that does
    not return holds before each round. -/
theorem loopUntil_inv {I : List α → σ → Prop}
    (hstep : ∀ a l s, I (a :: l) s → stop (f a s) = false → I l (f a s))
    {pre post : List α} {s : σ} (hI : I (pre ++ post) s)
    (hpre : stop (loopUntil stop f pre s) = false) : I post (loopUntil stop f pre s) := by
  induction pre generalizing s with
  | nil => exact hI
  | cons a pre ih =>
    simp only [loopUntil] at hpre ⊢
    cases hstop : stop (f a s) with
    | true => simp [hstop] at hpre
    | false =>
      simp only [hstop, Bool.false_eq_true, if_false] at hpre ⊢
      exact ih (hstep a _ s hI hstop) hpre

/-- The same at the end of a loop that did not return. -/
theorem loopUntil_inv_nil {I : List α → σ → Prop}
    (hstep : ∀ a l s, I (a :: l) s → stop (f a s) = false → I l (f a s))
    {l : List α} {s : σ} (hI : I l s) (hl : stop (loopUntil stop f l s) = false) :
    I [] (loopUntil stop f l s) := by
  have hI' : I (l ++ []) s := by rwa [List.append_nil]
  exact loopUntil_inv hstep hI' hl

/-- The round in which a loop returned. -/
theorem loopUntil_split {s : σ} {l : List α} (hs : stop s = false)
    (hl : stop (loopUntil stop f l s) = true) :
    ∃ pre a post, l = pre ++ a :: post ∧ stop (loopUntil stop f pre s) = false ∧
      loopUntil stop f l s = f a (loopUntil stop f pre s) := by
  induction l generalizing s with
  | nil => simp [loopUntil, hs] at hl
  | cons a l ih =>
    simp only [loopUntil] at hl ⊢
    cases hstop : stop (f a s) with
    | true => exact ⟨[], a, l, rfl, hs, by simp [loopUntil]⟩
    | false =>
      simp only [hstop, Bool.false_eq_true, if_false] at hl ⊢
      obtain ⟨pre, b, post, rfl, hpre, heq⟩ := ih hstop hl
      exact ⟨a :: pre, b, post, rfl, by simp [loopUntil, hstop, hpre],
        by simp [loopUntil, hstop, heq]⟩

/-- Where the rounds of a longer loop are. -/
theorem exists_round_concat {P : List α → α → Prop} {l : List α} {x : α} :
    (∃ pre a post, l ++ [x] = pre ++ a :: post ∧ P pre a) ↔
      (∃ pre a post, l = pre ++ a :: post ∧ P pre a) ∨ P l x := by
  constructor
  · rintro ⟨pre, a, post, heq, h⟩
    rcases List.eq_nil_or_concat post with rfl | ⟨post, b, rfl⟩
    · obtain ⟨rfl, hlast⟩ := List.append_inj' heq rfl
      cases hlast
      exact .inr h
    · rw [List.concat_eq_append, ← List.cons_append, ← List.append_assoc] at heq
      obtain ⟨rfl, -⟩ := List.append_inj' heq rfl
      exact .inl ⟨pre, a, post, rfl, h⟩
  · rintro (⟨pre, a, post, rfl, h⟩ | h)
    · exact ⟨pre, a, post ++ [x], by simp, h⟩
    · exact ⟨l, x, [], rfl, h⟩

/-- A loop goes on to its end or to the round in which it returns. -/
theorem loopUntil_eq_of_stop {s : σ} {pre post : List α} {a : α} (hs : stop s = false)
    (hpre : stop (loopUntil stop f pre s) = false)
    (ha : stop (f a (loopUntil stop f pre s)) = true) :
    loopUntil stop f (pre ++ a :: post) s = f a (loopUntil stop f pre s) := by
  rw [loopUntil_append pre _ hs, hpre]
  simp [loopUntil, ha]

/-- What comes before a state in which a loop has not returned comes before
    the round in which it does. -/
theorem prefix_of_not_stop {s : σ} {pre post pre' post' : List α} {a : α} (hs : stop s = false)
    (heq : pre ++ a :: post = pre' ++ post') (hpre : stop (loopUntil stop f pre s) = false)
    (ha : stop (f a (loopUntil stop f pre s)) = true)
    (hpre' : stop (loopUntil stop f pre' s) = false) : pre' <+: pre := by
  rcases List.append_eq_append_iff.1 heq with ⟨more, rfl, hmore⟩ | ⟨more, rfl, -⟩
  · cases more with
    | nil => simp
    | cons b more =>
      -- the longer loop has stopped at `a`
      cases hmore
      rw [loopUntil_eq_of_stop hs hpre ha, ha] at hpre'
      cases hpre'
  · exact List.prefix_append _ _

end Loop

end Framework
