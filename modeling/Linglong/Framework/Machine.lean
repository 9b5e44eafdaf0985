import Mathlib.Data.List.Basic

/-! # Labelled Machines and Guarded Runs

    A machine is a partial step function: `next s l` is the state after the
    event `l`, or `none` when `l` cannot happen in `s`. All the
    nondeterminism of a system (which message arrives, which process moves,
    which call fails) sits in the choice of the labels, so a statement about
    every run is a statement about every list of labels.

    * `exec`: run a list of labels.
    * `Meets ok`: every step of the run satisfies `ok` in the state before it.
    * `Always P`: every state of the run satisfies `P`.
    * `invariant_of_meets`: the induction rule for invariants that one step
      preserves only under `ok`.
    * `always_iff_meets`: the same if `ok` is the exact condition.
-/

namespace Framework

universe u v

/-- A labelled machine, given by its partial step function. -/
structure Machine (σ : Type u) (ℓ : Type v) where
  /-- The state after an event, `none` if the event is not enabled. -/
  next : σ → ℓ → Option σ

namespace Machine

variable {σ : Type u} {ℓ : Type v} (m : Machine σ ℓ)

/-- Run a list of events; `none` as soon as one of them is not enabled. -/
def exec : σ → List ℓ → Option σ
  | s, [] => some s
  | s, l :: ls => (m.next s l).bind fun s' => exec s' ls

/-- Every step of the run meets the condition `ok` in the state before it. -/
def Meets (ok : σ → ℓ → Prop) : σ → List ℓ → Prop
  | _, [] => True
  | s, l :: ls => ok s l ∧ ∀ s', m.next s l = some s' → Meets ok s' ls

/-- Every state of the run, the first and the last included, satisfies `P`. -/
def Always (P : σ → Prop) : σ → List ℓ → Prop
  | s, [] => P s
  | s, l :: ls => P s ∧ ∀ s', m.next s l = some s' → Always P s' ls

@[simp] theorem exec_nil (s : σ) : m.exec s [] = some s := rfl

theorem exec_cons (s : σ) (l : ℓ) (ls : List ℓ) :
    m.exec s (l :: ls) = (m.next s l).bind fun s' => m.exec s' ls := rfl

/-- A run of `l :: ls` is a step followed by a run of `ls`. -/
theorem exec_cons_some {s s'' : σ} {l : ℓ} {ls : List ℓ} :
    m.exec s (l :: ls) = some s'' ↔
      ∃ s', m.next s l = some s' ∧ m.exec s' ls = some s'' := by
  rw [exec_cons, Option.bind_eq_some_iff]

/-- A run of two lists is a run of the second one after the first. -/
theorem exec_append {s s' : σ} {ls ls' : List ℓ} (h : m.exec s ls = some s') :
    m.exec s (ls ++ ls') = m.exec s' ls' := by
  induction ls generalizing s with
  | nil =>
    rw [exec_nil] at h
    exact Option.some.inj h ▸ rfl
  | cons l ls ih =>
    obtain ⟨s₁, hnext, hrest⟩ := m.exec_cons_some.1 h
    rw [List.cons_append, exec_cons, hnext, Option.bind_some, ih hrest]

/-- A run of two lists stops in between. -/
theorem exists_of_exec_append {s s' : σ} {ls ls' : List ℓ} (h : m.exec s (ls ++ ls') = some s') :
    ∃ s₁, m.exec s ls = some s₁ ∧ m.exec s₁ ls' = some s' := by
  induction ls generalizing s with
  | nil => exact ⟨s, rfl, h⟩
  | cons l ls ih =>
    obtain ⟨s₁, hnext, hrest⟩ := m.exec_cons_some.1 h
    obtain ⟨s₂, hfirst, hsecond⟩ := ih hrest
    exact ⟨s₂, m.exec_cons_some.2 ⟨s₁, hnext, hfirst⟩, hsecond⟩

/-- **Origin.** What holds at the end of a run and not at its start was
    brought about by one of its steps. -/
theorem exists_step_of_exec {P : σ → Prop} {ls : List ℓ} : ∀ {s s' : σ}, ¬ P s → P s' →
    m.exec s ls = some s' → ∃ ls₁ l ls₂ s₁ s₂, ls = ls₁ ++ l :: ls₂ ∧ m.exec s ls₁ = some s₁ ∧
      m.next s₁ l = some s₂ ∧ ¬ P s₁ ∧ P s₂ ∧ m.exec s₂ ls₂ = some s' := by
  induction ls with
  | nil =>
    intro s s' hs hs' hexec
    exact absurd (Option.some.inj hexec ▸ hs') hs
  | cons l ls ih =>
    intro s s' hs hs' hexec
    obtain ⟨s₁, hnext, hrest⟩ := m.exec_cons_some.1 hexec
    by_cases h₁ : P s₁
    · exact ⟨[], l, ls, s, s₁, rfl, rfl, hnext, hs, h₁, hrest⟩
    · obtain ⟨ls₁, l', ls₂, s₂, s₃, rfl, hfirst, hstep, hn, hp, hlast⟩ := ih h₁ hs' hrest
      exact ⟨l :: ls₁, l', ls₂, s₂, s₃, rfl, m.exec_cons_some.2 ⟨s₁, hnext, hfirst⟩, hstep, hn,
        hp, hlast⟩

/-- `Meets` along a step whose result is known. -/
theorem meets_cons_of_next {ok : σ → ℓ → Prop} {s s' : σ} {l : ℓ} {ls : List ℓ}
    (hnext : m.next s l = some s') : m.Meets ok s (l :: ls) ↔ ok s l ∧ m.Meets ok s' ls := by
  refine and_congr_right fun _ => ⟨fun h => h s' hnext, ?_⟩
  intro h s'' hnext'
  rw [hnext] at hnext'
  exact Option.some.inj hnext' ▸ h

/-- `Meets` along a step that is not enabled. -/
theorem meets_cons_of_stuck {ok : σ → ℓ → Prop} {s : σ} {l : ℓ} {ls : List ℓ}
    (hnext : m.next s l = none) : m.Meets ok s (l :: ls) ↔ ok s l := by
  refine ⟨fun h => h.1, fun h => ⟨h, ?_⟩⟩
  intro s' hnext'
  rw [hnext] at hnext'
  cases hnext'

/-- `Meets` of the first part of a run. -/
theorem meets_append_left {ok : σ → ℓ → Prop} {s : σ} {ls ls' : List ℓ}
    (h : m.Meets ok s (ls ++ ls')) : m.Meets ok s ls := by
  induction ls generalizing s with
  | nil => trivial
  | cons l ls ih => exact ⟨h.1, fun s' hnext => ih (h.2 s' hnext)⟩

/-- `Meets` of the second part of a run. -/
theorem meets_append_right {ok : σ → ℓ → Prop} {s s' : σ} {ls ls' : List ℓ}
    (h : m.Meets ok s (ls ++ ls')) (hexec : m.exec s ls = some s') : m.Meets ok s' ls' := by
  induction ls generalizing s with
  | nil => exact Option.some.inj hexec ▸ h
  | cons l ls ih =>
    obtain ⟨s₁, hnext, hrest⟩ := m.exec_cons_some.1 hexec
    exact ih (h.2 s₁ hnext) hrest

/-- A run that meets two conditions meets both at once. -/
theorem meets_and {ok ok' : σ → ℓ → Prop} {s : σ} {ls : List ℓ} (h : m.Meets ok s ls)
    (h' : m.Meets ok' s ls) : m.Meets (fun s l => ok s l ∧ ok' s l) s ls := by
  induction ls generalizing s with
  | nil => trivial
  | cons l ls ih =>
    refine ⟨⟨h.1, h'.1⟩, ?_⟩
    intro s' hnext
    exact ih (h.2 s' hnext) (h'.2 s' hnext)

/-- A decidable condition can be checked along a concrete run. -/
instance decidableMeets (ok : σ → ℓ → Prop) [∀ s l, Decidable (ok s l)] :
    ∀ (s : σ) (ls : List ℓ), Decidable (m.Meets ok s ls)
  | _, [] => isTrue trivial
  | s, l :: ls =>
      match hnext : m.next s l with
      | none => decidable_of_iff (ok s l) (m.meets_cons_of_stuck hnext).symm
      | some s' =>
          have := decidableMeets ok s' ls
          decidable_of_iff (ok s l ∧ m.Meets ok s' ls) (m.meets_cons_of_next hnext).symm

/-- A concrete run that goes through reaches some state. -/
theorem exists_of_exec_isSome (s : σ) (ls : List ℓ) (h : (m.exec s ls).isSome = true) :
    ∃ s', m.exec s ls = some s' :=
  Option.isSome_iff_exists.1 h

/-- The state at the start of a run satisfies what all its states satisfy. -/
theorem Always.head {P : σ → Prop} {s : σ} {ls : List ℓ}
    (h : m.Always P s ls) : P s := by
  cases ls with
  | nil => exact h
  | cons l ls => exact h.1

/-- **Invariant rule.** If each step that meets `ok` preserves `Inv`, then
    `Inv` holds at the end of every run whose steps all meet `ok`. -/
theorem invariant_of_meets {ok : σ → ℓ → Prop} {Inv : σ → Prop}
    (hstep : ∀ s l s', Inv s → ok s l → m.next s l = some s' → Inv s')
    {ls : List ℓ} : ∀ {s s' : σ}, Inv s → m.Meets ok s ls →
      m.exec s ls = some s' → Inv s' := by
  induction ls with
  | nil =>
    intro s s' hinv _ hexec
    rw [exec_nil] at hexec
    exact Option.some.inj hexec ▸ hinv
  | cons l ls ih =>
    intro s s'' hinv hmeets hexec
    obtain ⟨s', hnext, hrest⟩ := (m.exec_cons_some).1 hexec
    exact ih (hstep s l s' hinv hmeets.1 hnext) (hmeets.2 s' hnext) hrest

/-- A condition on the labels alone. -/
theorem meets_of_forall {ok : ℓ → Prop} {ls : List ℓ} (h : ∀ l ∈ ls, ok l) (s : σ) :
    m.Meets (fun _ l => ok l) s ls := by
  induction ls generalizing s with
  | nil => trivial
  | cons l ls ih =>
    have hls : ∀ l' ∈ ls, ok l' := fun l' hl' => h l' (List.mem_cons_of_mem _ hl')
    exact ⟨h l List.mem_cons_self, fun s' _ => ih hls s'⟩

/-- Every run meets the condition that always holds. -/
theorem meets_true (s : σ) (ls : List ℓ) : m.Meets (fun _ _ => True) s ls := by
  induction ls generalizing s with
  | nil => trivial
  | cons l ls ih => exact ⟨trivial, fun s' _ => ih s'⟩

/-- The same without a condition on the steps. -/
theorem invariant_of_exec {Inv : σ → Prop}
    (hstep : ∀ s l s', Inv s → m.next s l = some s' → Inv s') {s s' : σ} {ls : List ℓ}
    (hinv : Inv s) (hexec : m.exec s ls = some s') : Inv s' :=
  m.invariant_of_meets (fun s l s' hs _ hnext => hstep s l s' hs hnext) hinv (m.meets_true s ls)
    hexec

/-- The same for all states of the run. -/
theorem always_of_meets {ok : σ → ℓ → Prop} {P : σ → Prop}
    (hstep : ∀ s l s', P s → ok s l → m.next s l = some s' → P s') {ls : List ℓ} :
    ∀ {s : σ}, P s → m.Meets ok s ls → m.Always P s ls := by
  induction ls with
  | nil => exact fun hs _ => hs
  | cons l ls ih =>
    intro s hs hmeets
    refine ⟨hs, fun s' hnext => ?_⟩
    exact ih (hstep s l s' hs hmeets.1 hnext) (hmeets.2 s' hnext)

/-- The same for all states, without a condition on the steps. -/
theorem always_of_step {P : σ → Prop} (hstep : ∀ s l s', P s → m.next s l = some s' → P s')
    {s : σ} {ls : List ℓ} (hs : P s) : m.Always P s ls :=
  m.always_of_meets (fun s l s' hs _ hnext => hstep s l s' hs hnext) hs (m.meets_true s ls)

/-- **Exact runs.** If a step keeps `P` under exactly the condition `ok`,
    then `P` holds all along a run iff all its steps meet `ok`. -/
theorem always_iff_meets {ok : σ → ℓ → Prop} {P : σ → Prop}
    (hstep : ∀ s l, P s → ∃ s', m.next s l = some s' ∧ (P s' ↔ ok s l)) {ls : List ℓ} :
    ∀ {s : σ}, P s → (m.Always P s ls ↔ m.Meets ok s ls) := by
  induction ls with
  | nil =>
    intro s hs
    exact ⟨fun _ => trivial, fun _ => hs⟩
  | cons l ls ih =>
    intro s hs
    obtain ⟨s', hnext, hkeep⟩ := hstep s l hs
    rw [m.meets_cons_of_next hnext]
    constructor
    · intro h
      have hrest : m.Always P s' ls := h.2 s' hnext
      have hs' : P s' := hrest.head
      exact ⟨hkeep.1 hs', (ih hs').1 hrest⟩
    · intro h
      have hs' : P s' := hkeep.2 h.1
      refine ⟨hs, fun s'' hnext' => ?_⟩
      rw [hnext] at hnext'
      cases hnext'
      exact (ih hs').2 h.2

end Machine

end Framework
