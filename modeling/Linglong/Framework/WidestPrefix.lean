import Mathlib.Data.List.Basic
import Mathlib.Algebra.BigOperators.Group.List.Basic
import Mathlib.Algebra.GroupWithZero.Nat

/-! # Prefixes that fit

    Every element of a list has a weight. Among the prefixes whose weight
    does not exceed a bound there are widest ones.

    * `weigh`: the weight of a list.
    * `Widest`: no prefix that fits weighs more.
    * `Widest.of_beginning`, `Widest.append`: from a part of the list to all
      of it.
    * `widest_iff`: only longer prefixes can weigh more.
-/

namespace Framework

universe u

variable {α : Type u}

/-- The weight of a list. -/
def weigh (weight : α → Nat) (l : List α) : Nat := (l.map weight).sum

variable {weight : α → Nat} {bound : Nat} {l l' p : List α}

@[simp] theorem weigh_nil : weigh weight ([] : List α) = 0 := rfl

@[simp] theorem weigh_append (l l' : List α) :
    weigh weight (l ++ l') = weigh weight l + weigh weight l' := by
  simp [weigh]

theorem weigh_replicate (n : Nat) (a : α) : weigh weight (List.replicate n a) = n * weight a := by
  simp [weigh]

theorem weigh_le_of_begins (h : p <+: l) : weigh weight p ≤ weigh weight l := by
  obtain ⟨rest, rfl⟩ := h
  rw [weigh_append]
  exact Nat.le_add_right _ _

/-- A prefix that fits, such that no prefix that fits weighs more. -/
structure Widest (weight : α → Nat) (bound : Nat) (l p : List α) : Prop where
  begins : p <+: l
  fits : weigh weight p ≤ bound
  most : ∀ q, q <+: l → weigh weight q ≤ bound → weigh weight q ≤ weigh weight p

theorem widest_self (h : weigh weight l ≤ bound) : Widest weight bound l l :=
  ⟨List.prefix_rfl, h, fun _ hq _ => weigh_le_of_begins hq⟩

/-- What the beginning of a list has is enough, if no prefix that goes beyond
    it weighs more and fits. -/
theorem Widest.of_beginning (h : Widest weight bound l p) (hl : l <+: l')
    (hbeyond : ∀ q, q <+: l' → weigh weight q ≤ bound → weigh weight q ≤ weigh weight l) :
    Widest weight bound l' p := by
  refine ⟨h.begins.trans hl, h.fits, fun q hq hfits => ?_⟩
  rcases List.prefix_or_prefix_of_prefix hq hl with hq' | hl'
  · exact h.most q hq' hfits
  · -- all of the beginning fits
    have hle : weigh weight l ≤ weigh weight q := weigh_le_of_begins hl'
    have hall := h.most l List.prefix_rfl (Nat.le_trans hle hfits)
    exact Nat.le_trans (hbeyond q hq hfits) hall

/-- All of the beginning, and of the rest what fits beside it. -/
theorem Widest.append (hlt : weigh weight l ≤ bound)
    (h : Widest weight (bound - weigh weight l) l' p) : Widest weight bound (l ++ l') (l ++ p) := by
  refine ⟨(List.prefix_append_right_inj l).2 h.begins, ?_, fun q hq hfits => ?_⟩
  · have := h.fits
    rw [weigh_append]
    omega
  · rcases List.prefix_or_prefix_of_prefix hq (List.prefix_append l l') with hq' | ⟨rest, rfl⟩
    · exact weigh_le_of_begins (hq'.trans (List.prefix_append l p))
    · rw [weigh_append] at hfits
      have hrest : rest <+: l' := (List.prefix_append_right_inj l).1 hq
      have hmost := h.most rest hrest (by omega)
      rw [weigh_append, weigh_append]
      omega

/-- Only a longer prefix can weigh more. -/
theorem widest_iff :
    Widest weight bound l p ↔ p <+: l ∧ weigh weight p ≤ bound ∧
      ∀ q, q <+: l → p.length < q.length → weigh weight p < weigh weight q →
        bound < weigh weight q := by
  constructor
  · rintro ⟨hp, hfits, hmost⟩
    refine ⟨hp, hfits, fun q hq _ hlt => ?_⟩
    by_contra hle
    exact absurd (hmost q hq (Nat.not_lt.1 hle)) (Nat.not_le.2 hlt)
  · rintro ⟨hp, hfits, hlonger⟩
    refine ⟨hp, hfits, fun q hq hq' => ?_⟩
    by_contra hlt
    rw [Nat.not_le] at hlt
    rcases Nat.lt_or_ge p.length q.length with hlen | hlen
    · exact absurd (hlonger q hq hlen hlt) (Nat.not_lt.2 hq')
    · have hqp : q <+: p := List.prefix_of_prefix_length_le hq hp hlen
      exact absurd (weigh_le_of_begins hqp) (Nat.not_le.2 hlt)

end Framework
