import Mathlib.Data.List.Lex
import Mathlib.Order.Lattice
import Linglong.Package.Version

/-! # The Order of Versions

    The comparison operators of `package::Version` are written one by one.
    `operator<` and `operator>` count a missing tweak as 0; `operator==`
    first asks whether both versions have one. So `1.0.0` and `1.0.0.0` are
    neither equal nor ordered. Such twins are the only exception: on all
    other pairs the operators agree with one total order.

    1. Twins, and the range test.
    2. The laws (`ordered_twins`).
-/

namespace Linglong

/-! ## Section 1: Twins -/

namespace Version

/-- The same numbers, but only one of the versions has a tweak. -/
def Twins (a b : Version) : Prop := a.asNumbers = b.asNumbers ∧ a.tweak.isSome ≠ b.tweak.isSome

instance (a b : Version) : Decidable (Twins a b) :=
  inferInstanceAs (Decidable (_ ∧ _))

end Version

/-- `package::VersionRange`. -/
structure VersionRange where
  begin : Version
  «end» : Version

/-- `VersionRange::contains`. -/
def VersionRange.contains (r : VersionRange) (ver : Version) : Bool :=
  r.begin.le ver && ver.lt r.end

namespace Version

/-! ## Section 2: Laws -/

/-- The laws of a total order that agrees with equality, and of a half-open
    range, for all versions but those `apart`, which no operator relates. -/
structure Ordered (apart : Version → Version → Prop) : Prop where
  trichotomy : ∀ a b, ¬ apart a b →
    (a.lt b = true ∧ a.eq b = false ∧ a.gt b = false) ∨
      (a.lt b = false ∧ a.eq b = true ∧ a.gt b = false) ∨
      (a.lt b = false ∧ a.eq b = false ∧ a.gt b = true)
  total : ∀ a b, ¬ apart a b → a.le b = true ∨ b.le a = true
  lt_trans : ∀ a b c : Version, a.lt b = true → b.lt c = true → a.lt c = true
  le_trans : ∀ a b c : Version, a.le b = true → b.le c = true → a.le c = true
  le_iff : ∀ a b, ¬ apart a b → (a.le b = true ↔ ¬ a.gt b = true)
  contains_iff : ∀ (r : VersionRange) (v : Version), ¬ apart r.begin v →
    (r.contains v = true ↔ ¬ r.begin.gt v = true ∧ v.lt r.end = true)
  unrelated : ∀ a b, apart a b → a.lt b = false ∧ a.eq b = false ∧ a.gt b = false ∧
    a.le b = false ∧ a.ge b = false ∧ ∀ «end», VersionRange.contains ⟨a, «end»⟩ b = false

theorem lt_iff {a b : Version} : a.lt b = true ↔ a.asNumbers < b.asNumbers := decide_eq_true_iff

theorem gt_iff {a b : Version} : a.gt b = true ↔ b.asNumbers < a.asNumbers := decide_eq_true_iff

theorem le_iff_eq_or_lt {a b : Version} : a.le b = true ↔ a = b ∨ a.asNumbers < b.asNumbers := by
  unfold le
  rw [Bool.or_eq_true, eq_iff, lt_iff]

/-- `operator>=` is `operator<=` the other way round. -/
theorem ge_eq_le (a b : Version) : a.ge b = b.le a := by
  rw [Bool.eq_iff_iff, le_iff_eq_or_lt, ge, Bool.or_eq_true, eq_iff, gt_iff, eq_comm]

/-- Versions with the same numbers are equal or twins. -/
theorem eq_or_twins {a b : Version} (h : a.asNumbers = b.asNumbers) : a = b ∨ Twins a b := by
  by_cases htweak : a.tweak.isSome = b.tweak.isSome
  · left
    obtain ⟨a1, a2, a3, at4⟩ := a
    obtain ⟨b1, b2, b3, bt4⟩ := b
    simp only [asNumbers, List.cons.injEq, and_true] at h
    cases at4 <;> cases bt4 <;> simp_all
  · exact .inr ⟨h, htweak⟩

theorem le_iff_not_gt {a b : Version} (hapart : ¬ Twins a b) :
    a.le b = true ↔ ¬ a.gt b = true := by
  rw [le_iff_eq_or_lt, gt_iff, not_lt]
  constructor
  · rintro (rfl | hlt)
    · exact le_refl _
    · exact hlt.le
  · intro hle
    rcases hle.lt_or_eq with hlt | heq
    · exact .inr hlt
    · exact .inl ((eq_or_twins heq).resolve_right hapart)

/-- Twins have the same numbers, so no order operator holds, and they are
    not equal either. -/
theorem Twins.unrelated {a b : Version} (h : Twins a b) :
    ¬ a.lt b = true ∧ ¬ a.eq b = true ∧ ¬ a.gt b = true ∧ ¬ a.le b = true ∧ ¬ a.ge b = true := by
  have hne : a ≠ b := by
    rintro rfl
    exact h.2 rfl
  have hlt : ¬ a.asNumbers < b.asNumbers := by
    rw [h.1]
    exact lt_irrefl _
  have hgt : ¬ b.asNumbers < a.asNumbers := by
    rw [h.1]
    exact lt_irrefl _
  rw [ge_eq_le, le_iff_eq_or_lt, le_iff_eq_or_lt, lt_iff, gt_iff, eq_iff]
  exact ⟨hlt, hne, hgt, fun hle => hle.elim hne hlt, fun hge => hge.elim hne.symm hgt⟩

/-- **The order of versions** is total up to twins. -/
theorem ordered_twins : Ordered Twins where
  trichotomy := by
    intro a b hapart
    -- compare the numbers; versions that are no twins have equal numbers only if they are equal
    simp only [← Bool.not_eq_true, lt_iff, gt_iff, eq_iff]
    rcases lt_trichotomy a.asNumbers b.asNumbers with hlt | heq | hgt
    · exact .inl ⟨hlt, fun h => hlt.ne (h ▸ rfl), hlt.asymm⟩
    · have hab : a = b := (eq_or_twins heq).resolve_right hapart
      rw [hab]
      exact .inr (.inl ⟨lt_irrefl _, rfl, lt_irrefl _⟩)
    · exact .inr (.inr ⟨hgt.asymm, fun h => hgt.ne (h ▸ rfl), hgt⟩)
  total := by
    intro a b hapart
    rw [le_iff_eq_or_lt, le_iff_eq_or_lt]
    rcases lt_trichotomy a.asNumbers b.asNumbers with hlt | heq | hgt
    · exact .inl (.inr hlt)
    · exact .inl (.inl ((eq_or_twins heq).resolve_right hapart))
    · exact .inr (.inr hgt)
  lt_trans := by
    intro a b c
    simp only [lt_iff]
    exact fun hab hbc => hab.trans hbc
  le_trans := by
    intro a b c
    simp only [le_iff_eq_or_lt]
    -- either step may be an equality
    rintro (rfl | hab) (rfl | hbc)
    · exact .inl rfl
    · exact .inr hbc
    · exact .inr hab
    · exact .inr (hab.trans hbc)
  le_iff := fun _ _ hapart => le_iff_not_gt hapart
  contains_iff := by
    intro r v hapart
    rw [VersionRange.contains, Bool.and_eq_true, le_iff_not_gt hapart]
  unrelated := by
    intro a b hapart
    obtain ⟨hlt, heq, hgt, hle, hge⟩ := hapart.unrelated
    simp only [Bool.not_eq_true] at hlt heq hgt hle hge
    refine ⟨hlt, heq, hgt, hle, hge, fun _ => ?_⟩
    rw [VersionRange.contains, hle, Bool.false_and]

/-- With a tweak of 0 on one side only, none of the three relations holds. -/
theorem not_ordered : ¬ Ordered fun _ _ => False := by
  intro h
  exact absurd (h.trichotomy ⟨1, 0, 0, none⟩ ⟨1, 0, 0, some 0⟩ id) (by decide)

end Version

end Linglong
