import Linglong.Framework.WidestPrefix

/-! # Truncating a Column

    `subwstr` shortens a description or a name to the width of its column. It
    halves the string until what is left fits, and looks in the second half
    for what fits beside the first one.

    A character of odd position at the end is dropped with every halving. It
    would not have fitted: the whole string does not. But the half of a size
    is an `int`. From 2^32 characters on it may be negative, and the half is
    then the string itself.

    1. `subwstr`.
    2. One call of it, by the half.
    3. Strings of fewer than 2^32 characters (`widest_of_short`).
    4. When it truncates (`truncates_iff`).
-/

namespace Linglong

open Framework

universe u

variable {α : Type u}

/-! ## Section 1: subwstr -/

/-- A `size_t` that becomes an `int`. -/
def intOfSize (n : Nat) : Int :=
  if n % 4294967296 < 2147483648 then (n % 4294967296 : Nat)
  else (n % 4294967296 : Nat) - 4294967296

/-- `wstr.substr(pos, count)` with an `int` for both: a negative one becomes a
    `size_t` beyond every size, where no string begins and every one ends. -/
def wsubstr (wstr : List α) (pos count : Int) : Option (List α) :=
  if pos < 0 ∨ wstr.length < pos then none
  else if count < 0 then some (wstr.drop pos.toNat)
  else some ((wstr.drop pos.toNat).take count.toNat)

/-- `subwstr`, with a bound on how deep the calls go: none if it has thrown or
    has not yet returned. `wcswidth` is the sum of the widths. -/
def subwstr (wcwidth : α → Nat) : Nat → List α → Int → Option (List α)
  | 0, _, _ => none
  | depth + 1, wstr, width =>
      if weigh wcwidth wstr ≤ width then some wstr
      else do
        let halfsize := intOfSize (wstr.length / 2)
        let halfwstr ← wsubstr wstr 0 halfsize
        let halfwidth : Int := weigh wcwidth halfwstr
        if width ≤ halfwidth then subwstr wcwidth depth halfwstr width
        else do
          let rest ← wsubstr wstr halfsize halfsize
          let sub ← subwstr wcwidth depth rest (width - halfwidth)
          pure (halfwstr ++ sub)

variable (wcwidth : α → Nat)

/-- It terminates and returns a prefix that fits, such that no longer prefix
    that is wider fits. -/
def Truncates (s : List α) (w : Nat) : Prop :=
  ∃ depth r, subwstr wcwidth depth s w = some r ∧ r <+: s ∧ weigh wcwidth r ≤ w ∧
    ∀ q, q <+: s → r.length < q.length → weigh wcwidth r < weigh wcwidth q →
      w < weigh wcwidth q

/-- The half of the size. -/
def halfsize (s : List α) : Int := intOfSize (s.length / 2)

/-- The first half. -/
def firstHalf (s : List α) : List α := s.take (halfsize s).toNat

/-- The second half, without the last character of an odd size. -/
def secondHalf (s : List α) : List α := (s.drop (halfsize s).toNat).take (halfsize s).toNat

/-- Nothing is cut off, or half the size is an `int` that is not negative and
    no prefix of more than twice as many characters is wider and fits. -/
def TruncatesWhen (s : List α) (w : Nat) : Prop :=
  weigh wcwidth s ≤ w ∨ 0 ≤ halfsize s ∧ ∀ q, q <+: s → weigh wcwidth q ≤ w →
    weigh wcwidth q ≤ weigh wcwidth (s.take (2 * (halfsize s).toNat))

/-! ## Section 2: One call -/

theorem halfsize_le (s : List α) : 2 * (halfsize s).toNat ≤ s.length := by
  unfold halfsize intOfSize
  split <;> omega

theorem halfsize_of_short {s : List α} (h : s.length < 4294967296) :
    halfsize s = (s.length / 2 : Nat) := by
  unfold halfsize intOfSize
  split <;> omega

theorem halfsize_lt (s : List α) : (halfsize s).toNat < 2147483648 := by
  unfold halfsize intOfSize
  split <;> omega

theorem length_firstHalf (s : List α) : (firstHalf s).length = (halfsize s).toNat := by
  have := halfsize_le s
  rw [firstHalf, List.length_take]
  omega

theorem length_secondHalf (s : List α) : (secondHalf s).length = (halfsize s).toNat := by
  have := halfsize_le s
  rw [secondHalf, List.length_take, List.length_drop]
  omega

theorem halves_eq (s : List α) :
    firstHalf s ++ secondHalf s = s.take (2 * (halfsize s).toNat) := by
  rw [firstHalf, secondHalf, ← List.take_add, Nat.two_mul]

theorem halves_begin (s : List α) : firstHalf s ++ secondHalf s <+: s := by
  rw [halves_eq]
  exact List.take_prefix _ _

variable {wcwidth} {s : List α} {w : Nat}

theorem subwstr_of_fits (h : weigh wcwidth s ≤ w) (depth : Nat) :
    subwstr wcwidth (depth + 1) s w = some s := by
  rw [subwstr, if_pos (by exact_mod_cast h)]

theorem wsubstr_firstHalf (h : 0 ≤ halfsize s) : wsubstr s 0 (halfsize s) = some (firstHalf s) := by
  rw [wsubstr, if_neg (by omega), if_neg (by omega)]
  rfl

theorem wsubstr_secondHalf (h : 0 ≤ halfsize s) :
    wsubstr s (halfsize s) (halfsize s) = some (secondHalf s) := by
  have := halfsize_le s
  rw [wsubstr, if_neg (by omega), if_neg (by omega)]
  rfl

/-- The first half is already too wide. -/
theorem subwstr_of_wide_half (hwide : w < weigh wcwidth s) (h : 0 ≤ halfsize s)
    (hhalf : w ≤ weigh wcwidth (firstHalf s)) (depth : Nat) :
    subwstr wcwidth (depth + 1) s w = subwstr wcwidth depth (firstHalf s) w := by
  rw [subwstr, if_neg (by omega)]
  show (wsubstr s 0 (halfsize s) >>= _) = _
  rw [wsubstr_firstHalf h, Option.bind_eq_bind, Option.bind_some, if_pos (by omega)]

/-- The first half fits. -/
theorem subwstr_of_narrow_half (hwide : w < weigh wcwidth s) (h : 0 ≤ halfsize s)
    (hhalf : weigh wcwidth (firstHalf s) < w) (depth : Nat) :
    subwstr wcwidth (depth + 1) s w =
      (subwstr wcwidth depth (secondHalf s) (w - weigh wcwidth (firstHalf s) : Nat)).map
        (firstHalf s ++ ·) := by
  have hrest : (w : Int) - weigh wcwidth (firstHalf s) =
      ((w - weigh wcwidth (firstHalf s) : Nat) : Int) := by omega
  rw [subwstr, if_neg (by omega)]
  show (wsubstr s 0 (halfsize s) >>= _) = _
  rw [wsubstr_firstHalf h, Option.bind_eq_bind, Option.bind_some, if_neg (by omega)]
  show (wsubstr s (halfsize s) (halfsize s) >>= _) = _
  rw [wsubstr_secondHalf h, Option.bind_eq_bind, Option.bind_some, hrest]
  cases subwstr wcwidth depth (secondHalf s) (w - weigh wcwidth (firstHalf s) : Nat) <;> rfl

/-- The half of a size that is too large is the string itself. -/
theorem subwstr_of_negative (hwide : w < weigh wcwidth s) (h : halfsize s < 0) (depth : Nat) :
    subwstr wcwidth depth s w = none := by
  induction depth with
  | zero => rfl
  | succ depth ih =>
    have hself : wsubstr s 0 (halfsize s) = some s := by
      rw [wsubstr, if_neg (by omega), if_pos h]
      rfl
    rw [subwstr, if_neg (by omega)]
    show (wsubstr s 0 (halfsize s) >>= _) = _
    rw [hself, Option.bind_eq_bind, Option.bind_some, if_pos (by omega)]
    exact ih

/-- One call: what is cut off the halves is cut off both of them together. -/
theorem widest_halves (hwide : w < weigh wcwidth s) (h : 0 ≤ halfsize s)
    (hfirst : ∀ w : Nat, ∃ depth r, subwstr wcwidth depth (firstHalf s) w = some r ∧
      Widest wcwidth w (firstHalf s) r)
    (hsecond : ∀ w : Nat, ∃ depth r, subwstr wcwidth depth (secondHalf s) w = some r ∧
      Widest wcwidth w (secondHalf s) r) :
    ∃ depth r, subwstr wcwidth depth s w = some r ∧
      Widest wcwidth w (firstHalf s ++ secondHalf s) r := by
  by_cases hhalf : w ≤ weigh wcwidth (firstHalf s)
  · obtain ⟨depth, r, hrun, hr⟩ := hfirst w
    refine ⟨depth + 1, r, ?_, hr.of_beginning (List.prefix_append _ _) ?_⟩
    · rw [subwstr_of_wide_half hwide h hhalf, hrun]
    · exact fun q _ hfits => Nat.le_trans hfits hhalf
  · rw [Nat.not_le] at hhalf
    obtain ⟨depth, r, hrun, hr⟩ := hsecond (w - weigh wcwidth (firstHalf s))
    refine ⟨depth + 1, firstHalf s ++ r, ?_, hr.append (Nat.le_of_lt hhalf)⟩
    rw [subwstr_of_narrow_half hwide h hhalf, hrun]
    rfl

/-! ## Section 3: Short strings -/

/-- The character that the halves leave out would not fit. -/
theorem weigh_le_halves_of_short (hshort : s.length < 4294967296) (hwide : w < weigh wcwidth s)
    {q : List α} (hq : q <+: s) (hfits : weigh wcwidth q ≤ w) :
    weigh wcwidth q ≤ weigh wcwidth (firstHalf s ++ secondHalf s) := by
  have hne : q.length ≠ s.length := by
    intro hlen
    rw [hq.eq_of_length hlen] at hfits
    omega
  have hle := hq.length_le
  have hhalf := halfsize_of_short hshort
  refine weigh_le_of_begins (List.prefix_of_prefix_length_le hq (halves_begin s) ?_)
  rw [List.length_append, length_firstHalf, length_secondHalf]
  omega

/-- **Truncation**: a short string is cut off after its widest prefix that
    fits. The induction is on its length. -/
theorem widest_of_short (hshort : s.length < 4294967296) (w : Nat) :
    ∃ depth r, subwstr wcwidth depth s w = some r ∧ Widest wcwidth w s r := by
  induction hn : s.length using Nat.strongRecOn generalizing s w with
  | ind n ih =>
    by_cases hfits : weigh wcwidth s ≤ w
    · exact ⟨1, s, subwstr_of_fits hfits 0, widest_self hfits⟩
    · rw [Nat.not_le] at hfits
      have hpos : 0 < s.length := by
        rw [List.length_pos_iff]
        rintro rfl
        rw [weigh_nil] at hfits
        omega
      have hhalf := halfsize_of_short hshort
      have hless : (halfsize s).toNat < n := by omega
      have hfirst := fun w => ih _ hless (s := firstHalf s) (by rw [length_firstHalf]; omega) w
        (length_firstHalf s)
      have hsecond := fun w => ih _ hless (s := secondHalf s) (by rw [length_secondHalf]; omega) w
        (length_secondHalf s)
      obtain ⟨depth, r, hrun, hr⟩ := widest_halves hfits (by omega) hfirst hsecond
      exact ⟨depth, r, hrun, hr.of_beginning (halves_begin s) fun q hq hqfits =>
        weigh_le_halves_of_short hshort hfits hq hqfits⟩

/-! ## Section 4: When it truncates -/

theorem truncates_iff_widest : Truncates wcwidth s w ↔
    ∃ depth r, subwstr wcwidth depth s w = some r ∧ Widest wcwidth w s r := by
  unfold Truncates
  simp only [widest_iff]

/-- What is returned, if the calls of a call return prefixes. -/
theorem begins_halves {depth : Nat} {r : List α} (hwide : w < weigh wcwidth s)
    (h : 0 ≤ halfsize s)
    (hsub : ∀ {s : List α} {w : Nat} {r : List α}, subwstr wcwidth depth s w = some r → r <+: s)
    (hrun : subwstr wcwidth (depth + 1) s w = some r) : r <+: firstHalf s ++ secondHalf s := by
  by_cases hhalf : w ≤ weigh wcwidth (firstHalf s)
  · rw [subwstr_of_wide_half hwide h hhalf] at hrun
    exact (hsub hrun).trans (List.prefix_append _ _)
  · rw [subwstr_of_narrow_half hwide h (Nat.not_le.1 hhalf)] at hrun
    obtain ⟨sub, hsubrun, rfl⟩ := Option.map_eq_some_iff.1 hrun
    exact (List.prefix_append_right_inj _).2 (hsub hsubrun)

/-- Whatever is returned is a prefix. -/
theorem begins_of_subwstr {depth : Nat} {r : List α} (h : subwstr wcwidth depth s w = some r) :
    r <+: s := by
  induction depth generalizing s w r with
  | zero => cases h
  | succ depth ih =>
    by_cases hfits : weigh wcwidth s ≤ w
    · rw [subwstr_of_fits hfits] at h
      exact Option.some.inj h ▸ List.prefix_rfl
    · rw [Nat.not_le] at hfits
      by_cases hneg : halfsize s < 0
      · rw [subwstr_of_negative hfits hneg] at h
        cases h
      · exact (begins_halves hfits (Int.not_lt.1 hneg) ih h).trans (halves_begin s)

/-- What is cut off is not beyond the two halves. -/
theorem truncatesWhen_of_widest {depth : Nat} {r : List α}
    (hrun : subwstr wcwidth depth s w = some r) (hr : Widest wcwidth w s r) :
    TruncatesWhen wcwidth s w := by
  by_cases hfits : weigh wcwidth s ≤ w
  · exact .inl hfits
  · rw [Nat.not_le] at hfits
    have hneg : ¬ halfsize s < 0 := by
      intro hneg
      rw [subwstr_of_negative hfits hneg] at hrun
      cases hrun
    rw [Int.not_lt] at hneg
    refine .inr ⟨hneg, fun q hq hqfits => ?_⟩
    cases depth with
    | zero => cases hrun
    | succ depth =>
      have hbegins := begins_halves hfits hneg begins_of_subwstr hrun
      rw [halves_eq] at hbegins
      exact Nat.le_trans (hr.most q hq hqfits) (weigh_le_of_begins hbegins)

theorem widest_of_truncatesWhen (h : TruncatesWhen wcwidth s w) :
    ∃ depth r, subwstr wcwidth depth s w = some r ∧ Widest wcwidth w s r := by
  by_cases hfits : weigh wcwidth s ≤ w
  · exact ⟨1, s, subwstr_of_fits hfits 0, widest_self hfits⟩
  · obtain ⟨hneg, hbeyond⟩ := h.resolve_left hfits
    rw [← halves_eq] at hbeyond
    -- both halves are short
    have hlt := halfsize_lt s
    have hfirst : ∀ w : Nat, ∃ depth r, subwstr wcwidth depth (firstHalf s) w = some r ∧
        Widest wcwidth w (firstHalf s) r := widest_of_short (by rw [length_firstHalf]; omega)
    have hsecond : ∀ w : Nat, ∃ depth r, subwstr wcwidth depth (secondHalf s) w = some r ∧
        Widest wcwidth w (secondHalf s) r := widest_of_short (by rw [length_secondHalf]; omega)
    obtain ⟨depth, r, hrun, hr⟩ := widest_halves (Nat.not_le.1 hfits) hneg hfirst hsecond
    exact ⟨depth, r, hrun, hr.of_beginning (halves_begin s) hbeyond⟩

/-- Every string of fewer than 2^32 characters is truncated. -/
theorem truncates_of_short (h : s.length < 4294967296) (w : Nat) : Truncates wcwidth s w :=
  truncates_iff_widest.2 (widest_of_short h w)

/-- **Exactness**: when `subwstr` terminates with the widest prefix that
    fits. -/
theorem truncates_iff (wcwidth : α → Nat) (s : List α) (w : Nat) :
    Truncates wcwidth s w ↔ TruncatesWhen wcwidth s w := by
  rw [truncates_iff_widest]
  refine ⟨?_, widest_of_truncatesWhen⟩
  rintro ⟨depth, r, hrun, hr⟩
  exact truncatesWhen_of_widest hrun hr

/-- A width: that of an accent is zero. -/
def accentWidth (c : Char) : Nat := if c = '\u0301' then 0 else 1

example : subwstr accentWidth 5 ['e', '\u0301', 't', 'e', '\u0301'] 2 =
    some ['e', '\u0301', 't'] := by decide

/-- 2^32 accents before a word of 57 letters: the half of the size is
    negative. -/
theorem not_truncates_accents :
    ¬ Truncates accentWidth (List.replicate 4294967296 '\u0301' ++ List.replicate 57 'a') 53 := by
  rintro ⟨depth, r, hrun, -⟩
  have hwidth : weigh accentWidth
      (List.replicate 4294967296 '\u0301' ++ List.replicate 57 'a') = 57 := by
    rw [weigh_append, weigh_replicate, weigh_replicate]
    rfl
  have hsize : halfsize (List.replicate 4294967296 '\u0301' ++ List.replicate 57 'a') < 0 := by
    rw [halfsize, List.length_append, List.length_replicate, List.length_replicate]
    decide
  have hwide : 53 < weigh accentWidth
      (List.replicate 4294967296 '\u0301' ++ List.replicate 57 'a') := by
    rw [hwidth]
    decide
  rw [subwstr_of_negative hwide hsize] at hrun
  cases hrun

end Linglong
