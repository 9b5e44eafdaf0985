import Mathlib.Algebra.Group.Nat.Defs
import Mathlib.Data.List.Induction
import Linglong.Framework.Checks

/-! # Versions and Architectures

    `linglong::package::Version` is a three- or four-part version number;
    the fourth part, the tweak, is optional. `Architecture` is the closed
    list of CPU architectures the package manager knows.

    Texts are matched on their characters. The regular expressions of the
    source are used without `DollarEndOnly`, so `$` also matches before one
    final newline.
-/

namespace Linglong

open Framework

/-! ## Section 1: Version -/

/-- `package::Version`. The parts are non-negative `qlonglong`s. -/
structure Version where
  major : Nat
  minor : Nat
  patch : Nat
  tweak : Option Nat
  deriving DecidableEq, Repr

namespace Version

/-- `std::numeric_limits<qlonglong>::max()`. -/
def maxLongLong : Nat := 2 ^ 63 - 1

/-- The numeral class `0|[1-9]\d*`. -/
def isNumeral : List Char → Bool
  | [] => false
  | ['0'] => true
  | c :: cs => '1' ≤ c && c ≤ '9' && cs.all Char.isDigit

/-- The value of a string of digits. -/
def numeralValue (cs : List Char) : Nat :=
  cs.foldl (fun n c => 10 * n + (c.toNat - '0'.toNat)) 0

/-- `toLongLong(&ok)` on a numeral: fails when it does not fit. -/
def toLongLong (cs : List Char) (tooLarge : String) : Except String Nat :=
  if numeralValue cs ≤ maxLongLong then .ok (numeralValue cs) else .error tooLarge

/-- Drop one final newline, which `$` may leave unmatched. -/
def dropFinalNewline (cs : List Char) : List Char :=
  if cs.getLast? = some '\n' then cs.dropLast else cs

/-- The match of the version expression: the captured parts. -/
def captures (raw : String) : Option (List (List Char)) :=
  let parts := (dropFinalNewline raw.toList).splitOn '.'
  if (parts.length = 3 ∨ parts.length = 4) ∧ parts.all isNumeral then some parts else none

/-- `Version::parse`. -/
def parse (raw : String) : Except String Version :=
  match captures raw with
  | some [major, minor, patch] => do
      let major ← toLongLong major "major too large"
      let minor ← toLongLong minor "minor too large"
      let patch ← toLongLong patch "patch too large"
      return ⟨major, minor, patch, none⟩
  | some [major, minor, patch, tweak] => do
      let major ← toLongLong major "major too large"
      let minor ← toLongLong minor "minor too large"
      let patch ← toLongLong patch "patch too large"
      let tweak ← toLongLong tweak "tweak too large"
      return ⟨major, minor, patch, some tweak⟩
  | _ => .error "version regex mismatched, please use four digits version like 1.0.0.0"

/-- `Version::toString`. -/
def toString (v : Version) : String :=
  v.major.repr ++ "." ++ v.minor.repr ++ "." ++ v.patch.repr ++
    match v.tweak with
    | some t => "." ++ t.repr
    | none => ""

/-- `Version::operator==`: presence of the tweak and all four numbers. -/
def eq (a b : Version) : Bool :=
  if a.tweak.isSome ≠ b.tweak.isSome then false
  else
    a.major = b.major ∧ a.minor = b.minor ∧ a.patch = b.patch ∧
      a.tweak.getD 0 = b.tweak.getD 0

/-- The tuple that the order operators compare. -/
def asNumbers (v : Version) : List Nat := [v.major, v.minor, v.patch, v.tweak.getD 0]

/-- `Version::operator<` and `operator>`. -/
def lt (a b : Version) : Bool := decide (a.asNumbers < b.asNumbers)

def gt (a b : Version) : Bool := decide (b.asNumbers < a.asNumbers)

/-- `Version::operator<=` and `operator>=`. -/
def le (a b : Version) : Bool := a.eq b || a.lt b

def ge (a b : Version) : Bool := a.eq b || a.gt b

/-- `operator==` is equality of the four fields. -/
theorem eq_iff (a b : Version) : a.eq b = true ↔ a = b := by
  obtain ⟨a1, a2, a3, at4⟩ := a
  obtain ⟨b1, b2, b3, bt4⟩ := b
  cases at4 <;> cases bt4 <;> simp [eq]

/-! ### Printing what was read -/

theorem numeralValue_concat (cs : List Char) (d : Char) :
    numeralValue (cs ++ [d]) = 10 * numeralValue cs + (d.toNat - '0'.toNat) := by
  simp [numeralValue]

/-- The digit of the value of a digit. -/
theorem digitChar_of_isDigit {d : Char} (h : d.isDigit = true) :
    d.toNat - '0'.toNat < 10 ∧ (d.toNat - '0'.toNat).digitChar = d := by
  have hrange : 48 ≤ d.toNat ∧ d.toNat ≤ 57 := by
    simpa [Char.isDigit, UInt32.le_iff_toNat_le] using h
  have hbound : d.toNat - '0'.toNat < 10 := by
    show d.toNat - 48 < 10
    omega
  refine ⟨hbound, ?_⟩
  have hcases : ∀ k < 10, Nat.digitChar k = Char.ofNat (48 + k) := by decide
  rw [hcases _ hbound]
  show Char.ofNat (48 + (d.toNat - 48)) = d
  rw [show 48 + (d.toNat - 48) = d.toNat by omega, Char.ofNat_toNat]

/-- A numeral is how its value is written. -/
theorem toDigits_numeralValue {cs : List Char} (h : isNumeral cs = true) :
    Nat.toDigits 10 (numeralValue cs) = cs := by
  -- a first digit that is not zero, then any digits: by induction on these from the end
  have hpos : ∀ (c : Char) (l : List Char), '1' ≤ c → c ≤ '9' → l.all Char.isDigit = true →
      0 < numeralValue (c :: l) ∧ Nat.toDigits 10 (numeralValue (c :: l)) = c :: l := by
    intro c l hone hnine
    have hc : 49 ≤ c.toNat ∧ c.toNat ≤ 57 := ⟨hone, hnine⟩
    induction l using List.reverseRecOn with
    | nil =>
      intro _
      have hlow : 48 ≤ c.toNat := by omega
      have hdigit : c.isDigit = true := by
        simpa [Char.isDigit, UInt32.le_iff_toNat_le] using ⟨hlow, hc.2⟩
      obtain ⟨hbound, hchar⟩ := digitChar_of_isDigit hdigit
      have hvalue : numeralValue [c] = c.toNat - '0'.toNat := by simp [numeralValue]
      rw [hvalue, Nat.toDigits_of_lt_base hbound, hchar]
      refine ⟨?_, rfl⟩
      show 0 < c.toNat - 48
      omega
    | append_singleton l d ih =>
      intro hall
      rw [List.all_append, Bool.and_eq_true] at hall
      obtain ⟨hlpos, hl⟩ := ih hall.1
      have hd : d.isDigit = true := by simpa using hall.2
      obtain ⟨hbound, hchar⟩ := digitChar_of_isDigit hd
      rw [← List.cons_append, numeralValue_concat,
        ← Nat.toDigits_append_toDigits (by decide) hlpos hbound, hl,
        Nat.toDigits_of_lt_base hbound, hchar]
      exact ⟨by omega, rfl⟩
  unfold isNumeral at h
  split at h
  · cases h
  · decide
  · next c l _ =>
    simp only [Bool.and_eq_true, decide_eq_true_eq] at h
    exact (hpos c l h.1.1 h.1.2 h.2).2

/-- A number that fits is read as its numeral says. -/
theorem toDigits_of_toLongLong {cs : List Char} {tooLarge : String} {n : Nat}
    (hnumeral : isNumeral cs = true) (h : toLongLong cs tooLarge = .ok n) :
    n.repr.toList = cs := by
  unfold toLongLong at h
  split at h
  · cases h
    rw [Nat.toList_repr, toDigits_numeralValue hnumeral]
  · cases h

/-- The captured parts are numerals, and the text is made of them. -/
theorem captures_spec {raw : String} {parts : List (List Char)} (h : captures raw = some parts) :
    ['.'].intercalate parts = dropFinalNewline raw.toList ∧
      ∀ part ∈ parts, isNumeral part = true := by
  unfold captures at h
  simp only at h
  split at h
  · next hparts =>
    cases h
    exact ⟨List.intercalate_splitOn '.', List.all_eq_true.1 hparts.2⟩
  · cases h

/-- Printing a version gives back the text it was read from, without a final
    newline. -/
theorem toList_toString_of_parse {raw : String} {v : Version} (h : parse raw = .ok v) :
    v.toString.toList = dropFinalNewline raw.toList := by
  unfold parse at h
  split at h
  · next cs₁ cs₂ cs₃ hcaptures =>
    obtain ⟨htext, hnumeral⟩ := captures_spec hcaptures
    simp only [bind_eq_ok_iff] at h
    obtain ⟨major, h₁, minor, h₂, patch, h₃, h⟩ := h
    cases h
    have hmajor := toDigits_of_toLongLong (hnumeral cs₁ (by simp)) h₁
    have hminor := toDigits_of_toLongLong (hnumeral cs₂ (by simp)) h₂
    have hpatch := toDigits_of_toLongLong (hnumeral cs₃ (by simp)) h₃
    rw [← htext]
    simp [toString, hmajor, hminor, hpatch, List.intercalate, List.intersperse]
  · next cs₁ cs₂ cs₃ cs₄ hcaptures =>
    obtain ⟨htext, hnumeral⟩ := captures_spec hcaptures
    simp only [bind_eq_ok_iff] at h
    obtain ⟨major, h₁, minor, h₂, patch, h₃, tweak, h₄, h⟩ := h
    cases h
    have hmajor := toDigits_of_toLongLong (hnumeral cs₁ (by simp)) h₁
    have hminor := toDigits_of_toLongLong (hnumeral cs₂ (by simp)) h₂
    have hpatch := toDigits_of_toLongLong (hnumeral cs₃ (by simp)) h₃
    have htweak := toDigits_of_toLongLong (hnumeral cs₄ (by simp)) h₄
    rw [← htext]
    simp [toString, hmajor, hminor, hpatch, htweak, List.intercalate, List.intersperse]
  · cases h

theorem toString_eq_iff {raw : String} {v : Version} (h : parse raw = .ok v) :
    v.toString = raw ↔ raw.toList.getLast? ≠ some '\n' := by
  have hprint := toList_toString_of_parse h
  unfold dropFinalNewline at hprint
  split at hprint
  · next hlast =>
    refine ⟨fun heq => ?_, fun hne => absurd hlast hne⟩
    rw [heq] at hprint
    have hlength := congrArg List.length hprint
    have hne : raw.toList ≠ [] := by
      intro hnil
      rw [hnil] at hlast
      cases hlast
    have hpos := List.length_pos_iff.2 hne
    rw [List.length_dropLast] at hlength
    omega
  · next hlast => exact ⟨fun _ => hlast, fun _ => String.toList_injective hprint⟩

/-- Versions that were read are told apart by their texts. -/
theorem eq_of_toString_eq {raw raw' : String} {v w : Version} (h : parse raw = .ok v)
    (h' : parse raw' = .ok w) (heq : v.toString = w.toString) : v = w := by
  have htext : dropFinalNewline raw.toList = dropFinalNewline raw'.toList := by
    rw [← toList_toString_of_parse h, ← toList_toString_of_parse h', heq]
  have hcaptures : captures raw = captures raw' := by
    unfold captures
    rw [htext]
  have hsame : parse raw = parse raw' := by
    unfold parse
    rw [hcaptures]
  rw [hsame, h'] at h
  exact (Except.ok.inj h).symm

/-- A printed version has digits and dots. -/
theorem isDigit_or_dot {v : Version} {c : Char} (h : c ∈ v.toString.toList) :
    c.isDigit = true ∨ c = '.' := by
  have hrepr : ∀ n : Nat, c ∈ n.repr.toList → c.isDigit = true := by
    intro n hn
    rw [Nat.toList_repr] at hn
    exact Nat.isDigit_of_mem_toDigits (by decide) (by decide) hn
  have hdot : c ∈ ".".toList → c = '.' := fun hc => by simpa using hc
  have htweak : c ∈ (match v.tweak with | some t => "." ++ t.repr | none => "").toList →
      c.isDigit = true ∨ c = '.' := by
    cases v.tweak with
    | none => exact fun hc => by simp at hc
    | some t =>
      intro hc
      rcases List.mem_append.1 (String.toList_append ▸ hc) with hc | hc
      · exact .inr (hdot hc)
      · exact .inl (hrepr t hc)
  unfold toString at h
  simp only [String.toList_append, List.mem_append] at h
  rcases h with ((((h | h) | h) | h) | h) | h
  · exact .inl (hrepr _ h)
  · exact .inr (hdot h)
  · exact .inl (hrepr _ h)
  · exact .inr (hdot h)
  · exact .inl (hrepr _ h)
  · exact htweak h

theorem toString_ne_empty (v : Version) : v.toString.toList ≠ [] := by
  unfold toString
  simp

/-- There is no newline at its end. -/
theorem getLast_toString (v : Version) : v.toString.toList.getLast? ≠ some '\n' := by
  intro h
  rcases isDigit_or_dot (List.mem_of_getLast? h) with hdigit | hdot
  · exact absurd hdigit (by decide)
  · exact absurd hdot (by decide)

example : parse "1.2.3.4" = .ok ⟨1, 2, 3, some 4⟩ := by decide
example : (parse "01.2.3").toOption = none := by decide

end Version

/-! ## Section 2: Architecture -/

/-- `package::Architecture`. -/
inductive Architecture where
  | unknow | x86_64 | arm64 | loongarch64 | loong64
  deriving DecidableEq, Repr

namespace Architecture

/-- `Architecture::toString`. -/
def toString : Architecture → String
  | .x86_64 => "x86_64"
  | .arm64 => "arm64"
  | .loongarch64 => "loongarch64"
  | .loong64 => "loong64"
  | .unknow => "unknow"

/-- `Architecture::parse`. -/
def parse (raw : String) : Except String Architecture :=
  if raw = "x86_64" then .ok .x86_64
  else if raw = "arm64" then .ok .arm64
  else if raw = "loongarch64" then .ok .loongarch64
  else if raw = "loong64" then .ok .loong64
  else .error "unknow architecture"

theorem toString_of_parse {raw : String} {arch : Architecture} (h : parse raw = .ok arch) :
    arch.toString = raw := by
  unfold parse at h
  split_ifs at h <;> cases h <;> exact Eq.symm ‹_›

end Architecture

end Linglong
