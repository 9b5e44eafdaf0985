import Linglong.Framework.Separator

/-! # Texts of Qt

    What is used of `QString`. A text of the standard library is given by its
    characters too: all of them are valid UTF-8.

    1. From and to other texts.
    2. Searching and replacing.
    3. `QString::arg`.
    4. Markers in templates.
-/

namespace Linglong

open Framework

/-! ## Section 1: From and to other texts -/

/-- A `QString`. All texts that are searched for or replaced are ASCII. -/
abbrev QString := List Char

namespace QString

/-- U+FEFF. -/
def byteOrderMark : Char := '\uFEFF'

/-- `QString::fromUtf8` takes a byte order mark at the start for the mark of an
    encoding, and leaves it out. -/
def fromUtf8 (text : List Char) : QString :=
  if text.head? = some byteOrderMark then text.tail else text

/-- `QString::fromStdString`. -/
def fromStdString (text : List Char) : QString := fromUtf8 text

/-- A `QString` made of `c_str()`. -/
def fromCString (text : List Char) : QString := fromUtf8 (text.takeWhile (· ≠ '\x00'))

theorem fromUtf8_of_not_marked {text : List Char} (h : text.head? ≠ some byteOrderMark) :
    fromUtf8 text = text :=
  if_neg h

/-- Only such a mark gets lost. -/
theorem eq_cons_or_fromUtf8_eq (text : List Char) :
    text = byteOrderMark :: fromUtf8 text ∨ fromUtf8 text = text := by
  by_cases hmarked : text.head? = some byteOrderMark
  · left
    unfold fromUtf8
    rw [if_pos hmarked]
    exact List.eq_cons_of_mem_head? hmarked
  · exact .inr (fromUtf8_of_not_marked hmarked)

theorem fromUtf8_eq_iff {text : List Char} :
    fromUtf8 text = text ↔ text.head? ≠ some byteOrderMark := by
  constructor
  · intro h hmarked
    have htail : text.tail = text := by
      unfold fromUtf8 at h
      rwa [if_pos hmarked] at h
    cases text with
    | nil => cases hmarked
    | cons c cs => exact List.cons_ne_self c cs htail.symm
  · exact fromUtf8_of_not_marked

theorem fromUtf8_sublist (text : List Char) : (fromUtf8 text).Sublist text := by
  unfold fromUtf8
  split
  · exact List.tail_sublist text
  · exact List.Sublist.refl text

theorem fromCString_of_noNul {text : List Char} (h : '\x00' ∉ text) :
    fromCString text = fromUtf8 text := by
  unfold fromCString
  rw [takeWhile_of_not_mem h]

/-! ## Section 2: Searching and replacing -/

/-- `QString::replace`, for one character. -/
def replace (text : QString) (before : Char) (after : QString) : QString :=
  text.flatMap fun c => if c = before then after else [c]

/-- `QString::indexOf`; -1 if the character is not there. -/
def indexOf (text : QString) (c : Char) : Int :=
  if c ∈ text then (text.idxOf c : Int) else -1

/-- `QString::mid`. A negative length stands for all that follows. -/
def mid (text : QString) (position : Nat) (n : Int) : QString :=
  if n < 0 then text.drop position else (text.drop position).take n.toNat

/-- `QStringList::join`. -/
def join (texts : List QString) (separator : QString) : QString := separator.intercalate texts

/-! ## Section 3: `QString::arg` -/

/-- The digits of the markers. -/
def digitValue (c : Char) : Option Nat :=
  if c.isDigit then some (c.toNat - '0'.toNat) else none

/-- One or two digits: their number and how many they are. -/
def escapeNumber : QString → Option (Nat × Nat)
  | [] => none
  | c :: cs =>
      match digitValue c, cs.head?.bind digitValue with
      | none, _ => none
      | some d, none => some (d, 1)
      | some d, some d' => some (10 * d + d', 2)

/-- A place marker, `%` and perhaps `L` before the number: its number and its
    length. -/
def marker : QString → Option (Nat × Nat)
  | '%' :: 'L' :: cs => (escapeNumber cs).map fun (escape, n) => (escape, n + 2)
  | '%' :: cs => (escapeNumber cs).map fun (escape, n) => (escape, n + 1)
  | _ => none

/-- The numbers of the markers. -/
def escapes : QString → List Nat
  | [] => []
  | c :: cs => ((marker (c :: cs)).map Prod.fst).toList ++ escapes cs

/-- Put `a` in the place of the markers with a number, after some characters
    that are left out. -/
def substitute (escape : Nat) (a : QString) : Nat → QString → QString
  | _, [] => []
  | skip + 1, _ :: cs => substitute escape a skip cs
  | 0, c :: cs =>
      match marker (c :: cs) with
      | none => c :: substitute escape a 0 cs
      | some (n, length) =>
          if n = escape then a ++ substitute escape a (length - 1) cs
          else c :: substitute escape a 0 cs

/-- `QString::arg`: the markers with the lowest number are replaced. -/
def arg (text a : QString) : QString :=
  match (escapes text).min? with
  | none => text
  | some escape => substitute escape a 0 text

example : arg "%2 %1%L1 %10".toList "a%3".toList = "%2 a%3a%3 %10".toList := by decide

/-! ## Section 4: Markers in templates -/

theorem marker_of_ne {c : Char} (hc : c ≠ '%') (cs : QString) : marker (c :: cs) = none := by
  unfold marker
  split
  · next heq => exact absurd (List.cons.inj heq).1 hc
  · next heq => exact absurd (List.cons.inj heq).1 hc
  · rfl

theorem escapes_append {front : QString} (h : '%' ∉ front) (rest : QString) :
    escapes (front ++ rest) = escapes rest := by
  induction front with
  | nil => rfl
  | cons c cs ih =>
    rw [List.mem_cons, not_or] at h
    show ((marker (c :: (cs ++ rest))).map Prod.fst).toList ++ escapes (cs ++ rest) = _
    rw [marker_of_ne (Ne.symm h.1), ih h.2]
    rfl

theorem substitute_append {front : QString} (h : '%' ∉ front) (escape : Nat) (a rest : QString) :
    substitute escape a 0 (front ++ rest) = front ++ substitute escape a 0 rest := by
  induction front with
  | nil => rfl
  | cons c cs ih =>
    rw [List.mem_cons, not_or] at h
    show (match marker (c :: (cs ++ rest)) with
      | none => c :: substitute escape a 0 (cs ++ rest)
      | some (n, length) =>
          if n = escape then a ++ substitute escape a (length - 1) (cs ++ rest)
          else c :: substitute escape a 0 (cs ++ rest)) = _
    rw [marker_of_ne (Ne.symm h.1), ih h.2]
    rfl

/-- **Templates**: a text without `%` before a template stays as it is. -/
theorem arg_append {front : QString} (h : '%' ∉ front) (text a : QString) :
    arg (front ++ text) a = front ++ arg text a := by
  unfold arg
  rw [escapes_append h]
  cases (escapes text).min? with
  | none => rfl
  | some escape => exact substitute_append h escape a text

end QString

end Linglong
