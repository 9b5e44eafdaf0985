import Linglong.Box.LastBox

/-! # The Parent in a `stat` Line

    The second field of `/proc/<pid>/stat` is the name of the program, which
    every process chooses; only its parentheses mark where it ends.
    `findParentPid` reads the first line and counts blanks.

    1. Lines, and what stands at the place of the parent.
    2. The fields that are counted.
    3. When the parent is read (`findParentPid_iff`).
-/

namespace Linglong.Box.LastBox

open Framework
open Migrate (stoi)

/-! ## Section 1: Lines -/

/-- A `stat` file: what `proc(5)` says of its first fields. -/
structure StatFile where
  pid : Nat
  comm : List Char
  state : Char
  ppid : Nat
  rest : List Char
  comm_le : comm.length ≤ 15
  state_alpha : state.isAlpha = true
  ppid_lt : ppid < 2 ^ 31

/-- The text of the file. -/
def StatFile.text (f : StatFile) : List Char :=
  statLine ⟨f.pid, f.ppid, none, none⟩ f.comm [f.state] f.rest

/-- The piece of a name with blanks or newlines that is taken for the parent,
    if it is one. A newline ends the line, and the last field is taken if
    there are less than four. -/
def takenForParent (comm : List Char) : Option (List Char) :=
  if '\n' ∈ comm then
    match (comm.takeWhile (· ≠ '\n')).splitOn ' ' with
    | _ :: _ :: piece :: _ => some piece
    | [_, piece] => some piece
    | _ => none
  else
    match (comm ++ [')']).splitOn ' ' with
    | _ :: _ :: piece :: _ => some piece
    | _ => none

/-- Nothing in the name separates, or the piece that is taken for the parent
    is the number of the parent. -/
def StatFile.Readable (f : StatFile) : Prop :=
  ' ' ∉ f.comm ∧ '\n' ∉ f.comm ∨
    ∃ piece, takenForParent f.comm = some piece ∧ stoi piece = some (f.ppid : Int)

/-! ## Section 2: The fields -/

/-- A text that does not begin with a number is not read. -/
theorem stoi_cons {c : Char} (hspace : Migrate.isSpace c = false) (hdigit : c.isDigit = false)
    (hminus : c ≠ '-') (hplus : c ≠ '+') (text : List Char) : stoi (c :: text) = none := by
  unfold stoi
  rw [List.dropWhile_cons_of_neg (by simp [hspace])]
  dsimp only
  split
  · next heq => exact absurd (List.cons.inj heq).1 hminus
  · next heq => exact absurd (List.cons.inj heq).1 hplus
  · dsimp only
    rw [List.takeWhile_cons_of_neg (by simp [hdigit]), if_pos rfl]

theorem le_toNat_of_isAlpha {c : Char} (h : c.isAlpha = true) : 65 ≤ c.toNat := by
  have hcase : (c.isUpper || c.isLower) = true := h
  rcases (Bool.or_eq_true _ _).mp hcase with hupper | hlower
  · have hbounds : c.val ≥ 'A'.val ∧ c.val ≤ 'Z'.val := of_decide_eq_true hupper
    exact UInt32.le_iff_toNat_le.1 hbounds.1
  · have hbounds : (decide (c.val ≥ 'a'.val) && decide (c.val ≤ 'z'.val)) = true := hlower
    rw [Bool.and_eq_true, decide_eq_true_eq] at hbounds
    exact Nat.le_trans (by decide) (UInt32.le_iff_toNat_le.1 hbounds.1)

theorem state_ne (f : StatFile) {c : Char} (hc : c.toNat < 65) : f.state ≠ c := by
  rintro rfl
  have hle := le_toNat_of_isAlpha f.state_alpha
  omega

theorem not_mem_state (f : StatFile) {c : Char} (hc : c.toNat < 65) : c ∉ [f.state] :=
  fun hmem => state_ne f hc (List.mem_singleton.1 hmem).symm

/-- A letter is not a number. -/
theorem stoi_state (f : StatFile) : stoi [f.state] = none := by
  have hle := le_toNat_of_isAlpha f.state_alpha
  refine stoi_cons ?_ ?_ (state_ne f (by decide)) (state_ne f (by decide)) []
  · have hblank : f.state ≠ ' ' := state_ne f (by decide)
    simp only [Migrate.isSpace, Bool.or_eq_false_iff, decide_eq_false_iff_not,
      Bool.and_eq_false_iff]
    exact ⟨hblank, by omega⟩
  · rw [Bool.eq_false_iff]
    intro hdigit
    simp only [Char.isDigit, Bool.and_eq_true, decide_eq_true_eq, UInt32.le_iff_toNat_le] at hdigit
    have hle' : f.state.toNat ≤ 57 := hdigit.2
    omega

/-- The first piece of the name comes after a parenthesis. -/
theorem splitOn_paren (text : List Char) :
    ('(' :: text).splitOn ' ' = (text.splitOn ' ').modifyHead ('(' :: ·) := by
  rw [List.splitOn_cons_eq_if_modifyHead]
  rfl

/-- The fields of a line that is cut off in the name. -/
theorem fields_of_newline {f : StatFile} (h : '\n' ∈ f.comm) :
    (f.text.takeWhile (· ≠ '\n')).splitOn ' ' = Nat.toDigits 10 f.pid ::
      ((f.comm.takeWhile (· ≠ '\n')).splitOn ' ').modifyHead ('(' :: ·) := by
  obtain ⟨before, after, hcomm, hbefore⟩ := List.eq_append_cons_of_mem h
  have hcut : f.comm.takeWhile (· ≠ '\n') = before := by
    rw [hcomm]
    exact takeWhile_append_of_not_mem hbefore after
  have htext : f.text = (Nat.toDigits 10 f.pid ++ ' ' :: '(' :: before) ++
      '\n' :: (after ++ ')' :: ' ' :: f.state :: ' ' ::
        (Nat.toDigits 10 f.ppid ++ ' ' :: f.rest)) := by
    simp [StatFile.text, statLine, hcomm]
  have hline : '\n' ∉ Nat.toDigits 10 f.pid ++ ' ' :: '(' :: before := by
    simp [not_mem_toDigits f.pid (show '\n'.isDigit = false by decide), hbefore]
  rw [htext, takeWhile_append_of_not_mem hline, hcut,
    List.splitOn_append_cons_self_of_not_mem (not_mem_toDigits f.pid (by decide)), splitOn_paren]

/-- The fields of a whole line. -/
theorem fields_of_line {f : StatFile} (h : '\n' ∉ f.comm) :
    (f.text.takeWhile (· ≠ '\n')).splitOn ' ' = Nat.toDigits 10 f.pid ::
      (((f.comm ++ [')']).splitOn ' ').modifyHead ('(' :: ·) ++
        [f.state] :: Nat.toDigits 10 f.ppid :: (f.rest.takeWhile (· ≠ '\n')).splitOn ' ') := by
  have hblank : ' ' ∉ [f.state] := not_mem_state f (by decide)
  have hnewline : '\n' ∉ [f.state] := not_mem_state f (by decide)
  have htext : ∀ rest, statLine ⟨f.pid, f.ppid, none, none⟩ f.comm [f.state] rest =
      Nat.toDigits 10 f.pid ++ ' ' :: (('(' :: (f.comm ++ [')'])) ++ ' ' :: ([f.state] ++
        ' ' :: (Nat.toDigits 10 f.ppid ++ ' ' :: rest))) := by
    intro rest
    simp [statLine]
  rw [StatFile.text, takeWhile_statLine _ _ h hnewline, htext,
    List.splitOn_append_cons_self_of_not_mem (not_mem_toDigits f.pid (by decide)),
    List.splitOn_append_cons_self, splitOn_paren,
    List.splitOn_append_cons_self_of_not_mem hblank,
    List.splitOn_append_cons_self_of_not_mem (not_mem_toDigits f.ppid (by decide))]

/-! ## Section 3: When the parent is read -/

theorem text_ne_nil (f : StatFile) : f.text ≠ [] := by simp [StatFile.text, statLine]

theorem findParentPid_text (f : StatFile) : findParentPid (some f.text) =
    stoi ((((f.text.takeWhile (· ≠ '\n')).splitOn ' ').take 4).getLastD []) :=
  if_neg (text_ne_nil f)

/-- What is returned for a name that separates. -/
theorem findParentPid_of_separated {f : StatFile} (h : ' ' ∈ f.comm ∨ '\n' ∈ f.comm) :
    findParentPid (some f.text) = (takenForParent f.comm).bind stoi := by
  have hparen : ∀ text, stoi ('(' :: text) = none :=
    stoi_cons (by decide) (by decide) (by decide) (by decide)
  rw [findParentPid_text]
  unfold takenForParent
  by_cases hnewline : '\n' ∈ f.comm
  · rw [if_pos hnewline, fields_of_newline hnewline]
    rcases hpieces : (f.comm.takeWhile (· ≠ '\n')).splitOn ' ' with
      _ | ⟨first, _ | ⟨second, _ | ⟨third, more⟩⟩⟩
    · exact absurd hpieces (List.splitOn_ne_nil _ _)
    · exact hparen first
    · rfl
    · rfl
  · rw [if_neg hnewline, fields_of_line hnewline]
    rcases hpieces : (f.comm ++ [')']).splitOn ' ' with
      _ | ⟨first, _ | ⟨second, _ | ⟨third, more⟩⟩⟩
    · exact absurd hpieces (List.splitOn_ne_nil _ _)
    · -- a name with a blank has two pieces
      have hblank : ' ' ∈ f.comm := h.resolve_right hnewline
      obtain ⟨before, after, hcomm, -⟩ := List.eq_append_cons_of_mem hblank
      rw [hcomm, List.append_assoc, List.cons_append, List.splitOn_append_cons_self] at hpieces
      have hlen := congrArg List.length hpieces
      have hbefore := List.length_pos_iff.2 (List.splitOn_ne_nil ' ' before)
      have hafter := List.length_pos_iff.2 (List.splitOn_ne_nil ' ' (after ++ [')']))
      rw [List.length_append, List.length_singleton] at hlen
      omega
    · exact stoi_state f
    · rfl

/-- **Exactness**: when the parent is returned. -/
theorem findParentPid_iff (f : StatFile) :
    findParentPid (some f.text) = some (f.ppid : Int) ↔ f.Readable := by
  by_cases hplain : ' ' ∉ f.comm ∧ '\n' ∉ f.comm
  · refine iff_of_true ?_ (.inl hplain)
    exact findParentPid_statLine f.ppid_lt hplain.1 (not_mem_state f (by decide)) hplain.2
      (not_mem_state f (by decide))
  · have hsep : ' ' ∈ f.comm ∨ '\n' ∈ f.comm := by
      by_contra hnone
      exact hplain (not_or.1 hnone)
    rw [findParentPid_of_separated hsep, Option.bind_eq_some_iff, StatFile.Readable]
    exact ⟨.inr, fun h => h.resolve_left hplain⟩

/-- The process 7 with the parent 3 and a blank in its name. -/
def blankFile : StatFile where
  pid := 7
  comm := "a b".toList
  state := 'S'
  ppid := 3
  rest := "7 7 0 -1".toList
  comm_le := by decide
  state_alpha := by decide
  ppid_lt := by decide

/-- `std::stoi` is given the state. -/
theorem not_findParentPid_blank :
    ¬ ∀ f : StatFile, findParentPid (some f.text) = some (f.ppid : Int) := by
  intro h
  have hthrows : findParentPid (some blankFile.text) = none := by decide
  have hthree := h blankFile
  rw [hthrows] at hthree
  cases hthree

end Linglong.Box.LastBox
