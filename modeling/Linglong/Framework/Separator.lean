import Mathlib.Data.List.Basic
import Mathlib.Data.List.TakeDrop
import Mathlib.Data.List.TakeWhile

/-! # Texts up to a Separator

    A reader that cuts a text at a separator gets what is before the first
    one. The ways to say this (`takeWhile`, `span`, a search for the place, a
    split into parts) agree, and on a part without separators they get the
    part.

    * `takeWhile_of_not_mem`, `dropWhile_of_not_mem`: a text without it.
    * `takeWhile_append_of_not_mem`, `dropWhile_append_of_not_mem`: a part
      before it.
    * `span_of_not_mem`, `span_append_of_not_mem`: both at once.
    * `take_idxOf`: up to the place that is found.
    * `headD_splitOn`, `not_mem_splitOn`: the parts of a split.
    * `parts`: those that are not empty, and what joins them again
      (`parts_append_cons`, `parts_intercalate`).
-/

namespace Framework

universe u

variable {α : Type u} [DecidableEq α] {a : α} {l : List α}

theorem ne_of_not_mem (h : a ∉ l) : ∀ c ∈ l, decide (c ≠ a) = true := by
  intro c hc
  refine decide_eq_true fun heq => h ?_
  rwa [← heq]

theorem takeWhile_of_not_mem (h : a ∉ l) : l.takeWhile (· ≠ a) = l :=
  List.takeWhile_eq_self_iff.2 (ne_of_not_mem h)

theorem dropWhile_of_not_mem (h : a ∉ l) : l.dropWhile (· ≠ a) = [] :=
  List.dropWhile_eq_nil_iff.2 (ne_of_not_mem h)

/-- The search stops at the separator. -/
theorem takeWhile_append_of_not_mem (h : a ∉ l) (rest : List α) :
    (l ++ a :: rest).takeWhile (· ≠ a) = l := by
  rw [List.takeWhile_append_of_pos (ne_of_not_mem h), List.takeWhile_cons_of_neg (by simp),
    List.append_nil]

theorem dropWhile_append_of_not_mem (h : a ∉ l) (rest : List α) :
    (l ++ a :: rest).dropWhile (· ≠ a) = a :: rest := by
  rw [List.dropWhile_append_of_pos (ne_of_not_mem h), List.dropWhile_cons_of_neg (by simp)]

theorem span_of_not_mem (h : a ∉ l) : l.span (· ≠ a) = (l, []) := by
  rw [List.span_eq_takeWhile_dropWhile, takeWhile_of_not_mem h, dropWhile_of_not_mem h]

theorem span_append_of_not_mem (h : a ∉ l) (rest : List α) :
    (l ++ a :: rest).span (· ≠ a) = (l, a :: rest) := by
  rw [List.span_eq_takeWhile_dropWhile, takeWhile_append_of_not_mem h,
    dropWhile_append_of_not_mem h]

/-- What is before the place of the first separator. -/
theorem take_idxOf (a : α) (l : List α) : l.take (l.idxOf a) = l.takeWhile (· ≠ a) := by
  induction l with
  | nil => rfl
  | cons c l ih =>
    by_cases hc : c = a
    · simp [hc]
    · rw [List.idxOf_cons_ne l hc, List.take_succ_cons,
        List.takeWhile_cons_of_pos (by simpa using hc), ih]

/-- The first part of a text that is split. -/
theorem headD_splitOn (a : α) (l : List α) : (l.splitOn a).headD [] = l.takeWhile (· ≠ a) := by
  induction l with
  | nil => rfl
  | cons c l ih =>
    rw [List.splitOn_cons_eq_if_modifyHead]
    obtain ⟨part, parts, hsplit⟩ := List.exists_cons_of_ne_nil (List.splitOn_ne_nil a l)
    rw [hsplit, List.headD_cons] at ih
    by_cases hc : c = a
    · simp [hc]
    · simp [hc, hsplit, ih]

/-- No part of a split has the separator. -/
theorem not_mem_splitOn {part : List α} (h : part ∈ l.splitOn a) : a ∉ part := by
  induction l generalizing part with
  | nil =>
    rw [List.splitOn_nil, List.mem_singleton] at h
    simp [h]
  | cons c l ih =>
    rw [List.splitOn_cons_eq_if_modifyHead] at h
    by_cases hc : (c == a) = true
    · rw [if_pos hc, List.mem_cons] at h
      rcases h with rfl | h
      · simp
      · exact ih h
    · rw [if_neg hc] at h
      obtain ⟨first, parts, hsplit⟩ := List.exists_cons_of_ne_nil (List.splitOn_ne_nil a l)
      rw [hsplit, List.modifyHead_cons, List.mem_cons] at h
      rcases h with rfl | h
      · have hfirst : a ∉ first := ih (by rw [hsplit]; simp)
        simp only [List.mem_cons, not_or]
        exact ⟨fun heq => hc (by simp [heq]), hfirst⟩
      · exact ih (by rw [hsplit]; simp [h])

/-! ## The parts that are not empty -/

/-- The parts of a text, but for the empty ones. -/
def parts (a : α) (l : List α) : List (List α) := (l.splitOn a).filter fun part => part ≠ []

@[simp] theorem parts_nil : parts a [] = [] := by simp [parts]

/-- A separator ends a part. -/
theorem parts_append_cons (before after : List α) :
    parts a (before ++ a :: after) = parts a before ++ parts a after := by
  unfold parts
  rw [List.splitOn_append_cons_self, List.filter_append]

theorem parts_cons (after : List α) : parts a (a :: after) = parts a after := by
  simpa using parts_append_cons (a := a) [] after

theorem parts_of_not_mem (hne : l ≠ []) (h : a ∉ l) : parts a l = [l] := by
  rw [parts, List.splitOn_eq_singleton h]
  simp [hne]

theorem mem_parts {part : List α} (h : part ∈ parts a l) : part ≠ [] ∧ a ∉ part := by
  obtain ⟨hpart, hne⟩ := List.mem_filter.1 h
  exact ⟨by simpa using hne, not_mem_splitOn hpart⟩

/-- **Joining**: parts that are joined by separators are the parts of the
    text. -/
theorem parts_intercalate {ps : List (List α)} (h : ∀ part ∈ ps, part ≠ [] ∧ a ∉ part) :
    parts a ([a].intercalate ps) = ps := by
  induction ps with
  | nil => simp
  | cons part ps ih =>
    obtain ⟨hne, hsep⟩ := h part List.mem_cons_self
    have hrest := ih fun p hp => h p (List.mem_cons_of_mem _ hp)
    cases ps with
    | nil =>
      rw [List.intercalate_singleton]
      exact parts_of_not_mem hne hsep
    | cons next ps =>
      rw [List.intercalate_cons_cons, List.append_assoc, List.singleton_append, parts_append_cons,
        parts_of_not_mem hne hsep, hrest]
      rfl

end Framework
