import Mathlib.Data.List.Nodup

/-! # Lists of Pairs as Maps

    A finite map kept as a list of pairs: `lookup` takes the first entry of a
    key, removing a key filters all its entries out, setting it puts a new
    entry before what is left. Two such lists are the same map if all lookups
    agree.

    * `lookup_filter_ne`, `lookup_filter_self`: a map without a key.
    * `lookup_filter_key`: a map on some of its keys.
    * `lookup_set`: a map with a key set.
    * `lookup_of_mem`: lists in which no key comes twice.
    * `filter_same_iff`, `set_same_iff`: when this is the map one had before.
-/

namespace Framework

universe u v

variable {κ : Type u} {β : Type v} [BEq κ] [LawfulBEq κ] [DecidableEq κ]

/-- Looking up another key in a list without the entries of one. -/
theorem lookup_filter_ne {a b : κ} (h : b ≠ a) (l : List (κ × β)) :
    (l.filter fun e => e.1 ≠ a).lookup b = l.lookup b := by
  induction l with
  | nil => rfl
  | cons e l ih =>
    obtain ⟨k, v⟩ := e
    by_cases hk : k = a
    · subst hk
      have hbk : (b == k) = false := by simpa using h
      rw [List.filter_cons_of_neg (by simp), List.lookup_cons, hbk, ih]
    · rw [List.filter_cons_of_pos (by simpa using hk), List.lookup_cons, List.lookup_cons, ih]

/-- Looking up the key itself. -/
theorem lookup_filter_self (a : κ) (l : List (κ × β)) :
    (l.filter fun e => e.1 ≠ a).lookup a = none := by
  refine List.lookup_eq_none_iff.2 fun e he => ?_
  have hne : e.1 ≠ a := by simpa using (List.mem_filter.1 he).2
  simpa using Ne.symm hne

omit [DecidableEq κ] in
/-- Looking up in the entries whose keys are kept. -/
theorem lookup_filter_key (keep : κ → Bool) (b : κ) (l : List (κ × β)) :
    (l.filter fun e => keep e.1).lookup b = if keep b = true then l.lookup b else none := by
  induction l with
  | nil => simp
  | cons e l ih =>
    obtain ⟨k, v⟩ := e
    have hstep : ((k, v) :: l).filter (fun e => keep e.1) =
        if keep k = true then (k, v) :: l.filter (fun e => keep e.1)
        else l.filter fun e => keep e.1 := List.filter_cons
    rw [hstep]
    by_cases hk : b = k
    · subst hk
      split
      · rw [List.lookup_cons_self, List.lookup_cons_self]
      · next hkeep => rw [ih, if_neg hkeep]
    · have hbk : (b == k) = false := by simpa using hk
      rw [List.lookup_cons, hbk]
      split
      · rw [List.lookup_cons, hbk, ih]
      · rw [ih]

/-- Looking up a key after one has been set. -/
theorem lookup_set (a b : κ) (v : β) (l : List (κ × β)) :
    ((a, v) :: l.filter fun e => e.1 ≠ a).lookup b = if b = a then some v else l.lookup b := by
  by_cases h : b = a
  · rw [h, if_pos rfl, List.lookup_cons_self]
  · have hne : (b == a) = false := by simpa using h
    rw [if_neg h, List.lookup_cons, hne]
    exact lookup_filter_ne h l

omit [DecidableEq κ] in
/-- If no key comes twice, every entry is found. -/
theorem lookup_of_mem {l : List (κ × β)} (hkeys : (l.map Prod.fst).Nodup) {a : κ} {v : β}
    (h : (a, v) ∈ l) : l.lookup a = some v := by
  induction l with
  | nil => cases h
  | cons e l ih =>
    rw [List.map_cons, List.nodup_cons] at hkeys
    rcases List.mem_cons.1 h with rfl | hmem
    · exact List.lookup_cons_self
    · have hne : (a == e.1) = false := by
        have hkey : a ∈ l.map Prod.fst := List.mem_map.2 ⟨_, hmem, rfl⟩
        simpa using fun heq : a = e.1 => hkeys.1 (heq ▸ hkey)
      obtain ⟨k, w⟩ := e
      rw [List.lookup_cons, hne]
      exact ih hkeys.2 hmem

theorem filter_same_iff {a : κ} {l : List (κ × β)} :
    (∀ b, (l.filter fun e => e.1 ≠ a).lookup b = l.lookup b) ↔ l.lookup a = none := by
  constructor
  · intro h
    rw [← h a]
    exact lookup_filter_self a l
  · intro h b
    by_cases hb : b = a
    · rw [hb, h]
      exact lookup_filter_self a l
    · exact lookup_filter_ne hb l

theorem set_same_iff {a : κ} {v : β} {l : List (κ × β)} :
    (∀ b, ((a, v) :: l.filter fun e => e.1 ≠ a).lookup b = l.lookup b) ↔
      l.lookup a = some v := by
  constructor
  · intro h
    rw [← h a, lookup_set, if_pos rfl]
  · intro h b
    rw [lookup_set]
    split
    · next hb => rw [hb, h]
    · rfl

end Framework
