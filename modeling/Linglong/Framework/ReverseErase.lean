import Mathlib.Data.List.Pairwise

/-! # Erasing in a Traversal from the End

    A loop goes through a vector with a reverse iterator and erases some of
    the elements. The iterator is the position behind its element. Erasing
    moves what is behind the element one place towards the front and leaves
    the storage where it is, so that the iterator is the same position
    afterwards.

    * `eraseLoop`: the loop, with the elements that it visits.
    * `eraseLoop_eq`: it visits each element once, from the last to the first.
    * `lastOf`: the last element with each key.
    * `keepFrom_eq_lastOf`: what is left if elements with known keys are
      erased.
-/

namespace Framework

universe u v w

variable {α : Type u} {σ : Type v} {κ : Type w}

/-- What a loop leaves. -/
structure Traversal (α : Type u) (σ : Type v) where
  items : List α
  seen : σ
  visited : List α

/-- The loop with an iterator at position `base`: the element before it is
    erased if `drop` says so, and noted otherwise. Nothing where the iterator
    is behind the end. -/
def eraseLoop (drop : σ → α → Bool) (note : σ → α → σ) :
    Nat → List α → σ → List α → Option (Traversal α σ)
  | 0, items, seen, visited => some ⟨items, seen, visited⟩
  | base + 1, items, seen, visited =>
      match items[base]? with
      | none => none
      | some x =>
          if drop seen x then eraseLoop drop note base (items.eraseIdx base) seen (visited ++ [x])
          else eraseLoop drop note base items (note seen x) (visited ++ [x])

/-! ## Section 1: What the loop visits and leaves -/

/-- The elements that are kept of a list that is given from its end, and what
    has been noted. -/
def keepFrom (drop : σ → α → Bool) (note : σ → α → σ) : List α → σ → List α × σ
  | [], seen => ([], seen)
  | x :: xs, seen =>
      if drop seen x then keepFrom drop note xs seen
      else ((keepFrom drop note xs (note seen x)).1 ++ [x], (keepFrom drop note xs (note seen x)).2)

/-- **The loop**: before position `base` nothing has been erased yet, so that
    each step visits the next element and the iterator stays in the vector. -/
theorem eraseLoop_eq (drop : σ → α → Bool) (note : σ → α → σ) (xs kept : List α) (seen : σ)
    (visited : List α) :
    eraseLoop drop note xs.length (xs.reverse ++ kept) seen visited =
      some ⟨(keepFrom drop note xs seen).1 ++ kept, (keepFrom drop note xs seen).2,
        visited ++ xs⟩ := by
  induction xs generalizing kept seen visited with
  | nil => simp [eraseLoop, keepFrom]
  | cons x xs ih =>
    have hget : ((x :: xs).reverse ++ kept)[xs.length]? = some x := by simp
    have herase : ((x :: xs).reverse ++ kept).eraseIdx xs.length = xs.reverse ++ kept := by
      rw [List.reverse_cons, List.append_assoc, List.eraseIdx_append_of_length_le (by simp)]
      simp
    rw [List.length_cons, eraseLoop, hget]
    simp only [keepFrom]
    by_cases hdrop : drop seen x = true
    · rw [if_pos hdrop, if_pos hdrop, herase, ih, List.append_assoc, List.singleton_append]
    · rw [if_neg hdrop, if_neg hdrop, List.reverse_cons, List.append_assoc, ih]
      simp

/-! ## Section 2: Keys -/

variable [DecidableEq κ]

/-- The last element with each key, in order. -/
def lastOf (key : α → κ) (l : List α) : List α := l.pwFilter fun a b => key a ≠ key b

section Keys

variable {key : α → κ} {l : List α}

theorem lastOf_sublist (key : α → κ) (l : List α) : (lastOf key l).Sublist l :=
  List.pwFilter_sublist l

theorem nodup_lastOf (key : α → κ) (l : List α) : ((lastOf key l).map key).Nodup :=
  List.pairwise_map.2 (List.pairwise_pwFilter l)

theorem forall_mem_lastOf {a : α} : (∀ b ∈ lastOf key l, key a ≠ key b) ↔ ∀ b ∈ l, key a ≠ key b := by
  refine List.forall_mem_pwFilter (fun {x y z} hxz => ?_) a l
  by_contra hand
  rw [not_or, not_not, not_not] at hand
  exact hxz (hand.1.trans hand.2)

theorem lastOf_cons (a : α) (l : List α) :
    lastOf key (a :: l) = if key a ∈ l.map key then lastOf key l else a :: lastOf key l := by
  have hiff : (∀ b ∈ lastOf key l, key a ≠ key b) ↔ key a ∉ l.map key := by
    rw [forall_mem_lastOf]
    simp [eq_comm]
  by_cases hmem : key a ∈ l.map key
  · rw [if_pos hmem]
    exact List.pwFilter_cons_of_neg fun h => hiff.1 h hmem
  · rw [if_neg hmem]
    exact List.pwFilter_cons_of_pos (hiff.2 hmem)

/-- The last element is kept; of the others, those with another key. -/
theorem lastOf_concat (l : List α) (x : α) :
    lastOf key (l ++ [x]) = (lastOf key l).filter (fun a => key a ≠ key x) ++ [x] := by
  induction l with
  | nil => rfl
  | cons a l ih =>
    rw [List.cons_append, lastOf_cons, lastOf_cons, ih]
    by_cases hx : key a = key x
    · -- the last element has the key of the first
      have hlast : key a ∈ (l ++ [x]).map key := by simp [hx]
      rw [if_pos hlast]
      by_cases hmem : key a ∈ l.map key
      · rw [if_pos hmem]
      · rw [if_neg hmem, List.filter_cons_of_neg (by simp [hx])]
    · have hiff : key a ∈ (l ++ [x]).map key ↔ key a ∈ l.map key := by simp [hx]
      by_cases hmem : key a ∈ l.map key
      · rw [if_pos hmem, if_pos (hiff.2 hmem)]
      · rw [if_neg hmem, if_neg fun h => hmem (hiff.1 h), List.filter_cons_of_pos (by simp [hx]),
          List.cons_append]

/-- No key is lost. -/
theorem mem_map_lastOf {k : κ} : k ∈ (lastOf key l).map key ↔ k ∈ l.map key := by
  induction l with
  | nil => rfl
  | cons a l ih =>
    rw [lastOf_cons]
    by_cases hmem : key a ∈ l.map key
    · rw [if_pos hmem, ih, List.map_cons, List.mem_cons]
      refine ⟨.inr, fun h => h.elim (fun heq => ?_) id⟩
      rwa [heq]
    · rw [if_neg hmem, List.map_cons, List.map_cons, List.mem_cons, List.mem_cons, ih]

/-- Of the first elements, those are kept whose key does not come later. -/
theorem lastOf_append (l l' : List α) :
    lastOf key (l ++ l') = (lastOf key l).filter (fun a => key a ∉ l'.map key) ++ lastOf key l' := by
  induction l with
  | nil => rfl
  | cons a l ih =>
    rw [List.cons_append, lastOf_cons, lastOf_cons, ih, List.map_append]
    by_cases hmem : key a ∈ l.map key
    · rw [if_pos (List.mem_append_left _ hmem), if_pos hmem]
    · rw [if_neg hmem]
      by_cases hmem' : key a ∈ l'.map key
      · rw [if_pos (List.mem_append_right _ hmem'), List.filter_cons_of_neg (by simpa using hmem')]
      · rw [if_neg fun h => (List.mem_append.1 h).elim hmem hmem',
          List.filter_cons_of_pos (by simpa using hmem'), List.cons_append]

/-- **Keys**: for each key, the last element that has it is left. -/
theorem filter_lastOf (l : List α) (k : κ) :
    (lastOf key l).filter (fun a => key a = k) =
      (l.filter fun a => key a = k).getLast?.toList := by
  induction l with
  | nil => rfl
  | cons a l ih =>
    rw [lastOf_cons]
    by_cases hk : key a = k
    · rw [List.filter_cons_of_pos (by simp [hk]), List.getLast?_cons]
      by_cases hmem : key a ∈ l.map key
      · -- a later element has the key
        obtain ⟨b, hb, hkey⟩ := List.mem_map.1 hmem
        have hne : (l.filter fun a => key a = k) ≠ [] :=
          List.ne_nil_of_mem (List.mem_filter.2 ⟨hb, by simp [hkey, hk]⟩)
        rw [if_pos hmem, ih, List.getLast?_eq_some_getLast hne]
        rfl
      · have hnil : (l.filter fun a => key a = k) = [] := by
          refine List.filter_eq_nil_iff.2 fun b hb hkey => hmem ?_
          exact List.mem_map.2 ⟨b, hb, (of_decide_eq_true hkey).trans hk.symm⟩
        rw [if_neg hmem, List.filter_cons_of_pos (by simp [hk]), ih, hnil]
        rfl
    · rw [List.filter_cons_of_neg (by simp [hk]), ← ih]
      by_cases hmem : key a ∈ l.map key
      · rw [if_pos hmem]
      · rw [if_neg hmem, List.filter_cons_of_neg (by simp [hk])]

/-- The loop that erases elements with a key it has noted. -/
theorem keepFrom_eq_filter (xs : List α) (seen : List κ) :
    (keepFrom (fun (seen : List κ) x => seen.contains (key x)) (fun seen x => key x :: seen)
      xs seen).1 = (lastOf key xs.reverse).filter fun a => !seen.contains (key a) := by
  induction xs generalizing seen with
  | nil => rfl
  | cons x xs ih =>
    rw [keepFrom, List.reverse_cons, lastOf_concat, List.filter_append, List.filter_filter]
    by_cases hseen : seen.contains (key x) = true
    · rw [if_pos hseen, ih, List.filter_cons_of_neg (by rw [hseen]; simp), List.filter_nil,
        List.append_nil]
      refine List.filter_congr fun a _ => ?_
      by_cases ha : key a = key x
      · rw [ha, hseen]
        rfl
      · simp [ha]
    · rw [if_neg hseen, ih, List.filter_cons_of_pos (by simpa using hseen), List.filter_nil]
      refine congrArg (· ++ [x]) (List.filter_congr fun a _ => ?_)
      by_cases ha : key a = key x <;> simp [ha]

/-- **Duplicates**: what is left is the last element with each key. -/
theorem keepFrom_eq_lastOf (l : List α) :
    (keepFrom (fun (seen : List κ) x => seen.contains (key x)) (fun seen x => key x :: seen)
      l.reverse []).1 = lastOf key l := by
  rw [keepFrom_eq_filter, List.reverse_reverse]
  exact List.filter_eq_self.2 fun a _ => rfl

end Keys

end Framework
