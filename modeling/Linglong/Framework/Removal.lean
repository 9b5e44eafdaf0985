import Mathlib.Data.List.Nodup

/-! # Removing One Element for Each Request

    A list from which elements go, one for each of a list of requests. What a
    request finds may depend on what is still there: `Finds r l a` says that
    the request `r` finds `a` in `l`.

    * `Removes Finds requests l l'`: all requests found something, and `l'`
      is left of `l`.
    * `sublist`, `length`: what is left, and how much.
    * `turn`: every request had its turn.
    * `taken`: what is gone was found by a request.
    * `eq_filter`: if only elements that should go were found, and there were
      as many requests, exactly these are gone.
-/

namespace Framework

universe u v

variable {ρ : Type u} {α : Type v} [DecidableEq α]

/-- Serve the requests in their order: each takes out what it finds. -/
inductive Removes (Finds : ρ → List α → α → Prop) : List ρ → List α → List α → Prop
  | nil (l : List α) : Removes Finds [] l l
  | cons {r : ρ} {requests : List ρ} {l l' : List α} {a : α} (found : Finds r l a)
      (rest : Removes Finds requests (l.erase a) l') : Removes Finds (r :: requests) l l'

namespace Removes

variable {Finds : ρ → List α → α → Prop} {requests requests' : List ρ} {l l' l'' : List α}

theorem eq_of_nil (h : Removes Finds [] l l') : l' = l := by
  cases h
  rfl

theorem append (h : Removes Finds requests l l') (h' : Removes Finds requests' l' l'') :
    Removes Finds (requests ++ requests') l l'' := by
  induction h with
  | nil l => exact h'
  | cons found rest ih => exact .cons found (ih h')

/-- What is left was there before. -/
theorem sublist (h : Removes Finds requests l l') : l'.Sublist l := by
  induction h with
  | nil l => exact List.Sublist.refl l
  | cons found rest ih => exact ih.trans List.erase_sublist

/-- A request that finds something in the list makes it shorter by one. -/
theorem length (hfinds : ∀ r l a, Finds r l a → a ∈ l) (h : Removes Finds requests l l') :
    l'.length + requests.length = l.length := by
  induction h with
  | nil l => rfl
  | cons found rest ih =>
    rename_i r requests l l' a
    have hmem := hfinds r l a found
    have hone := List.length_erase_of_mem hmem
    have hpos := List.length_pos_of_mem hmem
    rw [List.length_cons]
    omega

/-- Every request had its turn. -/
theorem turn (h : Removes Finds requests l l') {r : ρ} (hr : r ∈ requests) :
    ∃ l₁ a, l₁.Sublist l ∧ Finds r l₁ a ∧ l'.Sublist (l₁.erase a) := by
  induction h with
  | nil l => simp at hr
  | cons found rest ih =>
    rename_i r' requests l l' a
    rcases List.mem_cons.1 hr with rfl | hr
    · exact ⟨l, a, List.Sublist.refl l, found, rest.sublist⟩
    · obtain ⟨l₁, b, hsub, hfound, hrest⟩ := ih hr
      exact ⟨l₁, b, hsub.trans List.erase_sublist, hfound, hrest⟩

/-- What is gone was found by a request. -/
theorem taken (h : Removes Finds requests l l') {a : α} (ha : a ∈ l) (ha' : a ∉ l') :
    ∃ r ∈ requests, ∃ l₁, l₁.Sublist l ∧ Finds r l₁ a ∧ l'.Sublist (l₁.erase a) := by
  induction h with
  | nil l => exact absurd ha ha'
  | cons found rest ih =>
    rename_i r requests l l' b
    by_cases heq : a = b
    · subst heq
      exact ⟨r, by simp, l, List.Sublist.refl l, found, rest.sublist⟩
    · obtain ⟨r', hr', l₁, hsub, hfound, hrest⟩ := ih ((List.mem_erase_of_ne heq).2 ha) ha'
      exact ⟨r', by simp [hr'], l₁, hsub.trans List.erase_sublist, hfound, hrest⟩

/-- **Run**: an invariant of the requests to come and of what is there. -/
theorem invariant {I : List ρ → List α → Prop}
    (hstep : ∀ r requests l a, I (r :: requests) l → Finds r l a → I requests (l.erase a))
    (h : Removes Finds requests l l') (hI : I (requests ++ requests') l) : I requests' l' := by
  induction h with
  | nil l => exact hI
  | cons found rest ih => exact ih (hstep _ _ _ _ hI found)

/-- Exactly the elements that should go are gone. -/
theorem eq_filter (hfinds : ∀ r l a, Finds r l a → a ∈ l) {goes : α → Bool}
    (h : Removes Finds requests l l') (hcount : requests.length = (l.filter goes).length)
    (hkeep : l'.filter (fun a => !goes a) = l.filter fun a => !goes a) :
    l' = l.filter fun a => !goes a := by
  have hlength := h.length hfinds
  have hsplit := List.length_eq_length_filter_add (l := l) goes
  have hall : (l'.filter fun a => !goes a).length = l'.length := by
    rw [hkeep]
    omega
  rw [← hkeep]
  exact (List.filter_sublist.eq_of_length hall).symm

end Removes

end Framework
