import Linglong.Framework.Lookup
import Mathlib.Data.List.Basic
import Mathlib.Data.List.Infix

/-! # Trees as Lists of Entries

    A tree kept as the list of its entries: pairs of a path below some
    directory and what is there. One kind of entry is the directory. The
    empty path is the directory itself and has no entry.

    * `lookup_concat`: a new entry.
    * `mkdirs`: what `mkdir -p` does if no link is on the way.
    * `Closed`: what is above an entry is a directory (`closed_of_take`).
    * `lookup_mkdirs_cases`: only directories on the way are new.
    * `lookup_mkdirs`: they are all there unless something is in the way.
    * `Closed.mkdirs`, `Closed.concat`, `Closed.filter`: a tree stays closed.
-/

namespace Framework

universe u v

variable {N : Type u} {E : Type v}

/-! ## Section 1: Paths -/

/-- Prefixes of a path with one more name. -/
theorem prefix_step {here rest p : List N} {name : N} (h : here <+: p) (hne : p ≠ here)
    (hp : p <+: here ++ name :: rest) : here ++ [name] <+: p := by
  obtain ⟨more, rfl⟩ := h
  obtain ⟨tail, htail⟩ := hp
  rw [List.append_assoc] at htail
  cases more with
  | nil => exact absurd (List.append_nil here) hne
  | cons c more =>
    have hhead := List.append_cancel_left htail
    rw [List.cons_append, List.cons.injEq] at hhead
    rw [hhead.1]
    exact ⟨more, by simp⟩

theorem append_cons_eq (here rest : List N) (name : N) :
    here ++ name :: rest = here ++ [name] ++ rest := by simp

/-! ## Section 2: Entries -/

section Entries

variable [BEq N] (dir : E)

/-- What is at a path. -/
def entryAt (tree : List (List N × E)) (p : List N) : Option E :=
  if p = [] then some dir else tree.lookup p

/-- What is above an entry is a directory. -/
def Closed (tree : List (List N × E)) : Prop :=
  ∀ p e, tree.lookup p = some e → ∀ q, q <+: p → q ≠ [] → q ≠ p → tree.lookup q = some dir

variable {dir}

theorem entryAt_of_ne_nil {tree : List (List N × E)} {p : List N} (h : p ≠ []) :
    entryAt dir tree p = tree.lookup p := if_neg h

variable [LawfulBEq N] [DecidableEq N]

omit [DecidableEq N] in
/-- A tree is closed if each of its entries is in directories. -/
theorem closed_of_take {tree : List (List N × E)}
    (h : ∀ x ∈ tree, ∀ n < x.1.length, n ≠ 0 → tree.lookup (x.1.take n) = some dir) :
    Closed dir tree := by
  intro p e he q hq hnil hne
  obtain ⟨before, after, heq, -⟩ := List.lookup_eq_some_iff.1 he
  have hmem : (p, e) ∈ tree := by
    rw [heq]
    simp
  have hlen : q.length < p.length := by
    rcases Nat.lt_or_ge q.length p.length with hlt | hge
    · exact hlt
    · exact absurd (hq.eq_of_length_le hge) hne
  rw [List.prefix_iff_eq_take.1 hq]
  exact h _ hmem q.length hlen fun hzero => hnil (List.length_eq_zero_iff.1 hzero)

/-- An entry of a path that has none. -/
theorem lookup_concat {tree : List (List N × E)} {p : List N} (h : tree.lookup p = none) (e : E)
    (q : List N) : (tree ++ [(p, e)]).lookup q = if q = p then some e else tree.lookup q := by
  rw [List.lookup_append]
  split
  · next heq =>
    rw [heq, h, Option.none_or, List.lookup_cons_self]
  · next hne =>
    have hbeq : (q == p) = false := by simpa using hne
    rw [List.lookup_cons, hbeq, List.lookup_nil, Option.or_none]

/-- **Trees**: a new entry in a directory. -/
theorem Closed.concat {tree : List (List N × E)} (h : Closed dir tree) {p : List N} {e : E}
    (hnone : tree.lookup p = none)
    (hp : ∀ q, q <+: p → q ≠ [] → q ≠ p → tree.lookup q = some dir) :
    Closed dir (tree ++ [(p, e)]) := by
  have hkeep : ∀ q, tree.lookup q = some dir → (tree ++ [(p, e)]).lookup q = some dir := by
    intro q hq
    rw [lookup_concat hnone, if_neg]
    · exact hq
    · rintro rfl
      rw [hnone] at hq
      cases hq
  intro q e' hq q' hq' hnil hne
  rw [lookup_concat hnone] at hq
  split at hq
  · next heq =>
    subst heq
    exact hkeep q' (hp q' hq' hnil hne)
  · exact hkeep q' (h q e' hq q' hq' hnil hne)

omit [DecidableEq N] in
/-- **Trees**: entries are taken out, and what is above a kept one is kept. -/
theorem Closed.filter {tree : List (List N × E)} (h : Closed dir tree) (keep : List N → Bool)
    (hkeep : ∀ p q, tree.lookup p ≠ none → keep p = true → q <+: p → q ≠ [] → q ≠ p →
      keep q = true) :
    Closed dir (tree.filter fun x => keep x.1) := by
  intro p e hp q hq hnil hne
  rw [lookup_filter_key] at hp
  obtain ⟨hkept, hlookup⟩ := Option.ite_none_right_eq_some.1 hp
  rw [lookup_filter_key, if_pos (hkeep p q (by simp [hlookup]) hkept hq hnil hne)]
  exact h p e hlookup q hq hnil hne

end Entries

/-! ## Section 3: Directories on the way -/

variable [BEq N] [LawfulBEq N] [DecidableEq N] [DecidableEq E] (dir : E)

/-- `mkdir -p` from some directory on. -/
def mkdirs : List (List N × E) → List N → List N → List (List N × E)
  | tree, _, [] => tree
  | tree, here, name :: rest =>
      match tree.lookup (here ++ [name]) with
      | none => mkdirs (tree ++ [(here ++ [name], dir)]) (here ++ [name]) rest
      | some e => if e = dir then mkdirs tree (here ++ [name]) rest else tree

variable {dir}

variable (dir) in
/-- **Cases**: an entry is as before, or a directory on the way is new. -/
theorem lookup_mkdirs_cases (tree : List (List N × E)) (here rest p : List N) :
    (mkdirs dir tree here rest).lookup p = tree.lookup p ∨
      (tree.lookup p = none ∧ p ≠ [] ∧ p <+: here ++ rest ∧
        (mkdirs dir tree here rest).lookup p = some dir) := by
  induction rest generalizing tree here with
  | nil => exact .inl rfl
  | cons name rest ih =>
    rw [append_cons_eq]
    unfold mkdirs
    cases hlookup : tree.lookup (here ++ [name]) with
    | none =>
      rcases ih (tree ++ [(here ++ [name], dir)]) (here ++ [name]) with heq | ⟨hnone, hnil, hp, heq⟩
      · rw [lookup_concat hlookup] at heq
        split at heq
        · next hp =>
          subst hp
          exact .inr ⟨hlookup, by simp, List.prefix_append _ _, heq⟩
        · exact .inl heq
      · rw [lookup_concat hlookup] at hnone
        split at hnone
        · cases hnone
        · exact .inr ⟨hnone, hnil, hp, heq⟩
    | some e =>
      dsimp only
      split
      · exact ih tree (here ++ [name])
      · exact .inl rfl

/-- What is there stays. -/
theorem lookup_mkdirs_of_some {tree : List (List N × E)} {p : List N} {e : E}
    (h : tree.lookup p = some e) (here rest : List N) :
    (mkdirs dir tree here rest).lookup p = some e := by
  rcases lookup_mkdirs_cases dir tree here rest p with heq | ⟨hnone, -⟩
  · rw [heq, h]
  · rw [h] at hnone
    cases hnone

/-- **The way**: unless something is in the way, there is a directory at each
    place on it. -/
theorem lookup_mkdirs {tree : List (List N × E)} {here rest : List N}
    (h : ∀ q, here <+: q → q ≠ here → q <+: here ++ rest →
      tree.lookup q = none ∨ tree.lookup q = some dir) {p : List N} (hp : here <+: p)
    (hne : p ≠ here) (hrest : p <+: here ++ rest) :
    (mkdirs dir tree here rest).lookup p = some dir := by
  induction rest generalizing tree here with
  | nil =>
    rw [List.append_nil] at hrest
    exact absurd (hrest.eq_of_length_le hp.length_le) hne
  | cons name rest ih =>
    have hstep := prefix_step hp hne hrest
    have hhere : here <+: here ++ [name] := List.prefix_append _ _
    rw [append_cons_eq] at hrest h
    have hfirst := h (here ++ [name]) hhere (by simp) (List.prefix_append _ _)
    have hbelow : ∀ q, here ++ [name] <+: q → q ≠ here ++ [name] → q <+: here ++ [name] ++ rest →
        tree.lookup q = none ∨ tree.lookup q = some dir := by
      intro q hq _ hq'
      refine h q (hhere.trans hq) (fun heq => ?_) hq'
      rw [heq] at hq
      have hlen := hq.length_le
      rw [List.length_append, List.length_singleton] at hlen
      omega
    unfold mkdirs
    rcases hfirst with hnone | hdir
    · rw [hnone]
      dsimp only
      by_cases heq : p = here ++ [name]
      · refine lookup_mkdirs_of_some ?_ _ _
        rw [lookup_concat hnone, if_pos heq]
      · refine ih (fun q hq hq' hq'' => ?_) hstep heq hrest
        rw [lookup_concat hnone, if_neg hq']
        exact hbelow q hq hq' hq''
    · rw [hdir]
      dsimp only
      rw [if_pos rfl]
      by_cases heq : p = here ++ [name]
      · refine lookup_mkdirs_of_some ?_ _ _
        rw [heq, hdir]
      · exact ih hbelow hstep heq hrest

/-- **Trees**: directories made on the way. -/
theorem Closed.mkdirs {tree : List (List N × E)} (h : Closed dir tree) {here : List N}
    (hhere : ∀ q, q <+: here → q ≠ [] → tree.lookup q = some dir) (rest : List N) :
    Closed dir (mkdirs dir tree here rest) := by
  induction rest generalizing tree here with
  | nil => exact h
  | cons name rest ih =>
    have hsplit : ∀ q, q <+: here ++ [name] → q ≠ here ++ [name] → q <+: here := by
      intro q hq hne
      rcases List.prefix_concat_iff.1 hq with heq | hq
      · exact absurd heq hne
      · exact hq
    unfold Framework.mkdirs
    cases hlookup : tree.lookup (here ++ [name]) with
    | none =>
      have hclosed : Closed dir (tree ++ [(here ++ [name], dir)]) :=
        h.concat hlookup fun q hq hnil hne => hhere q (hsplit q hq hne) hnil
      refine ih hclosed fun q hq hnil => ?_
      rw [lookup_concat hlookup]
      split
      · rfl
      · next hne => exact hhere q (hsplit q hq hne) hnil
    | some e =>
      dsimp only
      split
      · next hdir =>
        refine ih h fun q hq hnil => ?_
        by_cases hne : q = here ++ [name]
        · rw [hne, hlookup, hdir]
        · exact hhere q (hsplit q hq hne) hnil
      · exact h

end Framework
