import Linglong.Runtime.FixMount
import Mathlib.Data.List.Induction

/-! # Performing Mounts

    What a container shows after its mounts have been performed in order.
    Where a path leads, and on which mount it is, is decided by the last mount
    at or above it; so mounts whose destination comes again can be left out.

    1. Performing mounts (`on_mountAll`, `shown_mountAll`).
    2. Without duplicates (`shown_left`, `on_left`).
-/

namespace Linglong.FixMount

open Framework
open Generators (OciMount)

/-! ## Section 1: Performing mounts -/

/-- What is at a path of the container. -/
inductive Shown where
  | nothing
  /-- An empty directory, made for a mount or by one. -/
  | made
  | host (place : Path)
  | other
  deriving DecidableEq

/-- The container while its mounts are performed: what is at a path, and the
    mount that the path is on, if it is not on the new root. -/
structure View where
  shown : Path → Shown
  on : Path → Option OciMount

/-- The path of the container that a mount goes to. -/
def target (m : OciMount) : Path := pathOf m.destination.toList

/-- What a mount has at a path below its target. -/
def content (m : OciMount) (rest : Path) : Shown :=
  if m.type = "tmpfs" then if rest = [] then .made else .nothing
  else if m.type = "bind" then .host (pathOf m.source.toList ++ rest)
  else .other

/-- One mount. Directories are made for its target where nothing is. -/
def View.mount (v : View) (m : OciMount) : View where
  shown x :=
    if target m <+: x then content m (x.drop (target m).length)
    else if x <+: target m ∧ v.shown x = .nothing then .made
    else v.shown x
  on x := if target m <+: x then some m else v.on x

/-- The new root. -/
def View.empty : View where
  shown x := if x = [] then .made else .nothing
  on _ := none

def mountAll (mounts : List OciMount) : View := mounts.foldl View.mount View.empty

section Views

variable {x : Path}

theorem mountAll_concat (l : List OciMount) (m : OciMount) :
    mountAll (l ++ [m]) = (mountAll l).mount m := by
  rw [mountAll, List.foldl_append]
  rfl

/-- **Run**: a path is on the last mount that covers it. -/
theorem on_mountAll (l : List OciMount) :
    (mountAll l).on x = (l.filter fun m => target m <+: x).getLast? := by
  induction l using List.reverseRecOn with
  | nil => rfl
  | append_singleton l m ih =>
    rw [mountAll_concat, List.filter_append]
    by_cases hm : target m <+: x
    · rw [List.filter_cons_of_pos (by simpa using hm), List.filter_nil,
        List.getLast?_append_of_ne_nil _ (by simp)]
      exact if_pos hm
    · rw [List.filter_cons_of_neg (by simpa using hm), List.filter_nil, List.append_nil, ← ih]
      exact if_neg hm

theorem on_mountAll_of_last {pre post : List OciMount} {m : OciMount} (hm : target m <+: x)
    (hpost : ∀ m' ∈ post, ¬ target m' <+: x) : (mountAll (pre ++ m :: post)).on x = some m := by
  have hnil : post.filter (fun m => target m <+: x) = [] :=
    List.filter_eq_nil_iff.2 fun m' hm' => by simpa using hpost m' hm'
  rw [on_mountAll, List.filter_append, List.filter_cons_of_pos (by simpa using hm), hnil,
    List.getLast?_append_of_ne_nil _ (by simp)]
  rfl

theorem on_mountAll_of_none {l : List OciMount} (hl : ∀ m ∈ l, ¬ target m <+: x) :
    (mountAll l).on x = none := by
  rw [on_mountAll, List.filter_eq_nil_iff.2 fun m hm => by simpa using hl m hm]
  rfl

/-- What mounts that do not cover a path change: a directory may be made. -/
theorem shown_foldl (l : List OciMount) : ∀ {v : View} {shown : Shown}, v.shown x = shown →
    (∀ m ∈ l, ¬ target m <+: x) → (l.foldl View.mount v).shown x =
      if shown = .nothing ∧ ∃ m ∈ l, x <+: target m then .made else shown := by
  induction l with
  | nil =>
    intro v shown hv _
    simp [hv]
  | cons m l ih =>
    intro v shown hv hl
    have hrest := fun m hm => hl m (List.mem_cons_of_mem _ hm)
    have hstep : (v.mount m).shown x =
        if x <+: target m ∧ v.shown x = .nothing then .made else v.shown x :=
      if_neg (hl m List.mem_cons_self)
    rw [hv] at hstep
    rw [List.foldl_cons, ih hstep hrest]
    by_cases hshown : shown = .nothing
    · by_cases hm : x <+: target m <;> simp [hshown, hm]
    · simp [hshown]

/-- **Run**: what is at a path, by the last mount that covers it. -/
theorem shown_mountAll {pre post : List OciMount} {m : OciMount} (hm : target m <+: x)
    (hpost : ∀ m' ∈ post, ¬ target m' <+: x) :
    (mountAll (pre ++ m :: post)).shown x =
      if content m (x.drop (target m).length) = .nothing ∧ ∃ m' ∈ post, x <+: target m' then .made
      else content m (x.drop (target m).length) := by
  rw [mountAll, List.foldl_append, List.foldl_cons]
  exact shown_foldl post (if_pos hm) hpost

theorem shown_mountAll_of_none {l : List OciMount} (hl : ∀ m ∈ l, ¬ target m <+: x)
    (hx : x ≠ []) :
    (mountAll l).shown x = if ∃ m ∈ l, x <+: target m then .made else .nothing := by
  rw [mountAll, shown_foldl l (v := View.empty) (if_neg hx) hl]
  simp

/-! ## Section 2: Without duplicates -/

/-- The mounts that `fixMount` leaves. -/
abbrev left (l : List OciMount) : List OciMount := lastOf OciMount.destination l

theorem target_eq {m m' : OciMount} (h : m.destination = m'.destination) : target m = target m' := by
  rw [target, target, h]

/-- Each mount that is removed has one with the same target later. -/
theorem exists_left {l : List OciMount} {P : Path → Prop} :
    (∃ m ∈ left l, P (target m)) ↔ ∃ m ∈ l, P (target m) := by
  constructor
  · rintro ⟨m, hm, h⟩
    exact ⟨m, (lastOf_sublist OciMount.destination l).subset hm, h⟩
  · rintro ⟨m, hm, h⟩
    obtain ⟨m', hm', heq⟩ := List.mem_map.1
      (mem_map_lastOf.2 (List.mem_map_of_mem (f := OciMount.destination) hm))
    exact ⟨m', hm', by rwa [target_eq heq]⟩

/-- The last mount that covers a path is left. -/
theorem left_split (pre : List OciMount) {post : List OciMount} {m : OciMount} (hm : target m <+: x)
    (hpost : ∀ m' ∈ post, ¬ target m' <+: x) :
    ∃ pre', left (pre ++ m :: post) = pre' ++ m :: left post := by
  have hnot : m.destination ∉ post.map OciMount.destination := by
    intro hmem
    obtain ⟨m', hm', heq⟩ := List.mem_map.1 hmem
    exact hpost m' hm' (by rwa [target_eq heq])
  refine ⟨(left pre).filter fun a => a.destination ∉ (m :: post).map OciMount.destination, ?_⟩
  rw [left, lastOf_append, lastOf_cons, if_neg hnot]

theorem not_covers_left {l : List OciMount} (h : ∀ m ∈ l, ¬ target m <+: x) :
    ∀ m ∈ left l, ¬ target m <+: x := fun m hm =>
  h m ((lastOf_sublist OciMount.destination l).subset hm)

/-- **What is left** shows the same. -/
theorem shown_left {pre post : List OciMount} {m : OciMount} (hm : target m <+: x)
    (hpost : ∀ m' ∈ post, ¬ target m' <+: x) :
    (mountAll (left (pre ++ m :: post))).shown x =
      if content m (x.drop (target m).length) = .nothing ∧ ∃ m' ∈ post, x <+: target m' then .made
      else content m (x.drop (target m).length) := by
  obtain ⟨pre', heq⟩ := left_split pre hm hpost
  rw [heq, shown_mountAll hm (not_covers_left hpost)]
  simp only [exists_left (P := fun q => x <+: q)]

theorem on_left {pre post : List OciMount} {m : OciMount} (hm : target m <+: x)
    (hpost : ∀ m' ∈ post, ¬ target m' <+: x) :
    (mountAll (left (pre ++ m :: post))).on x = some m := by
  obtain ⟨pre', heq⟩ := left_split pre hm hpost
  rw [heq]
  exact on_mountAll_of_last hm (not_covers_left hpost)

/-- The later mounts decide, if one of them covers the path. -/
theorem on_append (l l' : List OciMount) :
    (mountAll (l ++ l')).on x = ((mountAll l').on x).or ((mountAll l).on x) := by
  rw [on_mountAll, on_mountAll, on_mountAll, List.filter_append, List.getLast?_append]

/-- Some mounts that are inserted are removed for mounts of the configuration;
    what comes before one of these are the others and such mounts. -/
theorem exists_split {l mounts before after : List OciMount} {m' : OciMount}
    (hsplit : left (l ++ mounts) = before ++ m' :: after)
    (hm' : m'.destination ∈ mounts.map OciMount.destination) :
    ∃ more, before = (left l).filter (fun a => a.destination ∉ mounts.map OciMount.destination) ++
      more ∧ left mounts = more ++ m' :: after := by
  rw [left, lastOf_append] at hsplit
  rcases List.append_eq_append_iff.1 hsplit with ⟨more, hbefore, hrest⟩ | ⟨more, hfirst, hrest⟩
  · exact ⟨more, hbefore, hrest⟩
  · cases more with
    | nil =>
      refine ⟨[], ?_, hrest.symm⟩
      rw [List.append_nil]
      rw [List.append_nil] at hfirst
      exact hfirst.symm
    | cons a more =>
      -- what is inserted and left has other destinations
      have ha : m' ∈ (lastOf OciMount.destination l).filter fun a =>
          a.destination ∉ mounts.map OciMount.destination := by
        rw [hfirst, (List.cons.inj hrest).1]
        simp
      have hnot : m'.destination ∉ mounts.map OciMount.destination := by
        simpa using (List.mem_filter.1 ha).2
      exact absurd hm' hnot

theorem shown_left_of_none {l : List OciMount} (hl : ∀ m ∈ l, ¬ target m <+: x) (hx : x ≠ []) :
    (mountAll (left l)).shown x = if ∃ m ∈ l, x <+: target m then .made else .nothing := by
  rw [shown_mountAll_of_none (not_covers_left hl) hx]
  simp only [exists_left (P := fun q => x <+: q)]

/-- From a mount of the configuration on, there are only such mounts. -/
theorem mem_of_split {l mounts before after : List OciMount} {m' : OciMount}
    (hsplit : left (l ++ mounts) = before ++ m' :: after)
    (hm' : m'.destination ∈ mounts.map OciMount.destination) : ∀ m ∈ m' :: after, m ∈ mounts := by
  obtain ⟨more, -, hrest⟩ := exists_split hsplit hm'
  intro m hm
  have hleft : m ∈ left mounts := by
    rw [hrest]
    exact List.mem_append_right _ hm
  exact (lastOf_sublist OciMount.destination mounts).subset hleft

theorem on_left_of_none {l : List OciMount} (hl : ∀ m ∈ l, ¬ target m <+: x) :
    (mountAll (left l)).on x = none :=
  on_mountAll_of_none (not_covers_left hl)

end Views

end Linglong.FixMount
