import Linglong.Generators.Container

/-! # Straight Mounts

    Where a mount lands depends on the mounts before it, because links in the
    destination are followed as they are then. If no destination meets a
    link, whichever of the mounts were made before, all of them land where
    their destinations say (`Plain.lands`).

    1. What a place may show (`MayShow`).
    2. Destinations without links (`Straight`).
    3. The containers that such mounts make (`Plain.apply`).
    4. No links at all (`LinkFree.straight`).
-/

namespace Linglong

namespace Generators

open Framework

namespace Container

/-! ## Section 1: What a place may show -/

/-- The place that a destination says. -/
def target (m : OciMount) : List String := lexical [] (pathSteps m.destination)

variable (cwd : List String) (c₀ : Container) (ms : List OciMount)

/-- The place of the host that a source leads to, once nothing is missing on
    the way. -/
def LeadsTo (m : OciMount) (p : List String) : Prop :=
  resolve c₀.host.completed cwd (!m.options.contains "copy-symlink") m.source = .ok p

/-- What a place may show after some of the mounts: what it showed before,
    or a file in the source of a mount at this place or above it. -/
def MayShow (q : List String) (o : Object) : Prop :=
  o = c₀.tree.view q ∨ ∃ m ∈ ms, ∃ p rest, LeadsTo cwd c₀ m p ∧ q = target m ++ rest ∧
    o = .host (p ++ rest)

/-- One of these objects is a link. -/
def MayLink (q : List String) : Prop :=
  ∃ o, MayShow cwd c₀ ms q o ∧ ∃ absolute steps, c₀.tree.store o = some (.link absolute steps)

/-- All of these objects are directories. -/
def Solid (q : List String) : Prop :=
  ∀ o, MayShow cwd c₀ ms q o → c₀.tree.store o = some .dir

/-! ## Section 2: Destinations without links -/

/-- No destination meets a link, and no source is one. -/
structure Straight : Prop where
  bind : ∀ m ∈ ms, m.type ≠ "tmpfs"
  source : ∀ m ∈ ms, ∀ p, LeadsTo cwd c₀ m p → ¬ c₀.host.LinkAt p
  destination : ∀ m ∈ ms, ∀ q ∈ visited [] (pathSteps m.destination), ¬ MayLink cwd c₀ ms q

/-- A container that some of the mounts have made. -/
structure Plain (c : Container) : Prop where
  shows : ∀ q, MayShow cwd c₀ ms q (c.tree.view q)
  kept : ∀ o x, c₀.tree.store o = some x → c.tree.store o = some x
  links : ∀ o absolute steps, c.tree.store o = some (.link absolute steps) →
    c₀.tree.store o = some (.link absolute steps)

/-! ## Section 3: Mounting -/

section Mounting

variable {cwd : List String} {c₀ c : Container} {ms : List OciMount} {m : OciMount}

theorem Plain.start : Plain cwd c₀ ms c₀ :=
  ⟨fun _ => .inl rfl, fun _ _ h => h, fun _ _ _ h => h⟩

/-- On the host there are more directories and files. -/
theorem Plain.fills (hc : Plain cwd c₀ ms c) : c₀.host.Fills c.host := by
  intro q x hx
  by_cases hq : q.isEmpty = true
  · rw [FileTree.node, if_pos hq] at hx ⊢
    exact .inl hx
  · rw [FileTree.node, if_neg hq] at hx ⊢
    change c.tree.store (.host q) = some x at hx
    change c₀.tree.store (.host q) = some x ∨ c₀.tree.store (.host q) = none ∧ _
    cases hold : c₀.tree.store (.host q) with
    | none =>
      refine .inr ⟨rfl, fun absolute steps heq => ?_⟩
      rw [heq] at hx
      rw [hc.links _ _ _ hx] at hold
      cases hold
    | some y =>
      rw [hc.kept _ _ hold] at hx
      exact .inl hx

theorem Plain.leadsTo (hc : Plain cwd c₀ ms c) {p : List String}
    (h : resolve c.host cwd (!m.options.contains "copy-symlink") m.source = .ok p) :
    LeadsTo cwd c₀ m p := by
  rw [LeadsTo]
  rw [resolve] at h ⊢
  by_cases hempty : m.source = ""
  · rw [if_pos hempty] at h
    cases h
  · rw [if_neg hempty] at h ⊢
    exact hc.fills.walk_completed h

theorem Plain.not_linkAt_host (hc : Plain cwd c₀ ms c) {p : List String}
    (h : ¬ c₀.host.LinkAt p) : ¬ c.host.LinkAt p := by
  rintro ⟨absolute, steps, hnode⟩
  rcases hc.fills p _ hnode with hold | ⟨-, hnew⟩
  · exact h ⟨absolute, steps, hold⟩
  · exact hnew absolute steps rfl

/-- What is mounted: a directory or a file, as no source is a link. -/
theorem Plain.source_cases (hs : Straight cwd c₀ ms) (hc : Plain cwd c₀ ms c) (hm : m ∈ ms) :
    c.source cwd m = .missing ∨ ∃ p isDir, c.source cwd m = .tree p isDir ∧
      LeadsTo cwd c₀ m p ∧ (isDir = true ↔ c.host.node p = some .dir) := by
  rcases Container.source_cases (hs.bind m hm) with hmissing | ⟨p, hpath, hkind⟩
  · exact .inl hmissing
  · have hleads := hc.leadsTo hpath
    rcases hkind with ⟨hsource, hnode⟩ | ⟨hsource, hnode⟩ | ⟨absolute, steps, -, hnode⟩
    · exact .inr ⟨p, true, hsource, hleads, by simp [hnode]⟩
    · exact .inr ⟨p, false, hsource, hleads, by simp [hnode]⟩
    · exact absurd ⟨absolute, steps, hnode⟩ (hc.not_linkAt_host (hs.source m hm p hleads))

theorem Plain.prepared_builds (hs : Straight cwd c₀ ms) (hc : Plain cwd c₀ ms c) (hm : m ∈ ms) :
    FileTree.Builds c.tree (c.prepared cwd m) := by
  refine makeDestination_builds _ _ fun absolute steps hlink => ?_
  rcases hc.source_cases hs hm with hmissing | ⟨p, isDir, htree, -⟩
  · rw [hmissing] at hlink
    cases hlink
  · rw [htree] at hlink
    cases hlink

theorem Plain.not_linkAt (hc : Plain cwd c₀ ms c) {t : FileTree Object String}
    (ht : FileTree.Builds c.tree t) {q : List String} (h : ¬ MayLink cwd c₀ ms q) :
    ¬ t.LinkAt q := by
  rintro ⟨absolute, steps, hnode⟩
  rw [FileTree.node] at hnode
  by_cases hq : q.isEmpty = true
  · rw [if_pos hq] at hnode
    cases hnode
  · rw [if_neg hq, ht.view] at hnode
    exact h ⟨c.tree.view q, hc.shows q, absolute, steps,
      hc.links _ _ _ (ht.links _ _ _ hnode)⟩

/-- A mount lands where its destination says, and shows its source there. -/
theorem Plain.lands (hs : Straight cwd c₀ ms) (hc : Plain cwd c₀ ms c) (hm : m ∈ ms)
    {place : List String} {f : List String → Object} (h : c.lands cwd m = some (place, f)) :
    place = target m ∧ ∃ p, LeadsTo cwd c₀ m p ∧ (f = fun rest => .host (p ++ rest)) ∧
      ((c.prepared cwd m).node place = some .dir ↔ c.host.node p = some .dir) := by
  have hbuilds := hc.prepared_builds hs hm
  obtain ⟨isDir, hshown, hwalk, hkind⟩ := lands_elim h
  rcases hc.source_cases hs hm with hmissing | ⟨p, isDir', htree, hleads, hisDir⟩
  · rw [hmissing] at hshown
    cases hshown
  · rw [htree] at hshown
    cases hshown
    refine ⟨FileTree.walk_lexical (fun q hq => ?_) hwalk, p, hleads, rfl, ?_⟩
    · exact hc.not_linkAt hbuilds (hs.destination m hm q hq)
    · rw [← hisDir, ← hkind, decide_eq_true_iff]

theorem Plain.apply (hs : Straight cwd c₀ ms) (hc : Plain cwd c₀ ms c) (hm : m ∈ ms) :
    Plain cwd c₀ ms (c.apply cwd m) := by
  have hbuilds := hc.prepared_builds hs hm
  refine ⟨fun q => ?_, fun o x hx => store_apply (hc.kept o x hx), fun o absolute steps ho => ?_⟩
  · rw [view_apply]
    cases hcovered : covered cwd q c m with
    | none => exact hc.shows q
    | some o =>
      obtain ⟨place, f, rest, hlands, rfl, rfl⟩ := covered_eq_some_iff.1 hcovered
      obtain ⟨rfl, p, hleads, rfl, -⟩ := hc.lands hs hm hlands
      exact .inr ⟨m, hm, p, rest, hleads, rfl, rfl⟩
  · rw [apply_store] at ho
    exact hc.links _ _ _ (hbuilds.links _ _ _ ho)

/-! ## Section 4: No links at all -/

/-- Neither the host nor the root file system has a link. -/
def LinkFree (c : Container) : Prop :=
  ∀ o absolute steps, c.tree.store o ≠ some (.link absolute steps)

theorem LinkFree.new {files rootfs : Files}
    (hfiles : ∀ p absolute steps, files p ≠ some (.link absolute steps))
    (hrootfs : ∀ p absolute steps, rootfs p ≠ some (.link absolute steps)) :
    LinkFree (new files rootfs) := by
  have hnode : ∀ (files : Files) (p : List String) (absolute : Bool)
      (steps : List (PathStep String)),
      (∀ p absolute steps, files p ≠ some (.link absolute steps)) →
      (hostTree files).node p ≠ some (.link absolute steps) := by
    intro files p absolute steps hfree hlink
    rw [FileTree.node] at hlink
    by_cases hp : p.isEmpty = true
    · rw [if_pos hp] at hlink
      cases hlink
    · rw [if_neg hp] at hlink
      exact hfree p absolute steps hlink
  intro o absolute steps
  cases o with
  | host p => exact hnode files p absolute steps hfiles
  | rootfs p => exact hnode rootfs p absolute steps hrootfs
  | tmpfs n p =>
    show (if p.isEmpty = true then some Node.dir else none) ≠ _
    split <;> simp

theorem LinkFree.not_linkAt_host (h : LinkFree c) (p : List String) : ¬ c.host.LinkAt p := by
  rintro ⟨absolute, steps, hnode⟩
  rw [FileTree.node] at hnode
  by_cases hp : p.isEmpty = true
  · rw [if_pos hp] at hnode
    cases hnode
  · rw [if_neg hp] at hnode
    exact h _ _ _ hnode

/-- A mount makes no link then. -/
theorem LinkFree.apply (h : LinkFree c) : LinkFree (c.apply cwd m) := by
  have hsource : ∀ absolute steps, c.source cwd m ≠ .link absolute steps := by
    intro absolute steps hlink
    by_cases htype : m.type = "tmpfs"
    · rw [source, if_pos htype] at hlink
      cases hlink
    · rcases Container.source_cases htype with
        hmissing | ⟨p, -, ⟨htree, -⟩ | ⟨htree, -⟩ | ⟨absolute', steps', -, hnode⟩⟩
      · rw [hmissing] at hlink
        cases hlink
      · rw [htree] at hlink
        cases hlink
      · rw [htree] at hlink
        cases hlink
      · exact h.not_linkAt_host p ⟨absolute', steps', hnode⟩
  intro o absolute steps ho
  rw [apply_store] at ho
  exact h o absolute steps ((makeDestination_builds _ _ hsource).links o absolute steps ho)

theorem LinkFree.straight (h : LinkFree c₀) (hbind : ∀ m ∈ ms, m.type ≠ "tmpfs") :
    Straight cwd c₀ ms where
  bind := hbind
  source := fun _ _ p _ => h.not_linkAt_host p
  destination := fun _ _ _ _ ⟨o, _, absolute, steps, hlink⟩ => h o absolute steps hlink

end Mounting

end Container

end Generators

end Linglong
