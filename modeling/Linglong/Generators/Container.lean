import Linglong.Framework.StraightPath

/-! # Mounts of a Container

    What the mounts of an OCI configuration do. The source of a mount is a
    path of the host, its destination a path of the container. A destination
    that is missing is made, links in it are followed, and then the source is
    shown there. A mount that fails is left out.

    1. Paths of files.
    2. The container, and one mount (`apply`).
    3. What is seen at a place after a mount (`view_apply`).
    4. What a mount leaves as it is.
-/

namespace Linglong

namespace Generators

open Framework

/-! ## Section 1: Paths -/

/-- One component; an empty one comes from two slashes, or from one at the
    beginning or the end. -/
def pathStep (s : List Char) : PathStep String :=
  if s = [] ∨ s = ['.'] then .stay
  else if s = ['.', '.'] then .up
  else .down (String.ofList s)

/-- The components of a path. -/
def pathSteps (s : String) : List (PathStep String) := (s.toList.splitOn '/').map pathStep

/-- `is_absolute`. -/
def isAbsolute (s : String) : Bool := s.toList.head? = some '/'

/-- The limit of Linux on links in a path. -/
def maxSymlinks : Nat := 40

/-- The file a path names for a process in the directory `cwd`. -/
def resolve (t : FileTree (List String) String) (cwd : List String) (follow : Bool) (path : String) :
    Except Errno (List String) :=
  if path = "" then .error .noent
  else t.walk follow maxSymlinks (if isAbsolute path then [] else cwd) (pathSteps path)

/-- A file system, by what is at its places. -/
abbrev Files := List String → Option (Node String)

/-- The host, where every place shows itself. -/
def hostTree (files : Files) : FileTree (List String) String := ⟨id, files⟩

/-- A path that leads somewhere leads there as long as no file gets lost. -/
theorem resolve_mono {t t' : FileTree (List String) String}
    (h : ∀ p x, t.node p = some x → t'.node p = some x) {cwd : List String} {follow : Bool}
    {path : String} {p : List String} (hpath : resolve t cwd follow path = .ok p) :
    resolve t' cwd follow path = .ok p := by
  rw [resolve] at hpath ⊢
  by_cases hempty : path = ""
  · rw [if_pos hempty] at hpath
    cases hpath
  · rw [if_neg hempty] at hpath ⊢
    exact FileTree.walk_mono h hpath

/-! ## Section 2: Containers -/

/-- A file the container may show: one of the host, of the root file system
    or of the `n`-th `tmpfs`. -/
inductive Object where
  | host (p : List String)
  | rootfs (p : List String)
  | tmpfs (n : Nat) (p : List String)
  deriving DecidableEq

structure Container where
  tree : FileTree Object String
  tmpfsCount : Nat

/-- An element of `mounts`. -/
structure OciMount where
  destination : String
  options : List String
  source : String
  type : String
  deriving DecidableEq

namespace Container

/-- The container with its root file system only; a `tmpfs` is empty. -/
def new (files rootfs : Files) : Container where
  tree :=
    { view := .rootfs
      store := fun
        | .host p => (hostTree files).node p
        | .rootfs p => (hostTree rootfs).node p
        | .tmpfs _ p => if p.isEmpty then some .dir else none }
  tmpfsCount := 0

/-- The host, which the container may have changed. -/
def host (c : Container) : FileTree (List String) String := hostTree fun p => c.tree.store (.host p)

/-- What a mount has to show. -/
inductive Source where
  | tmpfs
  | tree (p : List String) (isDir : Bool)
  | link (absolute : Bool) (target : List (PathStep String))
  | missing
  deriving DecidableEq

/-- The source of a mount, looked up on the host. Only `copy-symlink` does
    not follow a link. -/
def source (cwd : List String) (c : Container) (m : OciMount) : Source :=
  if m.type = "tmpfs" then .tmpfs
  else
    match resolve c.host cwd (!m.options.contains "copy-symlink") m.source with
    | .error _ => .missing
    | .ok p =>
        match c.host.node p with
        | some .dir => .tree p true
        | some .file => .tree p false
        | some (.link absolute target) => .link absolute target
        | none => .missing

/-- A new object at a path, if nothing is there. -/
def makeLast (t : FileTree Object String) (steps : List (PathStep String)) (x : Node String) :
    FileTree Object String :=
  match steps.getLast? with
  | some (.down n) =>
      match t.walk true maxSymlinks [] steps.dropLast with
      | .ok q => if t.node (q ++ [n]) = none then t.make (q ++ [n]) x else t
      | .error _ => t
  | _ => t

/-- The destination is made: a directory for a directory, a file for a file
    and a link for a link. -/
def makeDestination (t : FileTree Object String) (steps : List (PathStep String)) :
    Source → FileTree Object String
  | .tmpfs | .tree _ true => (t.makeDirs maxSymlinks [] steps).1
  | .tree _ false => makeLast (t.makeDirs maxSymlinks [] steps.dropLast).1 steps .file
  | .link absolute target =>
      makeLast (t.makeDirs maxSymlinks [] steps.dropLast).1 steps (.link absolute target)
  | .missing => t

/-- What is shown below the place of a mount, and whether it is a
    directory. -/
def shown (c : Container) : Source → Option (Bool × (List String → Object))
  | .tmpfs => some (true, .tmpfs c.tmpfsCount)
  | .tree p isDir => some (isDir, fun rest => .host (p ++ rest))
  | .link _ _ | .missing => none

/-- The tree before the mount is made. -/
def prepared (cwd : List String) (c : Container) (m : OciMount) : FileTree Object String :=
  makeDestination c.tree (pathSteps m.destination) (c.source cwd m)

/-- The place a mount lands at, and what it shows there. Only a directory is
    mounted on a directory. -/
def lands (cwd : List String) (c : Container) (m : OciMount) :
    Option (List String × (List String → Object)) :=
  match c.shown (c.source cwd m) with
  | none => none
  | some (isDir, f) =>
      match (c.prepared cwd m).walk true maxSymlinks [] (pathSteps m.destination) with
      | .error _ => none
      | .ok place =>
          if decide ((c.prepared cwd m).node place = some .dir) = isDir then some (place, f)
          else none

/-- One mount. -/
def apply (cwd : List String) (c : Container) (m : OciMount) : Container where
  tree :=
    match c.lands cwd m with
    | some (place, f) => (c.prepared cwd m).graft place f
    | none => c.prepared cwd m
  tmpfsCount := if c.source cwd m = .tmpfs then c.tmpfsCount + 1 else c.tmpfsCount

/-- All mounts, in order. -/
def applyAll (cwd : List String) (c : Container) (ms : List OciMount) : Container :=
  ms.foldl (apply cwd) c

/-! ## Section 3: What a place shows -/

/-- The mount lands at `d` or above it, and then `d` shows `o`. -/
def Covers (cwd : List String) (c : Container) (m : OciMount) (d : List String) (o : Object) :
    Prop :=
  ∃ place f rest, c.lands cwd m = some (place, f) ∧ d = place ++ rest ∧ f rest = o

/-- The mount lands neither at `d` nor above it. -/
def Apart (cwd : List String) (c : Container) (m : OciMount) (d : List String) : Prop :=
  ∀ place f, c.lands cwd m = some (place, f) → ¬ place <+: d

/-- The path leads to a place that shows `o`. -/
def Shows (c : Container) (path : String) (o : Object) : Prop :=
  ∃ d, c.tree.walk true maxSymlinks [] (pathSteps path) = .ok d ∧ c.tree.view d = o

/-- What a mount shows at `d`, if it covers it. -/
def covered (cwd : List String) (d : List String) (c : Container) (m : OciMount) :
    Option Object :=
  match c.lands cwd m with
  | some (place, f) => (place.isPrefixOf? d).map f
  | none => none

section Grows

variable {cwd : List String} {c : Container} {m : OciMount} {d : List String} {o : Object}

theorem makeLast_cases (t : FileTree Object String) (steps : List (PathStep String))
    (x : Node String) : makeLast t steps x = t ∨
      ∃ p, p ≠ [] ∧ t.node p = none ∧ makeLast t steps x = t.make p x := by
  rw [makeLast]
  cases steps.getLast? with
  | none => exact .inl rfl
  | some step =>
    cases step with
    | stay => exact .inl rfl
    | up => exact .inl rfl
    | down n =>
      dsimp only
      cases t.walk true maxSymlinks [] steps.dropLast with
      | error e => exact .inl rfl
      | ok q =>
        dsimp only
        by_cases hnone : t.node (q ++ [n]) = none
        · rw [if_pos hnone]
          exact .inr ⟨q ++ [n], by simp, hnone, rfl⟩
        · rw [if_neg hnone]
          exact .inl rfl

theorem makeLast_grows (t : FileTree Object String) (steps : List (PathStep String))
    (x : Node String) : FileTree.Grows t (makeLast t steps x) := by
  rcases makeLast_cases t steps x with hsame | ⟨p, hp, hnone, hmake⟩
  · rw [hsame]
    exact .refl t
  · rw [hmake]
    exact FileTree.grows_make hp hnone x

theorem makeDestination_builds (t : FileTree Object String) (steps : List (PathStep String))
    {s : Source} (hs : ∀ absolute target, s ≠ .link absolute target) :
    FileTree.Builds t (makeDestination t steps s) := by
  cases s with
  | tmpfs => exact FileTree.makeDirs_builds _ t _ _
  | tree p isDir =>
    cases isDir with
    | true => exact FileTree.makeDirs_builds _ t _ _
    | false =>
      have hdirs := FileTree.makeDirs_builds maxSymlinks t [] steps.dropLast
      rcases makeLast_cases (t.makeDirs maxSymlinks [] steps.dropLast).1 steps .file with
        hsame | ⟨q, hq, hnone, hmake⟩
      · rw [makeDestination, hsame]
        exact hdirs
      · rw [makeDestination, hmake]
        exact hdirs.trans (FileTree.builds_make hq hnone (by simp))
  | link absolute target => exact absurd rfl (hs absolute target)
  | missing => exact .refl t

theorem makeDestination_grows (t : FileTree Object String) (steps : List (PathStep String))
    (s : Source) : FileTree.Grows t (makeDestination t steps s) := by
  cases s with
  | link absolute target => exact (FileTree.makeDirs_grows _ t _ _).trans (makeLast_grows _ _ _)
  | tmpfs => exact (makeDestination_builds t steps (by simp)).toGrows
  | tree p isDir => exact (makeDestination_builds t steps (by simp)).toGrows
  | missing => exact .refl t

theorem prepared_grows (cwd : List String) (c : Container) (m : OciMount) :
    FileTree.Grows c.tree (c.prepared cwd m) :=
  makeDestination_grows _ _ _

theorem covered_eq_some_iff : covered cwd d c m = some o ↔ Covers cwd c m d o := by
  rw [covered, Covers]
  cases hlands : c.lands cwd m with
  | none => simp
  | some landed =>
    obtain ⟨place, f⟩ := landed
    dsimp only
    constructor
    · intro h
      obtain ⟨rest, hrest, ho⟩ := Option.map_eq_some_iff.1 h
      exact ⟨place, f, rest, rfl, (List.isPrefixOf?_eq_some_iff_append_eq.1 hrest).symm, ho⟩
    · rintro ⟨place', f', rest, heq, rfl, ho⟩
      cases heq
      rw [List.isPrefixOf?_eq_some_iff_append_eq.2 rfl, Option.map_some, ho]

theorem covered_eq_none_iff : covered cwd d c m = none ↔ Apart cwd c m d := by
  constructor
  · intro h place f hlands hpre
    obtain ⟨rest, rfl⟩ := hpre
    have hsome : covered cwd (place ++ rest) c m = some (f rest) :=
      covered_eq_some_iff.2 ⟨place, f, rest, hlands, rfl, rfl⟩
    rw [h] at hsome
    cases hsome
  · intro h
    rw [Option.eq_none_iff_forall_ne_some]
    intro o ho
    obtain ⟨place, f, rest, hlands, rfl, -⟩ := covered_eq_some_iff.1 ho
    exact h place f hlands ⟨rest, rfl⟩

theorem view_apply (cwd : List String) (d : List String) (c : Container) (m : OciMount) :
    (c.apply cwd m).tree.view d = (covered cwd d c m).getD (c.tree.view d) := by
  have hview : (c.prepared cwd m).view = c.tree.view := (prepared_grows cwd c m).view
  rw [apply, covered]
  cases c.lands cwd m with
  | none => exact congrFun hview d
  | some landed =>
    obtain ⟨place, f⟩ := landed
    dsimp only
    cases hrest : place.isPrefixOf? d with
    | some rest =>
      obtain rfl := List.isPrefixOf?_eq_some_iff_append_eq.1 hrest
      exact FileTree.graft_view_append _ _ _ _
    | none =>
      have hnot : ¬ place <+: d := by
        rintro ⟨rest, rfl⟩
        rw [List.isPrefixOf?_eq_some_iff_append_eq.2 rfl] at hrest
        cases hrest
      rw [FileTree.graft_view_of_not_prefix _ _ hnot]
      exact congrFun hview d

end Grows

/-! ## Section 4: What stays -/

section Stays

variable {cwd : List String} {c : Container} {m : OciMount} {d : List String}

theorem apply_store (cwd : List String) (c : Container) (m : OciMount) :
    (c.apply cwd m).tree.store = (c.prepared cwd m).store := by
  rw [apply]
  cases c.lands cwd m with
  | none => rfl
  | some landed => rfl

theorem store_apply {o : Object} {x : Node String} (h : c.tree.store o = some x) :
    (c.apply cwd m).tree.store o = some x := by
  rw [apply_store]
  exact (prepared_grows cwd c m).store o x h

theorem Apart.above (h : Apart cwd c m d) {q : List String} (hq : q <+: d) : Apart cwd c m q :=
  fun place f hlands hpre => h place f hlands (hpre.trans hq)

theorem view_apply_of_apart (h : Apart cwd c m d) :
    (c.apply cwd m).tree.view d = c.tree.view d := by
  rw [view_apply, covered_eq_none_iff.2 h]
  rfl

theorem node_apply_of_apart (h : Apart cwd c m d) {x : Node String}
    (hx : c.tree.node d = some x) : (c.apply cwd m).tree.node d = some x := by
  rw [FileTree.node] at hx ⊢
  by_cases hd : d.isEmpty = true
  · rwa [if_pos hd] at hx ⊢
  · rw [if_neg hd] at hx ⊢
    rw [view_apply_of_apart h]
    exact store_apply hx

/-- What a source is: an object of the host. -/
theorem source_cases (htype : m.type ≠ "tmpfs") : c.source cwd m = .missing ∨
    ∃ p, resolve c.host cwd (!m.options.contains "copy-symlink") m.source = .ok p ∧
      ((c.source cwd m = .tree p true ∧ c.host.node p = some .dir) ∨
        (c.source cwd m = .tree p false ∧ c.host.node p = some .file) ∨
        ∃ absolute steps, c.source cwd m = .link absolute steps ∧
          c.host.node p = some (.link absolute steps)) := by
  rw [source, if_neg htype]
  cases resolve c.host cwd (!m.options.contains "copy-symlink") m.source with
  | error e => exact .inl rfl
  | ok p =>
    dsimp only
    cases hnode : c.host.node p with
    | none => exact .inl rfl
    | some x =>
      cases x with
      | dir => exact .inr ⟨p, rfl, .inl ⟨rfl, hnode⟩⟩
      | file => exact .inr ⟨p, rfl, .inr (.inl ⟨rfl, hnode⟩)⟩
      | link absolute steps => exact .inr ⟨p, rfl, .inr (.inr ⟨absolute, steps, rfl, hnode⟩)⟩

/-- What has to be so if a mount lands. -/
theorem lands_elim {place : List String} {f : List String → Object}
    (h : c.lands cwd m = some (place, f)) : ∃ isDir, c.shown (c.source cwd m) = some (isDir, f) ∧
      (c.prepared cwd m).walk true maxSymlinks [] (pathSteps m.destination) = .ok place ∧
      decide ((c.prepared cwd m).node place = some .dir) = isDir := by
  rw [lands] at h
  cases hshown : c.shown (c.source cwd m) with
  | none =>
    rw [hshown] at h
    cases h
  | some shown =>
    obtain ⟨isDir, f'⟩ := shown
    rw [hshown] at h
    dsimp only at h
    cases hwalk : (c.prepared cwd m).walk true maxSymlinks [] (pathSteps m.destination) with
    | error e =>
      rw [hwalk] at h
      cases h
    | ok q =>
      rw [hwalk] at h
      dsimp only at h
      by_cases hkind : decide ((c.prepared cwd m).node q = some .dir) = isDir
      · rw [if_pos hkind] at h
        cases h
        exact ⟨isDir, rfl, rfl, hkind⟩
      · rw [if_neg hkind] at h
        cases h

/-- A directory lands where its destination leads. -/
theorem lands_of_walk {f : List String → Object} {place : List String}
    (hshown : c.shown (c.source cwd m) = some (true, f))
    (hwalk : (c.prepared cwd m).walk true maxSymlinks [] (pathSteps m.destination) = .ok place)
    (hdir : (c.prepared cwd m).node place = some .dir) : c.lands cwd m = some (place, f) := by
  have hisDir : decide ((c.prepared cwd m).node place = some .dir) = true := decide_eq_true hdir
  rw [lands, hshown]
  dsimp only
  rw [hwalk]
  dsimp only
  rw [if_pos hisDir]

theorem view_apply_of_lands {place rest : List String} {f : List String → Object}
    (h : c.lands cwd m = some (place, f)) :
    (c.apply cwd m).tree.view (place ++ rest) = f rest := by
  have hcovers : covered cwd (place ++ rest) c m = some (f rest) :=
    covered_eq_some_iff.2 ⟨place, f, rest, h, rfl, rfl⟩
  rw [view_apply, hcovers]
  rfl

/-- A mount leaves what is neither at its place nor below. -/
theorem apart_of_lands {place : List String} {f : List String → Object}
    (h : c.lands cwd m = some (place, f)) (hd : ¬ place <+: d) : Apart cwd c m d := by
  intro place' f' hlands
  rw [h] at hlands
  cases hlands
  exact hd

end Stays

end Container

end Generators

end Linglong
