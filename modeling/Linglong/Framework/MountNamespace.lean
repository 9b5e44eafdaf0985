import Mathlib.Data.List.Basic

/-! # Mount Namespaces

    A tree of files as path resolution sees it. A place is a list of names
    from the root down. `view` says which object is at a place and `store`
    what the objects are: directories, other files and symbolic links. Two
    places may show one object, and a mount changes the view only.

    * `walk`: path resolution, with links and a limit on them.
    * `makeDirs`: what `mkdir -p` does.
    * `Grows`: only new objects were made. Paths lead where they led before
      (`walk_mono`).
    * `graft`: show something else at a place and below it.
-/

namespace Framework

/-- A component of a path. -/
inductive PathStep (N : Type) where
  | stay
  | up
  | down (name : N)
  deriving DecidableEq

/-- What an object is; a link has the path it points to. -/
inductive Node (N : Type) where
  | dir
  | file
  | link (absolute : Bool) (target : List (PathStep N))
  deriving DecidableEq

/-- Why a path leads nowhere. -/
inductive Errno where
  | noent
  | notdir
  | loop
  deriving DecidableEq

structure FileTree (O N : Type) where
  view : List N → O
  store : O → Option (Node N)

variable {O N : Type}

/-! ## Section 1: Paths -/

/-- The place a path leads to if it only meets directories. -/
def lexical : List N → List (PathStep N) → List N
  | cur, [] => cur
  | cur, .stay :: steps => lexical cur steps
  | cur, .up :: steps => lexical cur.dropLast steps
  | cur, .down n :: steps => lexical (cur ++ [n]) steps

namespace FileTree

/-- What is at a place. The root is always a directory. -/
def node (t : FileTree O N) (p : List N) : Option (Node N) :=
  if p.isEmpty then some .dir else t.store (t.view p)

/-- Path resolution up to the next link, which `onLink` follows; the last
    component is not followed for `follow = false`. -/
def walkWith (t : FileTree O N) (follow : Bool)
    (onLink : List N → List (PathStep N) → Except Errno (List N)) :
    List N → List (PathStep N) → Except Errno (List N)
  | cur, [] => .ok cur
  | cur, .stay :: steps => walkWith t follow onLink cur steps
  | cur, .up :: steps => walkWith t follow onLink cur.dropLast steps
  | cur, .down n :: steps =>
      match t.node (cur ++ [n]) with
      | none => .error .noent
      | some .dir => walkWith t follow onLink (cur ++ [n]) steps
      | some .file => if steps.isEmpty then .ok (cur ++ [n]) else .error .notdir
      | some (.link absolute target) =>
          if steps.isEmpty && !follow then .ok (cur ++ [n])
          else onLink (if absolute then [] else cur) (target ++ steps)

/-- Path resolution, with a limit on the links. -/
def walk (t : FileTree O N) (follow : Bool) :
    Nat → List N → List (PathStep N) → Except Errno (List N)
  | 0 => t.walkWith follow fun _ _ => .error .loop
  | k + 1 => t.walkWith follow (walk t follow k)

variable [DecidableEq O]

/-- A new object at a place. -/
def make (t : FileTree O N) (p : List N) (x : Node N) : FileTree O N :=
  { t with store := fun o => if o = t.view p then some x else t.store o }

variable [DecidableEq N]

/-- `mkdir -p`: missing directories are made on the way. A link has to lead
    to a directory. It returns the place. -/
def makeDirs (links : Nat) :
    FileTree O N → List N → List (PathStep N) → FileTree O N × Except Errno (List N)
  | t, cur, [] => (t, .ok cur)
  | t, cur, .stay :: steps => makeDirs links t cur steps
  | t, cur, .up :: steps => makeDirs links t cur.dropLast steps
  | t, cur, .down n :: steps =>
      match t.node (cur ++ [n]) with
      | none => makeDirs links (t.make (cur ++ [n]) .dir) (cur ++ [n]) steps
      | some .dir => makeDirs links t (cur ++ [n]) steps
      | some .file => (t, .error .notdir)
      | some (.link absolute target) =>
          match t.walk true links (if absolute then [] else cur) target with
          | .error e => (t, .error e)
          | .ok q =>
              if t.node q = some .dir then makeDirs links t q steps else (t, .error .notdir)

/-- Show `f` at a place and below it. -/
def graft (t : FileTree O N) (place : List N) (f : List N → O) : FileTree O N :=
  { t with view := fun p =>
      match place.isPrefixOf? p with
      | some rest => f rest
      | none => t.view p }

end FileTree

/-! ## Section 2: New objects -/

namespace FileTree

/-- The places are as before, and no object is lost or changed. -/
structure Grows (t t' : FileTree O N) : Prop where
  view : t'.view = t.view
  store : ∀ o x, t.store o = some x → t'.store o = some x

theorem Grows.refl (t : FileTree O N) : Grows t t := ⟨rfl, fun _ _ h => h⟩

theorem Grows.trans {t t' t'' : FileTree O N} (h : Grows t t') (h' : Grows t' t'') : Grows t t'' :=
  ⟨h'.view.trans h.view, fun o x hx => h'.store o x (h.store o x hx)⟩

theorem Grows.node {t t' : FileTree O N} (h : Grows t t') {p : List N} {x : Node N}
    (hx : t.node p = some x) : t'.node p = some x := by
  rw [FileTree.node] at hx ⊢
  by_cases hp : p.isEmpty = true
  · rwa [if_pos hp] at hx ⊢
  · rw [if_neg hp] at hx ⊢
    rw [h.view]
    exact h.store _ _ hx

/-- What is new are directories and files. -/
structure Builds (t t' : FileTree O N) : Prop extends Grows t t' where
  links : ∀ o absolute target, t'.store o = some (.link absolute target) →
    t.store o = some (.link absolute target)

theorem Builds.refl (t : FileTree O N) : Builds t t := ⟨.refl t, fun _ _ _ h => h⟩

theorem Builds.trans {t t' t'' : FileTree O N} (h : Builds t t') (h' : Builds t' t'') :
    Builds t t'' :=
  ⟨h.toGrows.trans h'.toGrows, fun o a n ho => h.links o a n (h'.links o a n ho)⟩

/-- What path resolution finds it finds again. -/
theorem walkWith_mono {t t' : FileTree O N}
    (h : ∀ p x, t.node p = some x → t'.node p = some x) {follow : Bool}
    {onLink onLink' : List N → List (PathStep N) → Except Errno (List N)}
    (hlink : ∀ cur steps p, onLink cur steps = .ok p → onLink' cur steps = .ok p)
    {cur : List N} {steps : List (PathStep N)} {p : List N}
    (hwalk : t.walkWith follow onLink cur steps = .ok p) :
    t'.walkWith follow onLink' cur steps = .ok p := by
  induction steps generalizing cur with
  | nil => exact hwalk
  | cons step steps ih =>
    cases step with
    | stay => exact ih hwalk
    | up => exact ih hwalk
    | down n =>
      rw [walkWith] at hwalk ⊢
      cases hnode : t.node (cur ++ [n]) with
      | none =>
        rw [hnode] at hwalk
        cases hwalk
      | some x =>
        rw [hnode] at hwalk
        rw [h _ _ hnode]
        cases x with
        | dir => exact ih hwalk
        | file => exact hwalk
        -- a link is followed by `onLink`, with less fuel
        | link absolute target =>
          dsimp only at hwalk ⊢
          by_cases hlast : (steps.isEmpty && !follow) = true
          · rwa [if_pos hlast] at hwalk ⊢
          · rw [if_neg hlast] at hwalk ⊢
            exact hlink _ _ _ hwalk

theorem walk_mono {t t' : FileTree O N} (h : ∀ p x, t.node p = some x → t'.node p = some x)
    {follow : Bool} {links : Nat}
    {cur : List N} {steps : List (PathStep N)} {p : List N}
    (hwalk : t.walk follow links cur steps = .ok p) :
    t'.walk follow links cur steps = .ok p := by
  induction links generalizing cur steps p with
  | zero => exact walkWith_mono h (fun _ _ _ hp => hp) hwalk
  | succ links ih => exact walkWith_mono h (fun _ _ _ hp => ih hp) hwalk

/-- Directories are walked through. -/
theorem walk_down {t : FileTree O N} {follow : Bool} {links : Nat} {cur : List N} {n : N}
    {steps : List (PathStep N)} (h : t.node (cur ++ [n]) = some .dir) :
    t.walk follow links cur (.down n :: steps) = t.walk follow links (cur ++ [n]) steps := by
  cases links with
  | zero => rw [walk, walkWith, h]
  | succ links => rw [walk, walkWith, h]

/-- Path resolution ends at something that is there. -/
theorem walkWith_node {t : FileTree O N} {follow : Bool}
    {onLink : List N → List (PathStep N) → Except Errno (List N)}
    (hup : ∀ p, (t.node p).isSome = true → (t.node p.dropLast).isSome = true)
    (hlink : ∀ cur steps p, (t.node cur).isSome = true → onLink cur steps = .ok p →
      (t.node p).isSome = true)
    {cur : List N} {steps : List (PathStep N)} {p : List N} (hcur : (t.node cur).isSome = true)
    (hwalk : t.walkWith follow onLink cur steps = .ok p) : (t.node p).isSome = true := by
  induction steps generalizing cur with
  | nil =>
    cases hwalk
    exact hcur
  | cons step steps ih =>
    cases step with
    | stay => exact ih hcur hwalk
    | up => exact ih (hup cur hcur) hwalk
    | down n =>
      rw [walkWith] at hwalk
      cases hnode : t.node (cur ++ [n]) with
      | none =>
        rw [hnode] at hwalk
        cases hwalk
      | some x =>
        have hnext : (t.node (cur ++ [n])).isSome = true := by rw [hnode]; rfl
        rw [hnode] at hwalk
        cases x with
        | dir => exact ih hnext hwalk
        | file =>
          dsimp only at hwalk
          split at hwalk <;> cases hwalk
          exact hnext
        | link absolute target =>
          dsimp only at hwalk
          split at hwalk
          · cases hwalk
            exact hnext
          · refine hlink _ _ _ ?_ hwalk
            cases absolute with
            | true => rfl
            | false => exact hcur

theorem walk_node {t : FileTree O N} {follow : Bool} {links : Nat}
    (hup : ∀ p, (t.node p).isSome = true → (t.node p.dropLast).isSome = true)
    {cur : List N} {steps : List (PathStep N)} {p : List N} (hcur : (t.node cur).isSome = true)
    (hwalk : t.walk follow links cur steps = .ok p) : (t.node p).isSome = true := by
  induction links generalizing cur steps p with
  | zero => exact walkWith_node hup (fun _ _ _ _ h => by cases h) hcur hwalk
  | succ links ih => exact walkWith_node hup (fun _ _ _ hcur h => ih hcur h) hcur hwalk

/-- Path resolution ends at a directory if the last component is a dot or
    goes up. -/
theorem walkWith_dir {t : FileTree O N} {follow : Bool}
    {onLink : List N → List (PathStep N) → Except Errno (List N)} {last : PathStep N}
    (hlast : ∀ n, last ≠ .down n)
    (hup : ∀ p, t.node p = some .dir → t.node p.dropLast = some .dir)
    (hlink : ∀ cur steps p, t.node cur = some .dir → onLink cur (steps ++ [last]) = .ok p →
      t.node p = some .dir)
    {cur : List N} {steps : List (PathStep N)} {p : List N} (hcur : t.node cur = some .dir)
    (hwalk : t.walkWith follow onLink cur (steps ++ [last]) = .ok p) : t.node p = some .dir := by
  induction steps generalizing cur with
  | nil =>
    cases last with
    | stay =>
      cases hwalk
      exact hcur
    | up =>
      cases hwalk
      exact hup cur hcur
    | down n => exact absurd rfl (hlast n)
  | cons step steps ih =>
    cases step with
    | stay => exact ih hcur hwalk
    | up => exact ih (hup cur hcur) hwalk
    | down n =>
      rw [List.cons_append, walkWith] at hwalk
      cases hnode : t.node (cur ++ [n]) with
      | none =>
        rw [hnode] at hwalk
        cases hwalk
      | some x =>
        rw [hnode] at hwalk
        cases x with
        | dir => exact ih hnode hwalk
        | file => simp at hwalk
        | link absolute target =>
          replace hwalk : onLink (if absolute then [] else cur) (target ++ (steps ++ [last])) =
              .ok p := by simpa using hwalk
          rw [← List.append_assoc] at hwalk
          refine hlink _ _ _ ?_ hwalk
          cases absolute with
          | true => rfl
          | false => exact hcur

theorem walk_dir {t : FileTree O N} {follow : Bool} {links : Nat} {last : PathStep N}
    (hlast : ∀ n, last ≠ .down n)
    (hup : ∀ p, t.node p = some .dir → t.node p.dropLast = some .dir)
    {cur : List N} {steps : List (PathStep N)} {p : List N} (hcur : t.node cur = some .dir)
    (hwalk : t.walk follow links cur (steps ++ [last]) = .ok p) : t.node p = some .dir := by
  induction links generalizing cur steps p with
  | zero => exact walkWith_dir hlast hup (fun _ _ _ _ h => by cases h) hcur hwalk
  | succ links ih => exact walkWith_dir hlast hup (fun _ _ _ hcur h => ih hcur h) hcur hwalk

theorem walk_nil (t : FileTree O N) (follow : Bool) (links : Nat) (cur : List N) :
    t.walk follow links cur [] = .ok cur := by
  cases links <;> rfl

theorem walk_cons_stay (t : FileTree O N) (follow : Bool) (links : Nat) (cur : List N)
    (steps : List (PathStep N)) :
    t.walk follow links cur (.stay :: steps) = t.walk follow links cur steps := by
  cases links <;> rfl

theorem walk_cons_up (t : FileTree O N) (follow : Bool) (links : Nat) (cur : List N)
    (steps : List (PathStep N)) :
    t.walk follow links cur (.up :: steps) = t.walk follow links cur.dropLast steps := by
  cases links <;> rfl

theorem isEmpty_append {steps steps' : List (PathStep N)} (h : steps' ≠ []) :
    (steps ++ steps').isEmpty = false := by
  rw [List.isEmpty_eq_false_iff]
  exact fun hnil => h (List.append_eq_nil_iff.1 hnil).2

theorem walkWith_stay {t : FileTree O N} {follow : Bool}
    {onLink : List N → List (PathStep N) → Except Errno (List N)} {cur : List N}
    {steps steps' : List (PathStep N)} (h : steps' ≠ [])
    (hlink : ∀ cur steps, onLink cur (steps ++ .stay :: steps') = onLink cur (steps ++ steps')) :
    t.walkWith follow onLink cur (steps ++ .stay :: steps') =
      t.walkWith follow onLink cur (steps ++ steps') := by
  induction steps generalizing cur with
  | nil => rfl
  | cons step steps ih =>
    cases step with
    | stay => exact ih
    | up => exact ih
    | down n =>
      rw [List.cons_append, List.cons_append, walkWith, walkWith, isEmpty_append h,
        isEmpty_append (List.cons_ne_nil _ _)]
      cases t.node (cur ++ [n]) with
      | none => rfl
      | some x =>
        cases x with
        | dir => exact ih
        | file => rfl
        | link absolute target =>
          have htarget := hlink (if absolute then [] else cur) (target ++ steps)
          rwa [List.append_assoc, List.append_assoc] at htarget

/-- A component that names the directory itself does not matter, unless it
    is the last one. -/
theorem walk_stay {t : FileTree O N} {follow : Bool} {links : Nat} {cur : List N}
    {steps steps' : List (PathStep N)} (h : steps' ≠ []) :
    t.walk follow links cur (steps ++ .stay :: steps') =
      t.walk follow links cur (steps ++ steps') := by
  induction links generalizing cur steps with
  | zero => exact walkWith_stay h fun _ _ => rfl
  | succ links ih => exact walkWith_stay h fun _ _ => ih

theorem walkWith_append {t : FileTree O N} {q : List N} {steps' : List (PathStep N)}
    (hq : t.node q = some .dir) (h : steps' ≠ [])
    (onLink : Bool → List N → List (PathStep N) → Except Errno (List N)) (links : Nat)
    (hbase : ∀ follow cur,
      t.walkWith follow (onLink follow) cur steps' = t.walk follow links cur steps')
    (hlink : ∀ cur steps, onLink true cur steps = .ok q →
      ∃ k, ∀ follow, onLink follow cur (steps ++ steps') = t.walk follow k q steps')
    {cur : List N} {steps : List (PathStep N)}
    (hwalk : t.walkWith true (onLink true) cur steps = .ok q) :
    ∃ k, ∀ follow, t.walkWith follow (onLink follow) cur (steps ++ steps') =
      t.walk follow k q steps' := by
  induction steps generalizing cur with
  | nil =>
    cases hwalk
    exact ⟨links, fun follow => hbase follow _⟩
  | cons step steps ih =>
    cases step with
    | stay => exact ih hwalk
    | up => exact ih hwalk
    | down n =>
      simp only [List.cons_append, walkWith, isEmpty_append h] at hwalk ⊢
      cases hnode : t.node (cur ++ [n]) with
      | none =>
        rw [hnode] at hwalk
        cases hwalk
      | some x =>
        rw [hnode] at hwalk
        cases x with
        | dir => exact ih hwalk
        | file =>
          -- only the last component may be a file, and then `q` is no directory
          dsimp only at hwalk
          by_cases hlast : steps.isEmpty = true
          · rw [if_pos hlast] at hwalk
            cases hwalk
            rw [hnode] at hq
            cases hq
          · rw [if_neg hlast] at hwalk
            cases hwalk
        | link absolute target =>
          simp only [Bool.not_true, Bool.and_false] at hwalk
          obtain ⟨k, hk⟩ := hlink _ _ hwalk
          refine ⟨k, fun follow => ?_⟩
          rw [← hk follow, List.append_assoc]
          rfl

/-- A path is resolved part by part. -/
theorem walk_append {t : FileTree O N} {links : Nat} {cur q : List N}
    {steps steps' : List (PathStep N)} (hwalk : t.walk true links cur steps = .ok q)
    (hq : t.node q = some .dir) (h : steps' ≠ []) :
    ∃ k, ∀ follow, t.walk follow links cur (steps ++ steps') = t.walk follow k q steps' := by
  induction links generalizing cur steps with
  | zero =>
    exact walkWith_append hq h (fun _ _ _ => .error .loop) 0
      (fun _ _ => rfl) (fun _ _ herror => by cases herror) hwalk
  | succ links ih =>
    exact walkWith_append hq h (fun follow => t.walk follow links) (links + 1)
      (fun _ _ => rfl) (fun _ _ hlink => ih hlink) hwalk

section Make

variable [DecidableEq O]

theorem grows_make {t : FileTree O N} {p : List N} (hp : p ≠ []) (h : t.node p = none) (x : Node N) :
    Grows t (t.make p x) := by
  refine ⟨rfl, fun o y hy => ?_⟩
  show (if o = t.view p then some x else t.store o) = some y
  have hempty : ¬ p.isEmpty = true := by rwa [List.isEmpty_iff]
  rw [node, if_neg hempty] at h
  by_cases ho : o = t.view p
  · rw [ho, h] at hy
    cases hy
  · rw [if_neg ho]
    exact hy

theorem node_make {t : FileTree O N} {p : List N} (hp : p ≠ []) (x : Node N) :
    (t.make p x).node p = some x := by
  have hempty : ¬ p.isEmpty = true := by rwa [List.isEmpty_iff]
  rw [node, if_neg hempty]
  exact if_pos rfl

theorem makeDirs_dir [DecidableEq N] {links : Nat} {t : FileTree O N} {cur p : List N} {n : N}
    (hp : cur ++ [n] = p) (h : t.node p = some .dir) (steps : List (PathStep N)) :
    t.makeDirs links cur (.down n :: steps) = t.makeDirs links p steps := by
  subst hp
  rw [makeDirs, h]

theorem makeDirs_missing [DecidableEq N] {links : Nat} {t : FileTree O N} {cur p : List N} {n : N}
    (hp : cur ++ [n] = p) (h : t.node p = none) (steps : List (PathStep N)) :
    t.makeDirs links cur (.down n :: steps) = (t.make p .dir).makeDirs links p steps := by
  subst hp
  rw [makeDirs, h]

theorem builds_make {t : FileTree O N} {p : List N} (hp : p ≠ []) (h : t.node p = none)
    {x : Node N} (hx : ∀ absolute target, x ≠ .link absolute target) : Builds t (t.make p x) := by
  refine ⟨grows_make hp h x, fun o a n ho => ?_⟩
  replace ho : (if o = t.view p then some x else t.store o) = some (.link a n) := ho
  by_cases hplace : o = t.view p
  · rw [if_pos hplace] at ho
    exact absurd (Option.some.inj ho) (hx a n)
  · rwa [if_neg hplace] at ho

theorem makeDirs_builds [DecidableEq N] (links : Nat) (t : FileTree O N) (cur : List N)
    (steps : List (PathStep N)) : Builds t (t.makeDirs links cur steps).1 := by
  induction steps generalizing t cur with
  | nil => exact .refl t
  | cons step steps ih =>
    cases step with
    | stay => exact ih t cur
    | up => exact ih t cur.dropLast
    | down n =>
      rw [makeDirs]
      cases hnode : t.node (cur ++ [n]) with
      | none => exact (builds_make (by simp) hnode (by simp)).trans (ih _ _)
      | some x =>
        cases x with
        | dir => exact ih t _
        | file => exact .refl t
        | link absolute target =>
          dsimp only
          cases t.walk true links (if absolute then [] else cur) target with
          | error e => exact .refl t
          | ok q =>
            dsimp only
            by_cases hq : t.node q = some .dir
            · rw [if_pos hq]
              exact ih t q
            · rw [if_neg hq]
              exact .refl t

theorem makeDirs_grows [DecidableEq N] (links : Nat) (t : FileTree O N) (cur : List N)
    (steps : List (PathStep N)) : Grows t (t.makeDirs links cur steps).1 :=
  (makeDirs_builds links t cur steps).toGrows

end Make

/-! ## Section 3: Mounts -/

variable [DecidableEq N]

theorem graft_view_append (t : FileTree O N) (place : List N) (f : List N → O) (rest : List N) :
    (t.graft place f).view (place ++ rest) = f rest := by
  have hpre : place.isPrefixOf? (place ++ rest) = some rest :=
    List.isPrefixOf?_eq_some_iff_append_eq.2 rfl
  simp only [graft, hpre]

theorem graft_view_of_not_prefix (t : FileTree O N) {place p : List N} (f : List N → O)
    (h : ¬ place <+: p) : (t.graft place f).view p = t.view p := by
  have hpre : place.isPrefixOf? p = none := by
    cases hrest : place.isPrefixOf? p with
    | none => rfl
    | some rest =>
      exact absurd ⟨rest, List.isPrefixOf?_eq_some_iff_append_eq.1 hrest⟩ h
  simp only [graft, hpre]

end FileTree

end Framework
