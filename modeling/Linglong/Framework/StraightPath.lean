import Linglong.Framework.MountNamespace

/-! # Straight Paths

    A path that meets no link leads where its components say, whatever else
    is there (`walk_lexical`). Of a tree that is still growing it is known
    where a path can lead at most: where it leads once all that is missing
    are directories (`walk_completed`).

    1. The places on a path (`visited`).
    2. Paths without links.
    3. Trees that grow (`Fills`).
-/

namespace Framework

variable {O N : Type}

/-! ## Section 1: Places on a path -/

/-- The places a path looks at, if it meets no link. -/
def visited : List N → List (PathStep N) → List (List N)
  | _, [] => []
  | cur, .stay :: steps => visited cur steps
  | cur, .up :: steps => visited cur.dropLast steps
  | cur, .down n :: steps => (cur ++ [n]) :: visited (cur ++ [n]) steps

theorem lexical_append {cur : List N} {steps steps' : List (PathStep N)} :
    lexical cur (steps ++ steps') = lexical (lexical cur steps) steps' := by
  induction steps generalizing cur with
  | nil => rfl
  | cons step steps ih =>
    cases step with
    | stay => exact ih
    | up => exact ih
    | down n => exact ih

namespace FileTree

/-- A link is at this place. -/
def LinkAt (t : FileTree O N) (p : List N) : Prop :=
  ∃ absolute target, t.node p = some (.link absolute target)

/-! ## Section 2: Paths without links -/

theorem walkWith_lexical {t : FileTree O N} {follow : Bool}
    {onLink : List N → List (PathStep N) → Except Errno (List N)} {cur : List N}
    {steps : List (PathStep N)} {p : List N} (h : ∀ q ∈ visited cur steps, ¬ t.LinkAt q)
    (hwalk : t.walkWith follow onLink cur steps = .ok p) : p = lexical cur steps := by
  induction steps generalizing cur with
  | nil => exact (Except.ok.inj hwalk).symm
  | cons step steps ih =>
    cases step with
    | stay => exact ih h hwalk
    | up => exact ih h hwalk
    | down n =>
      have hhere := h (cur ++ [n]) List.mem_cons_self
      have hrest : ∀ q ∈ visited (cur ++ [n]) steps, ¬ t.LinkAt q :=
        fun q hq => h q (List.mem_cons_of_mem _ hq)
      rw [walkWith] at hwalk
      cases hnode : t.node (cur ++ [n]) with
      | none =>
        rw [hnode] at hwalk
        cases hwalk
      | some x =>
        rw [hnode] at hwalk
        cases x with
        | dir => exact ih hrest hwalk
        | file =>
          dsimp only at hwalk
          by_cases hlast : steps.isEmpty = true
          · rw [if_pos hlast] at hwalk
            rw [List.isEmpty_iff.1 hlast]
            exact (Except.ok.inj hwalk).symm
          · rw [if_neg hlast] at hwalk
            cases hwalk
        | link absolute target => exact absurd ⟨absolute, target, hnode⟩ hhere

/-- Without links a path leads where its components say. -/
theorem walk_lexical {t : FileTree O N} {follow : Bool} {links : Nat} {cur : List N}
    {steps : List (PathStep N)} {p : List N} (h : ∀ q ∈ visited cur steps, ¬ t.LinkAt q)
    (hwalk : t.walk follow links cur steps = .ok p) : p = lexical cur steps := by
  cases links with
  | zero => exact walkWith_lexical h hwalk
  | succ links => exact walkWith_lexical h hwalk

/-- Through directories a path leads there. -/
theorem walk_of_dirs {t : FileTree O N} {follow : Bool} {links : Nat} {cur : List N}
    {steps : List (PathStep N)} (h : ∀ q ∈ visited cur steps, t.node q = some .dir) :
    t.walk follow links cur steps = .ok (lexical cur steps) := by
  induction steps generalizing cur with
  | nil => exact walk_nil t follow links cur
  | cons step steps ih =>
    cases step with
    | stay =>
      have hskip := walk_cons_stay t follow links cur steps
      rw [hskip]
      exact ih h
    | up =>
      have hup := walk_cons_up t follow links cur steps
      rw [hup]
      exact ih h
    | down n =>
      rw [walk_down (h (cur ++ [n]) List.mem_cons_self)]
      exact ih fun q hq => h q (List.mem_cons_of_mem _ hq)

/-- If the last component is no link, it does not matter whether it would be
    followed. -/
theorem walkWith_unfollowed {t : FileTree O N}
    {onLink onLink' : List N → List (PathStep N) → Except Errno (List N)} {p : List N}
    (hp : ¬ t.LinkAt p) (hlink : ∀ cur steps, onLink cur steps = .ok p → onLink' cur steps = .ok p)
    {cur : List N} {steps : List (PathStep N)}
    (hwalk : t.walkWith false onLink cur steps = .ok p) :
    t.walkWith true onLink' cur steps = .ok p := by
  induction steps generalizing cur with
  | nil => exact hwalk
  | cons step steps ih =>
    cases step with
    | stay => exact ih hwalk
    | up => exact ih hwalk
    | down n =>
      rw [walkWith] at hwalk ⊢
      cases hnode : t.node (cur ++ [n]) with
      | none =>
        rw [hnode] at hwalk
        cases hwalk
      | some x =>
        rw [hnode] at hwalk
        cases x with
        | dir => exact ih hwalk
        | file => exact hwalk
        | link absolute target =>
          simp only [Bool.not_false, Bool.and_true] at hwalk
          by_cases hlast : steps.isEmpty = true
          · rw [if_pos hlast] at hwalk
            cases hwalk
            exact absurd ⟨absolute, target, hnode⟩ hp
          · rw [if_neg hlast] at hwalk
            simp only [Bool.not_true, Bool.and_false, Bool.false_eq_true, if_false]
            exact hlink _ _ hwalk

theorem walk_unfollowed {t : FileTree O N} {links : Nat} {cur : List N}
    {steps : List (PathStep N)} {p : List N} (hp : ¬ t.LinkAt p)
    (hwalk : t.walk false links cur steps = .ok p) : t.walk true links cur steps = .ok p := by
  induction links generalizing cur steps with
  | zero => exact walkWith_unfollowed hp (fun _ _ h => by cases h) hwalk
  | succ links ih => exact walkWith_unfollowed hp (fun _ _ h => ih h) hwalk

/-! ## Section 3: Growing trees -/

/-- All that is new in `t'` are directories and files. -/
def Fills (t t' : FileTree O N) : Prop :=
  ∀ q x, t'.node q = some x →
    t.node q = some x ∨ (t.node q = none ∧ ∀ absolute target, x ≠ .link absolute target)

/-- The tree with directories for all that is missing. -/
def completed (t : FileTree O N) : FileTree O N :=
  { t with store := fun o => some ((t.store o).getD .dir) }

theorem node_completed (t : FileTree O N) (p : List N) :
    t.completed.node p = some ((t.node p).getD .dir) := by
  rw [node, node]
  by_cases hp : p.isEmpty = true
  · rw [if_pos hp, if_pos hp]
    rfl
  · rw [if_neg hp, if_neg hp]
    rfl

theorem walkWith_completed {t t' : FileTree O N} (h : Fills t t') {follow : Bool}
    {onLink onLink' : List N → List (PathStep N) → Except Errno (List N)}
    (hlink : ∀ cur steps p, onLink' cur steps = .ok p → onLink cur steps = .ok p)
    {cur : List N} {steps : List (PathStep N)} {p : List N}
    (hwalk : t'.walkWith follow onLink' cur steps = .ok p) :
    t.completed.walkWith follow onLink cur steps = .ok p := by
  induction steps generalizing cur with
  | nil => exact hwalk
  | cons step steps ih =>
    cases step with
    | stay => exact ih hwalk
    | up => exact ih hwalk
    | down n =>
      rw [walkWith] at hwalk ⊢
      rw [node_completed]
      cases hnode : t'.node (cur ++ [n]) with
      | none =>
        rw [hnode] at hwalk
        cases hwalk
      | some x =>
        rw [hnode] at hwalk
        rcases h _ _ hnode with hold | ⟨hnew, hx⟩
        · -- an old object
          rw [hold]
          cases x with
          | dir => exact ih hwalk
          | file => exact hwalk
          | link absolute target =>
            dsimp only [Option.getD_some] at hwalk ⊢
            by_cases hlast : (steps.isEmpty && !follow) = true
            · rw [if_pos hlast] at hwalk ⊢
              exact hwalk
            · rw [if_neg hlast] at hwalk ⊢
              exact hlink _ _ _ hwalk
        · -- a new one is a directory in the completed tree
          rw [hnew]
          cases x with
          | dir => exact ih hwalk
          | file =>
            dsimp only at hwalk
            by_cases hlast : steps.isEmpty = true
            · rw [if_pos hlast] at hwalk
              rw [List.isEmpty_iff.1 hlast]
              exact hwalk
            · rw [if_neg hlast] at hwalk
              cases hwalk
          | link absolute target => exact absurd rfl (hx absolute target)

/-- What a path leads to in a tree that has grown. -/
theorem Fills.walk_completed {t t' : FileTree O N} (h : Fills t t') {follow : Bool} {links : Nat}
    {cur : List N} {steps : List (PathStep N)} {p : List N}
    (hwalk : t'.walk follow links cur steps = .ok p) :
    t.completed.walk follow links cur steps = .ok p := by
  induction links generalizing cur steps p with
  | zero => exact walkWith_completed h (fun _ _ _ hp => by cases hp) hwalk
  | succ links ih => exact walkWith_completed h (fun _ _ _ hp => ih hp) hwalk

end FileTree

end Framework
