import Mathlib.Algebra.Group.Int.Defs
import Mathlib.Data.Set.Basic
import Mathlib.Order.Defs.Unbundled
import Linglong.Framework.Lookup

/-! # Migrating a Repository

    Before version 1.7.0 the refs of a repository had no remote. When the
    package manager starts, `tryMigrate` (`migrate.cpp`) reads the version
    that wrote the repository, and `migrateRef` copies the refs to those of
    the default remote.

    Two things go wrong. The versions are compared component by component
    instead of lexicographically, so that some later versions count as
    earlier. And the prefix of the names that are looked up gets longer with
    each ref: from the second one on, the name is made of all refs so far.

    1. Versions.
    2. The refs of a repository.
    3. The migration.
    4. When it runs (`migration_gate_iff`).
    5. What it does to the refs, and what it does the second time
       (`migrateRef_iff`).
    6. The start of the package manager (`tryMigrate_again`).
-/

namespace Linglong

namespace Migrate

open Framework

/-! ## Section 1: Versions -/

/-- `Version`; the components are of type `int`. -/
@[ext]
structure Version where
  major : Int
  minor : Int
  patch : Int
  deriving DecidableEq

namespace Version

/-- `operator<`. -/
def less (lhs rhs : Version) : Prop :=
  lhs.major < rhs.major ∨ lhs.minor < rhs.minor ∨ lhs.patch < rhs.patch

instance (lhs rhs : Version) : Decidable (less lhs rhs) := by
  unfold less
  infer_instance

/-- The first component that differs decides. -/
def lexLess (lhs rhs : Version) : Prop :=
  lhs.major < rhs.major ∨ lhs.major = rhs.major ∧
    (lhs.minor < rhs.minor ∨ lhs.minor = rhs.minor ∧ lhs.patch < rhs.patch)

/-- No component is larger. -/
def below (lhs rhs : Version) : Prop :=
  lhs.major ≤ rhs.major ∧ lhs.minor ≤ rhs.minor ∧ lhs.patch ≤ rhs.patch

theorem less_iff_not_below (lhs rhs : Version) : less lhs rhs ↔ ¬ below rhs lhs := by
  unfold less below
  omega

end Version

def isSpace (c : Char) : Bool := c = ' ' || (9 ≤ c.toNat && c.toNat ≤ 13)

/-- `std::stoi`; nothing where it throws. What follows the digits is not
    looked at. -/
def stoi (text : List Char) : Option Int :=
  let text := text.dropWhile isSpace
  let (negative, text) :=
    match text with
    | '-' :: cs => (true, cs)
    | '+' :: cs => (false, cs)
    | cs => (false, cs)
  let digits := text.takeWhile Char.isDigit
  if digits = [] then none
  else
    let n : Int := digits.foldl (fun (n : Int) c => 10 * n + (c.toNat - '0'.toNat : Nat)) 0
    let value := if negative then -n else n
    if -2 ^ 31 ≤ value ∧ value < 2 ^ 31 then some value else none

/-- `std::string_view::find`. -/
def find (text : List Char) (c : Char) (pos : Nat) : Option Nat :=
  if c ∈ text.drop pos then some (pos + (text.drop pos).idxOf c) else none

/-- `std::string_view::substr`, from a position in the text. -/
def substr (text : List Char) (pos count : Nat) : List Char := (text.drop pos).take count

/-- `parseVersion`. -/
def parseVersion (version : List Char) : Option Version := do
  let p1 ← find version '.' 0
  let major ← stoi (substr version 0 p1)
  let p2 ← find version '.' (p1 + 1)
  let minor ← stoi (substr version (p1 + 1) p2)
  if (find version '.' (p2 + 1)).isSome then none
  else
    let patch ← stoi (substr version (p2 + 1) version.length)
    some ⟨major, minor, patch⟩

example : parseVersion "1.10.2-rc1".toList = some ⟨1, 10, 2⟩ := by decide

/-! ## Section 2: The refs of a repository -/

/-- The refs of a repository and their commits. A ref of a remote has the
    name of the remote and a colon before it. -/
structure Refs where
  entries : List (String × String)
  nodup : (entries.map Prod.fst).Nodup

def Refs.lookup (refs : Refs) (ref : String) : Option String := refs.entries.lookup ref

/-- One ref is set. -/
def Refs.set (refs : Refs) (ref commit : String) : Refs where
  entries := (ref, commit) :: refs.entries.filter fun e => e.1 ≠ ref
  nodup := by
    rw [List.map_cons, List.nodup_cons]
    refine ⟨fun hmem => ?_, (List.filter_sublist.map _).nodup refs.nodup⟩
    obtain ⟨e, he, heq⟩ := List.mem_map.1 hmem
    have hne : e.1 ≠ ref := by simpa using (List.mem_filter.1 he).2
    exact hne heq

/-- Refs of a remote are set. -/
def Refs.setAll (refs : Refs) (repoName : String) : List (String × String) → Refs
  | [] => refs
  | (ref, checksum) :: rest => setAll (refs.set (repoName ++ ":" ++ ref) checksum) repoName rest

/-! ## Section 3: The migration -/

/-- What `std::filesystem::exists` answers. -/
inductive Status where
  | present | absent | unknown
  deriving DecidableEq

/-- What `std::filesystem::create_symlink` does. -/
inductive Symlink where
  | created | fileExists | failed
  deriving DecidableEq

/-- What the code outside does during one migration. -/
structure World where
  /-- `root / "repo"`. -/
  repo : Status
  opens : Bool
  lists : Bool
  /-- The order in which an `unordered_map` is gone through. -/
  iterate : List (String × String) → List (String × String)
  iterate_perm : ∀ l, (iterate l).Perm l
  prepares : Bool
  /-- The transaction is committed, or it fails when these refs have been
      written. -/
  commitFails : Option (List String)
  /-- `root / "layers"`. -/
  layers : Status
  /-- The directories in `layers`. -/
  layer : String → Status
  symlink : String → String → Symlink

/-- The name of a ref begins with a prefix. -/
def hasPrefix (refPrefix : String) (e : String × String) : Bool :=
  refPrefix.toList.isPrefixOf e.1.toList

/-- The second loop of `migrateRef`, with the prefix that it has become. -/
def needMigrate (allRefs : List (String × String)) (refPrefix : String) :
    List (String × String) → List (String × String)
  | [] => []
  | e :: rest =>
      let tmpRef := refPrefix ++ e.1
      if tmpRef ∈ allRefs.map Prod.fst then needMigrate allRefs tmpRef rest
      else e :: needMigrate allRefs tmpRef rest

/-- The link from the directory of a commit to the one of its ref; false for
    the error return. -/
def World.link (w : World) (ref checksum : String) : Bool :=
  if '/' ∉ ref.toList then true
  else
    let last := (ref.toList.reverse.takeWhile (· ≠ '/')).reverse
    let front := ref.toList.take (ref.toList.length - last.length - 1)
    let made (realRef : String) : Bool := w.symlink realRef checksum != .failed
    match w.layer ref with
    | .unknown => true
    | .present => made ref
    | .absent =>
        if last = "runtime".toList then
          let fallback := String.ofList front ++ "/binary"
          if w.layer fallback = .present then made fallback else true
        else true

/-- The return value of `migrateRef`, and the refs afterwards. -/
structure Outcome where
  ret : Int
  refs : Refs

/-- `migrateRef`. -/
def migrateRef (w : World) (repoName : String) (refs : Refs) : Outcome :=
  if w.lists = false then ⟨-1, refs⟩
  else if refs.entries = [] then ⟨0, refs⟩
  else
    let refPrefix := repoName ++ ":"
    let allRefs := refs.entries.filter (hasPrefix refPrefix)
    let others := refs.entries.filter fun e => !hasPrefix refPrefix e
    let todo := needMigrate allRefs refPrefix (w.iterate others)
    if todo = [] then ⟨0, refs⟩
    else if w.prepares = false then ⟨-1, refs⟩
    else
      match w.commitFails with
      | some done => ⟨-1, refs.setAll repoName (todo.filter fun e => e.1 ∈ done)⟩
      | none =>
          let refs := refs.setAll repoName todo
          if w.layers ≠ .present then ⟨-1, refs⟩
          else if todo.all fun e => w.link e.1 e.2 then ⟨1, refs⟩
          else ⟨-1, refs⟩

/-- `dispatchMigrations`: its return value, and what `migrateRef` has done if
    it was called. -/
def dispatchMigrations (w : World) (source : Version) (repoName : String) (refs : Refs) :
    Int × Option Outcome :=
  if w.repo ≠ .present then (0, none)
  else if w.opens = false then (-1, none)
  else if (parseVersion "1.7.0".toList).any fun version_1_7_0 => source.less version_1_7_0 then
    let outcome := migrateRef w repoName refs
    (outcome.ret, some outcome)
  else (2 ^ 31 - 1, none)

/-! ## Section 4: When it runs -/

/-- `migrateRef` is called. -/
def Runs (w : World) (source : Version) (repoName : String) (refs : Refs) : Prop :=
  (dispatchMigrations w source repoName refs).2.isSome = true

/-- The repository is there and can be opened. -/
def World.Opens (w : World) : Prop := w.repo = .present ∧ w.opens = true

theorem runs_iff (w : World) (source : Version) (repoName : String) (refs : Refs) :
    Runs w source repoName refs ↔ w.Opens ∧ source.less ⟨1, 7, 0⟩ := by
  have hversion : parseVersion "1.7.0".toList = some ⟨1, 7, 0⟩ := by decide
  unfold Runs dispatchMigrations World.Opens
  rw [hversion]
  by_cases hrepo : w.repo = .present
  · cases hopens : w.opens with
    | false => simp [hrepo]
    | true =>
      by_cases hless : source.less ⟨1, 7, 0⟩
      · simp [hrepo, hless]
      · simp [hrepo, hless]
  · simp [hrepo]

/-- The comparison with 1.7.0 comes out right: not for a major version above
    1 with a minor one below 7, nor where the patch is negative and minor and
    major are not below. -/
def ComparesRight (v : Version) : Prop :=
  ¬ (1 < v.major ∧ (v.minor < 7 ∨ v.patch < 0)) ∧ ¬ (v.major = 1 ∧ 7 < v.minor ∧ v.patch < 0)

theorem less_iff_lexLess_iff (v : Version) :
    (v.less ⟨1, 7, 0⟩ ↔ v.lexLess ⟨1, 7, 0⟩) ↔ ComparesRight v := by
  unfold Version.less Version.lexLess ComparesRight
  simp only
  omega

/-- `operator<` as an order of some versions. -/
def lessOn (S : Set Version) (a b : S) : Prop := a.val.less b.val

/-- **Order**: the comparison orders those sets of versions in which of two
    versions one is below the other. -/
theorem isStrictWeakOrder_iff (S : Set Version) :
    IsStrictWeakOrder S (lessOn S) ↔ ∀ a ∈ S, ∀ b ∈ S, a.below b ∨ b.below a := by
  constructor
  · intro h a ha b hb
    by_contra hneither
    rw [not_or] at hneither
    -- each is less than the other
    have hab : lessOn S ⟨a, ha⟩ ⟨b, hb⟩ := (Version.less_iff_not_below a b).2 hneither.2
    have hba : lessOn S ⟨b, hb⟩ ⟨a, ha⟩ := (Version.less_iff_not_below b a).2 hneither.1
    exact h.irrefl _ (h.trans _ _ _ hab hba)
  · intro h
    have hless : ∀ a b : S, lessOn S a b ↔ a.val.less b.val := fun _ _ => Iff.rfl
    have hchain : ∀ a b : S, a.val.below b.val ∨ b.val.below a.val :=
      fun a b => h a.val a.property b.val b.property
    refine { irrefl := ?_, trans := ?_, incomp_trans := ?_ }
    · intro a ha
      rw [hless] at ha
      unfold Version.less at ha
      omega
    · intro a b c hab hbc
      have h₁ := hchain a b
      have h₂ := hchain b c
      rw [hless] at hab hbc ⊢
      unfold Version.less at *
      unfold Version.below at *
      omega
    · intro a b c hab hbc
      simp only [hless] at hab hbc ⊢
      unfold Version.less at *
      omega

/-- `migrateRef` runs for exactly the versions before 1.7.0 that a text is
    read as. -/
def Gated (w : World) (repoName : String) (refs : Refs) (text : List Char) : Prop :=
  ∀ v, parseVersion text = some v → (Runs w v repoName refs ↔ v.lexLess ⟨1, 7, 0⟩)

/-- **The gate**: `migrateRef` runs when it should iff the repository can be
    opened and the comparison comes out right, or it cannot be opened and the
    version is not one of those to migrate. -/
theorem migration_gate_iff (w : World) (repoName : String) (refs : Refs) (text : List Char)
    (S : Set Version) :
    (Gated w repoName refs text ↔ ∀ v, parseVersion text = some v →
        w.Opens ∧ ComparesRight v ∨ ¬ w.Opens ∧ ¬ v.lexLess ⟨1, 7, 0⟩) ∧
      (IsStrictWeakOrder S (lessOn S) ↔ ∀ a ∈ S, ∀ b ∈ S, a.below b ∨ b.below a) := by
  refine ⟨forall₂_congr fun v _ => ?_, isStrictWeakOrder_iff S⟩
  have hright := less_iff_lexLess_iff v
  rw [runs_iff]
  by_cases hopens : w.Opens
  · simp only [hopens, true_and, not_true_eq_false, false_and, or_false]
    exact hright
  · simp [hopens]

/-- A world in which nothing fails. -/
def World.quiet : World where
  repo := .present
  opens := true
  lists := true
  iterate l := l
  iterate_perm l := List.Perm.refl l
  prepares := true
  commitFails := none
  layers := .present
  layer _ := .present
  symlink _ _ := .created

/-- **Counterexample**: version 2.0.0. -/
theorem not_gated : ¬ ((∀ w repoName refs text, w.Opens → Gated w repoName refs text) ∧
    IsStrictWeakOrder Version Version.less) := by
  intro ⟨h, _⟩
  have hquiet : World.quiet.Opens := ⟨rfl, rfl⟩
  have hgated := h .quiet "stable" ⟨[], List.nodup_nil⟩ "2.0.0".toList hquiet ⟨2, 0, 0⟩ (by decide)
  have hruns : Runs .quiet ⟨2, 0, 0⟩ "stable" ⟨[], List.nodup_nil⟩ :=
    (runs_iff _ _ _ _).2 ⟨hquiet, by decide⟩
  have hlex := hgated.1 hruns
  unfold Version.lexLess at hlex
  simp only at hlex
  omega

/-! ## Section 5: What it does to the refs -/

/-- The ref of a remote. -/
def remoteRef (repoName ref : String) : String := repoName ++ ":" ++ ref

/-- A ref without a remote that the default remote does not have. -/
def Wanted (repoName : String) (refs : Refs) (ref : String) : Prop :=
  ':' ∉ ref.toList ∧ refs.lookup (remoteRef repoName ref) = none

instance (repoName : String) (refs : Refs) (ref : String) : Decidable (Wanted repoName refs ref) := by
  unfold Wanted
  infer_instance

/-- The refs that are wanted have been copied, and nothing else has changed. -/
structure Migrates (repoName : String) (before after : Refs) : Prop where
  copied : ∀ ref commit, before.lookup ref = some commit → Wanted repoName before ref →
    after.lookup (remoteRef repoName ref) = some commit
  kept : ∀ key, (∀ ref, before.lookup ref ≠ none → Wanted repoName before ref →
    key ≠ remoteRef repoName ref) → after.lookup key = before.lookup key

def SameRefs (refs refs' : Refs) : Prop := ∀ ref, refs.lookup ref = refs'.lookup ref

/-- The refs without the prefix, in the order of the second loop. -/
def World.order (w : World) (repoName : String) (refs : Refs) : List (String × String) :=
  w.iterate (refs.entries.filter fun e => !hasPrefix (repoName ++ ":") e)

/-- The name that is looked up after going through some refs, the last of
    which is the one in question. -/
def lookedUp (repoName : String) (passed : List (String × String)) : String :=
  passed.foldl (fun refPrefix e => refPrefix ++ e.1) (repoName ++ ":")

/-- What the refs should be after the migration. -/
def migrated (repoName : String) (refs : Refs) (key : String) : Option String :=
  match refs.entries.find? fun e => Wanted repoName refs e.1 ∧ remoteRef repoName e.1 = key with
  | some e => some e.2
  | none => refs.lookup key

/-- If the second run gets as far as writing this ref. -/
def World.writes (w : World) (e : String × String) : Bool :=
  w.lists && w.prepares && (match w.commitFails with
    | some done => decide (e.1 ∈ done)
    | none => true)

/-- The names that are looked up give the right answer for each ref: a wanted
    one is not found, and one that is not found is wanted or is there
    already, with the same commit. -/
def LooksUpRight (w : World) (repoName : String) (refs : Refs) : Prop :=
  ∀ front e back, w.order repoName refs = front ++ e :: back →
    (Wanted repoName refs e.1 → refs.lookup (lookedUp repoName (front ++ [e])) = none) ∧
      (refs.lookup (lookedUp repoName (front ++ [e])) = none → ¬ Wanted repoName refs e.1 →
        refs.lookup (remoteRef repoName e.1) = some e.2)

/-- The same for a second run: every ref that is not found and gets written is
    there, with the same commit. -/
def LooksUpAgain (w : World) (repoName : String) (refs : Refs) : Prop :=
  ∀ front e back, w.order repoName refs = front ++ e :: back → w.writes e = true →
    migrated repoName refs (lookedUp repoName (front ++ [e])) = none →
      migrated repoName refs (remoteRef repoName e.1) = some e.2

variable {w w' : World} {repoName : String} {refs : Refs}

theorem remoteRef_inj {ref ref' : String} (h : remoteRef repoName ref = remoteRef repoName ref') :
    ref = ref' := by
  unfold remoteRef at h
  exact String.append_right_inj _ |>.1 h

theorem lookup_eq_some_iff {ref commit : String} :
    refs.lookup ref = some commit ↔ (ref, commit) ∈ refs.entries := by
  constructor
  · intro h
    obtain ⟨front, back, hsplit, -⟩ := List.lookup_eq_some_iff.1 h
    rw [hsplit]
    exact List.mem_append_right _ List.mem_cons_self
  · exact lookup_of_mem refs.nodup

theorem lookup_eq_none_iff {ref : String} :
    refs.lookup ref = none ↔ ref ∉ refs.entries.map Prod.fst := by
  unfold Refs.lookup
  rw [List.lookup_eq_none_iff, List.mem_map]
  simp only [bne_iff_ne, ne_eq, not_exists, not_and]
  exact ⟨fun h e he heq => h e he heq.symm, fun h e he heq => h e he heq.symm⟩

/-! ### The loop -/

theorem lookedUp_append (passed : List (String × String)) (e : String × String) :
    lookedUp repoName (passed ++ [e]) = lookedUp repoName passed ++ e.1 := by
  unfold lookedUp
  rw [List.foldl_append]
  rfl

/-- The prefix stays at the front, however long the name gets. -/
theorem hasPrefix_lookedUp (passed : List (String × String)) (commit : String) :
    hasPrefix (repoName ++ ":") (lookedUp repoName passed, commit) = true := by
  have hfold : ∀ (passed : List (String × String)) (text : String),
      text.toList <+: (passed.foldl (fun refPrefix e => refPrefix ++ e.1) text).toList := by
    intro passed
    induction passed with
    | nil => exact fun text => List.prefix_refl _
    | cons e rest ih =>
      intro text
      refine List.IsPrefix.trans ?_ (ih (text ++ e.1))
      rw [String.toList_append]
      exact List.prefix_append _ _
  -- the fold begins with the prefix
  exact List.isPrefixOf_iff_prefix.2 (hfold passed _)

/-- Only refs with the prefix can have such a name. -/
theorem mem_filter_hasPrefix_iff (passed : List (String × String)) :
    lookedUp repoName passed ∈
        (refs.entries.filter (hasPrefix (repoName ++ ":"))).map Prod.fst ↔
      refs.lookup (lookedUp repoName passed) ≠ none := by
  rw [ne_eq, lookup_eq_none_iff, not_not, List.mem_map, List.mem_map]
  constructor
  · intro ⟨e, he, heq⟩
    exact ⟨e, (List.mem_filter.1 he).1, heq⟩
  · intro ⟨e, he, heq⟩
    refine ⟨e, List.mem_filter.2 ⟨he, ?_⟩, heq⟩
    obtain ⟨ref, commit⟩ := e
    rw [show ref = lookedUp repoName passed from heq]
    exact hasPrefix_lookedUp passed commit

/-- **Loop**: what is left to migrate are the refs whose names were not
    found. -/
theorem mem_needMigrate_iff (allRefs : List (String × String)) (e : String × String) :
    ∀ (l passed : List (String × String)),
      e ∈ needMigrate allRefs (lookedUp repoName passed) l ↔
        ∃ front back, l = front ++ e :: back ∧
          lookedUp repoName (passed ++ front ++ [e]) ∉ allRefs.map Prod.fst := by
  intro l
  induction l with
  | nil =>
    intro passed
    constructor
    · intro h
      cases h
    · intro ⟨front, back, h, _⟩
      simp at h
  | cons e' rest ih =>
    intro passed
    have hrest := ih (passed ++ [e'])
    rw [lookedUp_append] at hrest
    -- the ref is the first one, or it comes later, behind a longer prefix
    have hsplit : (∃ front back, e' :: rest = front ++ e :: back ∧
          lookedUp repoName (passed ++ front ++ [e]) ∉ allRefs.map Prod.fst) ↔
        (e = e' ∧ lookedUp repoName passed ++ e'.1 ∉ allRefs.map Prod.fst) ∨
          ∃ front back, rest = front ++ e :: back ∧
            lookedUp repoName (passed ++ [e'] ++ front ++ [e]) ∉ allRefs.map Prod.fst := by
      constructor
      · intro ⟨front, back, heq, hnot⟩
        cases front with
        | nil =>
          obtain ⟨rfl, -⟩ := List.cons.inj heq
          rw [List.append_nil, lookedUp_append] at hnot
          exact .inl ⟨rfl, hnot⟩
        | cons f front =>
          obtain ⟨rfl, htail⟩ := List.cons.inj heq
          refine .inr ⟨front, back, htail, ?_⟩
          rwa [List.append_assoc passed, List.singleton_append]
      · intro h
        rcases h with ⟨rfl, hnot⟩ | ⟨front, back, heq, hnot⟩
        · refine ⟨[], rest, rfl, ?_⟩
          rwa [List.append_nil, lookedUp_append]
        · refine ⟨e' :: front, back, by rw [heq]; rfl, ?_⟩
          rwa [List.append_assoc passed, List.singleton_append] at hnot
    rw [hsplit, ← hrest]
    show e ∈ (if lookedUp repoName passed ++ e'.1 ∈ allRefs.map Prod.fst then
      needMigrate allRefs (lookedUp repoName passed ++ e'.1) rest
      else e' :: needMigrate allRefs (lookedUp repoName passed ++ e'.1) rest) ↔ _
    -- whether or not it is found, the prefix has been extended
    by_cases hfound : lookedUp repoName passed ++ e'.1 ∈ allRefs.map Prod.fst
    · simp [hfound]
    · rw [if_neg hfound, List.mem_cons]
      simp [hfound]

theorem sublist_needMigrate (allRefs : List (String × String)) :
    ∀ (l : List (String × String)) (refPrefix : String),
      (needMigrate allRefs refPrefix l).Sublist l := by
  intro l
  induction l with
  | nil => exact fun _ => List.Sublist.slnil
  | cons e rest ih =>
    intro refPrefix
    show (if refPrefix ++ e.1 ∈ allRefs.map Prod.fst then
      needMigrate allRefs (refPrefix ++ e.1) rest
      else e :: needMigrate allRefs (refPrefix ++ e.1) rest).Sublist (e :: rest)
    split
    · exact (ih _).cons e
    · exact (ih _).cons_cons e

/-- The refs to migrate. -/
def World.todo (w : World) (repoName : String) (refs : Refs) : List (String × String) :=
  needMigrate (refs.entries.filter (hasPrefix (repoName ++ ":"))) (repoName ++ ":")
    (w.order repoName refs)

theorem mem_todo_iff {e : String × String} :
    e ∈ w.todo repoName refs ↔ ∃ front back, w.order repoName refs = front ++ e :: back ∧
      refs.lookup (lookedUp repoName (front ++ [e])) = none := by
  have hloop : e ∈ needMigrate (refs.entries.filter (hasPrefix (repoName ++ ":")))
      (lookedUp repoName []) (w.order repoName refs) ↔ _ :=
    mem_needMigrate_iff _ e (w.order repoName refs) []
  refine hloop.trans ?_
  simp only [List.nil_append, mem_filter_hasPrefix_iff, ne_eq, not_not]

theorem mem_order_iff {e : String × String} :
    e ∈ w.order repoName refs ↔ e ∈ refs.entries ∧ hasPrefix (repoName ++ ":") e = false := by
  unfold World.order
  rw [(w.iterate_perm _).mem_iff, List.mem_filter, Bool.not_eq_true']

/-- Every ref comes once. -/
theorem nodup_order : ((w.order repoName refs).map Prod.fst).Nodup := by
  unfold World.order
  rw [((w.iterate_perm _).map Prod.fst).nodup_iff]
  exact (List.filter_sublist.map Prod.fst).nodup refs.nodup

theorem mem_order_of_mem_todo {e : String × String} (h : e ∈ w.todo repoName refs) :
    e ∈ w.order repoName refs := by
  obtain ⟨front, back, hsplit, -⟩ := mem_todo_iff.1 h
  rw [hsplit]
  exact List.mem_append_right _ List.mem_cons_self

theorem not_mem_of_split {front back : List (String × String)} {e : String × String}
    (hsplit : w.order repoName refs = front ++ e :: back) : e ∉ front ∧ e ∉ back := by
  have hnodup : (w.order repoName refs).Nodup := nodup_order.of_map
  rw [hsplit, List.nodup_append, List.nodup_cons] at hnodup
  obtain ⟨-, ⟨hback, -⟩, hdisjoint⟩ := hnodup
  exact ⟨fun hmem => hdisjoint e hmem e List.mem_cons_self rfl, hback⟩

/-- A ref is to be migrated iff its name is not found at its own place. -/
theorem mem_todo_of_split {front back : List (String × String)} {e : String × String}
    (hsplit : w.order repoName refs = front ++ e :: back) :
    e ∈ w.todo repoName refs ↔ refs.lookup (lookedUp repoName (front ++ [e])) = none := by
  rw [mem_todo_iff]
  constructor
  · intro ⟨front', back', hsplit', hnone⟩
    -- it has no other place
    obtain ⟨hfront, hback⟩ := not_mem_of_split hsplit
    rw [hsplit, List.append_cons_inj_of_notMem hfront hback] at hsplit'
    rwa [hsplit'.1]
  · intro hnone
    exact ⟨front, back, hsplit, hnone⟩

/-! ### Setting refs -/

theorem lookup_refs_set (ref commit key : String) :
    (refs.set ref commit).lookup key = if key = ref then some commit else refs.lookup key :=
  lookup_set ref key commit refs.entries

theorem lookup_setAll_of_ne {key : String} (l : List (String × String))
    (h : ∀ e ∈ l, key ≠ remoteRef repoName e.1) :
    (refs.setAll repoName l).lookup key = refs.lookup key := by
  induction l generalizing refs with
  | nil => rfl
  | cons e rest ih =>
    show ((refs.set (remoteRef repoName e.1) e.2).setAll repoName rest).lookup key = _
    rw [ih fun e' he' => h e' (List.mem_cons_of_mem _ he'), lookup_refs_set,
      if_neg (h e List.mem_cons_self)]

theorem lookup_setAll_of_mem {l : List (String × String)} (hnodup : (l.map Prod.fst).Nodup)
    {e : String × String} (h : e ∈ l) :
    (refs.setAll repoName l).lookup (remoteRef repoName e.1) = some e.2 := by
  induction l generalizing refs with
  | nil => cases h
  | cons e' rest ih =>
    show ((refs.set (remoteRef repoName e'.1) e'.2).setAll repoName rest).lookup _ = _
    rw [List.map_cons, List.nodup_cons] at hnodup
    rcases List.mem_cons.1 h with rfl | hmem
    · -- nothing sets it again
      rw [lookup_setAll_of_ne, lookup_refs_set, if_pos rfl]
      intro e' he' heq
      exact hnodup.1 (remoteRef_inj heq ▸ List.mem_map_of_mem he')
    · exact ih hnodup.2 hmem

/-- Setting refs changes nothing iff they have been set before. -/
theorem setAll_same_iff {l : List (String × String)} (hnodup : (l.map Prod.fst).Nodup) :
    SameRefs (refs.setAll repoName l) refs ↔
      ∀ e ∈ l, refs.lookup (remoteRef repoName e.1) = some e.2 := by
  constructor
  · intro h e he
    rw [← h, lookup_setAll_of_mem hnodup he]
  · intro h key
    by_cases hkey : ∃ e ∈ l, key = remoteRef repoName e.1
    · obtain ⟨e, he, rfl⟩ := hkey
      rw [lookup_setAll_of_mem hnodup he, h e he]
    · exact lookup_setAll_of_ne l fun e he heq => hkey ⟨e, he, heq⟩

/-- Setting refs of the remote leaves the others as they are. -/
theorem order_setAll (l : List (String × String)) :
    w.order repoName (refs.setAll repoName l) = w.order repoName refs := by
  induction l generalizing refs with
  | nil => rfl
  | cons e rest ih =>
    show w.order repoName ((refs.set (remoteRef repoName e.1) e.2).setAll repoName rest) = _
    rw [ih]
    have hprefixed : ∀ commit, hasPrefix (repoName ++ ":") (remoteRef repoName e.1, commit) = true :=
      fun commit => hasPrefix_lookedUp [e] commit
    have hothers : (refs.set (remoteRef repoName e.1) e.2).entries.filter
          (fun e => !hasPrefix (repoName ++ ":") e) =
        refs.entries.filter fun e => !hasPrefix (repoName ++ ":") e := by
      -- what is set has the prefix, and so has what it replaces
      show List.filter _ ((remoteRef repoName e.1, e.2) :: _) = _
      rw [List.filter_cons_of_neg (by rw [hprefixed]; simp), List.filter_filter]
      refine List.filter_congr fun e' _ => ?_
      by_cases heq : e'.1 = remoteRef repoName e.1
      · obtain ⟨ref, commit⟩ := e'
        rw [show ref = remoteRef repoName e.1 from heq, hprefixed]
        rfl
      · simp [heq]
    unfold World.order
    rw [hothers]

/-! ### One run -/

theorem todo_of_empty (h : refs.entries = []) : w.todo repoName refs = [] := by
  refine List.eq_nil_iff_forall_not_mem.2 fun e he => ?_
  have hmem := (mem_order_iff.1 (mem_order_of_mem_todo he)).1
  rw [h] at hmem
  cases hmem

/-- **Run**: the refs that are written are set. -/
theorem migrateRef_refs (w : World) (repoName : String) (refs : Refs) :
    (migrateRef w repoName refs).refs =
      refs.setAll repoName ((w.todo repoName refs).filter w.writes) := by
  have hnone : w.todo repoName refs = [] ∨ (∀ e, w.writes e = false) →
      refs.setAll repoName ((w.todo repoName refs).filter w.writes) = refs := by
    intro h
    have hempty : (w.todo repoName refs).filter w.writes = [] := by
      rcases h with h | h
      · rw [h]
        rfl
      · exact List.filter_eq_nil_iff.2 fun e _ => by simp [h e]
    rw [hempty]
    rfl
  -- the returns of the function in their order
  unfold migrateRef
  by_cases hlists : w.lists = false
  · rw [if_pos hlists, hnone (.inr fun e => by simp [World.writes, hlists])]
  rw [if_neg hlists]
  by_cases hempty : refs.entries = []
  · rw [if_pos hempty, hnone (.inl (todo_of_empty hempty))]
  rw [if_neg hempty]
  show (if w.todo repoName refs = [] then (⟨0, refs⟩ : Outcome) else _).refs = _
  by_cases htodo : w.todo repoName refs = []
  · rw [if_pos htodo, hnone (.inl htodo)]
  rw [if_neg htodo]
  by_cases hprepares : w.prepares = false
  · rw [if_pos hprepares, hnone (.inr fun e => by simp [World.writes, hprepares])]
  rw [if_neg hprepares]
  rw [Bool.not_eq_false] at hlists hprepares
  cases hcommit : w.commitFails with
  | some done =>
    have hwrites : w.writes = fun e => decide (e.1 ∈ done) := by
      funext e
      simp [World.writes, hlists, hprepares, hcommit]
    rw [hwrites]
    rfl
  | none =>
    -- what fails after the commit takes nothing back
    have hall : (w.todo repoName refs).filter w.writes = w.todo repoName refs :=
      List.filter_eq_self.2 fun e _ => by simp [World.writes, hlists, hprepares, hcommit]
    rw [hall]
    show (if w.layers ≠ .present then (⟨-1, refs.setAll repoName (w.todo repoName refs)⟩ : Outcome)
      else _).refs = _
    split
    · rfl
    · show (if _ then (⟨1, refs.setAll repoName (w.todo repoName refs)⟩ : Outcome) else _).refs = _
      split
      · rfl
      · rfl

/-- A run that succeeds has written all of them. -/
theorem writes_of_success (h : (migrateRef w repoName refs).ret ≠ -1) {e : String × String}
    (he : e ∈ w.todo repoName refs) : w.writes e = true := by
  have hentries : refs.entries ≠ [] := by
    intro hempty
    rw [todo_of_empty hempty] at he
    cases he
  have htodo : w.todo repoName refs ≠ [] := List.ne_nil_of_mem he
  -- all returns before the transaction is committed are out
  unfold migrateRef at h
  by_cases hlists : w.lists = false
  · rw [if_pos hlists] at h
    exact absurd rfl h
  rw [if_neg hlists, if_neg hentries] at h
  replace h : Outcome.ret (if w.todo repoName refs = [] then (⟨0, refs⟩ : Outcome) else _) ≠ -1 := h
  rw [if_neg htodo] at h
  by_cases hprepares : w.prepares = false
  · rw [if_pos hprepares] at h
    exact absurd rfl h
  rw [if_neg hprepares] at h
  cases hcommit : w.commitFails with
  | some done =>
    rw [hcommit] at h
    exact absurd rfl h
  | none =>
    rw [Bool.not_eq_false] at hlists hprepares
    simp [World.writes, hlists, hprepares, hcommit]

theorem hasPrefix_of_noRemote {ref commit : String} (h : ':' ∉ ref.toList) :
    hasPrefix (repoName ++ ":") (ref, commit) = false := by
  rw [Bool.eq_false_iff]
  intro hprefix
  have hmem : ':' ∈ (repoName ++ ":").toList := by
    rw [String.toList_append]
    exact List.mem_append_right _ (by decide)
  exact h ((List.isPrefixOf_iff_prefix.1 hprefix).subset hmem)

/-- **First run**: what is set is what should be set iff the names are looked
    up right. -/
theorem migrates_iff :
    Migrates repoName refs (refs.setAll repoName (w.todo repoName refs)) ↔
      LooksUpRight w repoName refs := by
  have hnodup : ((w.todo repoName refs).map Prod.fst).Nodup :=
    ((sublist_needMigrate _ _ _).map Prod.fst).nodup nodup_order
  have hset : ∀ e ∈ w.todo repoName refs,
      (refs.setAll repoName (w.todo repoName refs)).lookup (remoteRef repoName e.1) = some e.2 :=
    fun e he => lookup_setAll_of_mem hnodup he
  have hentry : ∀ e ∈ w.order repoName refs, refs.lookup e.1 = some e.2 :=
    fun e he => lookup_eq_some_iff.2 (mem_order_iff.1 he).1
  constructor
  · intro h front e back hsplit
    have horder : e ∈ w.order repoName refs := by
      rw [hsplit]
      exact List.mem_append_right _ List.mem_cons_self
    refine ⟨fun hwanted => ?_, fun hnone hnot => ?_⟩
    · -- a wanted ref has been set, so it was not found
      rw [← mem_todo_of_split hsplit]
      by_contra hskipped
      have hcopied := h.copied e.1 e.2 (hentry e horder) hwanted
      rw [lookup_setAll_of_ne, hwanted.2] at hcopied
      · cases hcopied
      · intro e' he' heq
        have hsame : e' = e := by
          have hcommit := hentry e' (mem_order_of_mem_todo he')
          rw [← remoteRef_inj heq, hentry e horder, Option.some_inj] at hcommit
          exact Prod.ext (remoteRef_inj heq).symm hcommit.symm
        exact hskipped (hsame ▸ he')
    · -- another one that is set must be what it was
      have hkept := h.kept (remoteRef repoName e.1) fun ref _ hwanted heq =>
        hnot (remoteRef_inj heq ▸ hwanted)
      rw [← hkept]
      exact hset e ((mem_todo_of_split hsplit).2 hnone)
  · intro h
    refine ⟨fun ref commit hcommit hwanted => ?_, fun key hkey => ?_⟩
    · have horder : (ref, commit) ∈ w.order repoName refs := by
        refine mem_order_iff.2 ⟨lookup_eq_some_iff.1 hcommit, ?_⟩
        exact hasPrefix_of_noRemote hwanted.1
      obtain ⟨front, back, hsplit⟩ := List.append_of_mem horder
      exact hset _ ((mem_todo_of_split hsplit).2 ((h front _ back hsplit).1 hwanted))
    · by_cases hset' : ∃ e ∈ w.todo repoName refs, key = remoteRef repoName e.1
      · obtain ⟨e, he, rfl⟩ := hset'
        have horder := mem_order_of_mem_todo he
        obtain ⟨front, back, hsplit⟩ := List.append_of_mem horder
        have hnone := (mem_todo_of_split hsplit).1 he
        have hnot : ¬ Wanted repoName refs e.1 := by
          intro hwanted
          refine hkey e.1 ?_ hwanted rfl
          rw [hentry e horder]
          exact Option.some_ne_none _
        rw [hset e he, (h front e back hsplit).2 hnone hnot]
      · exact lookup_setAll_of_ne _ fun e he heq => hset' ⟨e, he, heq⟩

theorem Migrates.lookup {after : Refs} (h : Migrates repoName refs after) (key : String) :
    after.lookup key = migrated repoName refs key := by
  unfold migrated
  cases hfind : refs.entries.find? fun e =>
      Wanted repoName refs e.1 ∧ remoteRef repoName e.1 = key with
  | some e =>
    have hfound := List.find?_some hfind
    simp only [decide_eq_true_eq] at hfound
    obtain ⟨hwanted, rfl⟩ := hfound
    exact h.copied e.1 e.2 (lookup_eq_some_iff.2 (List.mem_of_find?_eq_some hfind)) hwanted
  | none =>
    refine h.kept key fun ref hsome hwanted heq => ?_
    obtain ⟨commit, hcommit⟩ := Option.ne_none_iff_exists'.1 hsome
    have hnone := List.find?_eq_none.1 hfind _ (lookup_eq_some_iff.1 hcommit)
    exact hnone (decide_eq_true ⟨hwanted, heq.symm⟩)

/-- **Migration**: a successful run copies the refs it should, and another
    run changes nothing, iff the names are looked up right. -/
theorem migrateRef_iff (w w' : World) (h : (migrateRef w repoName refs).ret ≠ -1) :
    (Migrates repoName refs (migrateRef w repoName refs).refs ∧
        SameRefs (migrateRef w' repoName (migrateRef w repoName refs).refs).refs
          (migrateRef w repoName refs).refs) ↔
      LooksUpRight w repoName refs ∧ LooksUpAgain w' repoName refs := by
  have hfirst : (migrateRef w repoName refs).refs =
      refs.setAll repoName (w.todo repoName refs) := by
    rw [migrateRef_refs, List.filter_eq_self.2 fun e he => writes_of_success h he]
  rw [hfirst, migrates_iff]
  refine and_congr_right fun hright => ?_
  have hlookup := (migrates_iff.2 hright).lookup
  have horder : w'.order repoName (refs.setAll repoName (w.todo repoName refs)) =
      w'.order repoName refs := order_setAll _
  generalize refs.setAll repoName (w.todo repoName refs) = refs' at hlookup horder ⊢
  have hnodup : (((w'.todo repoName refs').filter w'.writes).map Prod.fst).Nodup :=
    ((List.filter_sublist.trans (sublist_needMigrate _ _ _)).map Prod.fst).nodup nodup_order
  rw [migrateRef_refs, setAll_same_iff hnodup]
  unfold LooksUpAgain
  rw [← horder]
  simp only [← hlookup, List.mem_filter]
  constructor
  · intro hsame front e back hsplit hwrites hnone
    exact hsame e ⟨(mem_todo_of_split hsplit).2 hnone, hwrites⟩
  · intro hsame e ⟨htodo, hwrites⟩
    obtain ⟨front, back, hsplit, hnone⟩ := mem_todo_iff.1 htodo
    exact hsame front e back hsplit hwrites hnone

/-- One ref, and the default remote does not have it. -/
def oneRef : Refs := ⟨[("chess/binary", "1")], by decide⟩

theorem migrateRef_oneRef : (migrateRef .quiet "stable" oneRef).ret ≠ -1 ∧
    Migrates "stable" oneRef (migrateRef .quiet "stable" oneRef).refs ∧
      SameRefs (migrateRef .quiet "stable" (migrateRef .quiet "stable" oneRef).refs).refs
        (migrateRef .quiet "stable" oneRef).refs := by
  have hsuccess : (migrateRef .quiet "stable" oneRef).ret ≠ -1 := by decide
  have hplace : ∀ front e back, World.quiet.order "stable" oneRef = front ++ e :: back →
      front = [] ∧ e = ("chess/binary", "1") := by
    intro front e back hsplit
    have horder : World.quiet.order "stable" oneRef = [("chess/binary", "1")] := by decide
    rw [horder, eq_comm, List.append_eq_singleton_iff] at hsplit
    rcases hsplit with ⟨hfront, he⟩ | ⟨_, he⟩
    · exact ⟨hfront, (List.cons.inj he).1⟩
    · cases he
  refine ⟨hsuccess, (migrateRef_iff .quiet .quiet hsuccess).2 ⟨?_, ?_⟩⟩
  · intro front e back hsplit
    obtain ⟨rfl, rfl⟩ := hplace front e back hsplit
    exact ⟨fun _ => by decide, fun _ hnot => absurd (by decide) hnot⟩
  · intro front e back hsplit _ hnone
    obtain ⟨rfl, rfl⟩ := hplace front e back hsplit
    exact absurd hnone (by decide)

/-- Two refs, and the default remote has both, with other commits. -/
def twoRefs : Refs :=
  ⟨[("chess/binary", "1"), ("go/binary", "2"), ("stable:chess/binary", "3"),
    ("stable:go/binary", "4")], by decide⟩

/-- **Counterexample**: the second ref is looked up as
    `stable:chess/binarygo/binary`, and the one that is there is replaced. -/
theorem not_migrateRef : ¬ ∀ (w w' : World) (repoName : String) (refs : Refs),
    (migrateRef w repoName refs).ret ≠ -1 →
      Migrates repoName refs (migrateRef w repoName refs).refs ∧
        SameRefs (migrateRef w' repoName (migrateRef w repoName refs).refs).refs
          (migrateRef w repoName refs).refs := by
  intro h
  have hsuccess : (migrateRef .quiet "stable" twoRefs).ret ≠ -1 := by decide
  obtain ⟨hright, -⟩ := (migrateRef_iff .quiet .quiet hsuccess).1 (h .quiet .quiet _ _ hsuccess)
  have hsecond := (hright [("chess/binary", "1")] ("go/binary", "2") [] (by decide)).2 (by decide)
    (by decide)
  exact absurd hsecond (by decide)

/-! ## Section 6: The start of the package manager -/

/-- The file `.version` in the directory of the repository. -/
inductive VersionFile where
  | absent | unreadable
  | text (content : List Char)

inductive MigrateResult where
  | success | failed | noChange
  deriving DecidableEq

/-- `repoVersion.value_or("1.5.0")`. -/
def VersionFile.repoVer : VersionFile → List Char
  | .text content => content
  | _ => "1.5.0".toList

/-- What `tryMigrate` leaves behind. -/
structure Attempt where
  result : MigrateResult
  versionFile : VersionFile
  outcome : Option Outcome

/-- `tryMigrate`, when the directory of the repository is there and the file
    can be read if it is there. -/
def migrateFrom (w : World) (version : VersionFile) (writable : Bool)
    (linglongVersion : List Char) (repoName : String) (refs : Refs) : Attempt :=
  if version.repoVer = linglongVersion then ⟨.noChange, version, none⟩
  else
    match parseVersion version.repoVer with
    | none => ⟨.failed, version, none⟩
    | some source =>
        let (ret, outcome) := dispatchMigrations w source repoName refs
        if ret = -1 then ⟨.failed, version, outcome⟩
        else if writable then
          ⟨if ret = 0 then .noChange else .success, .text linglongVersion, outcome⟩
        else ⟨.failed, version, outcome⟩

/-- `tryMigrate`. -/
def tryMigrate (w : World) (root : Status) (version : VersionFile) (writable : Bool)
    (linglongVersion : List Char) (repoName : String) (refs : Refs) : Attempt :=
  match root, version with
  | .unknown, _ => ⟨.failed, version, none⟩
  | .absent, _ => ⟨.noChange, version, none⟩
  | .present, .unreadable => ⟨.failed, version, none⟩
  | .present, _ => migrateFrom w version writable linglongVersion repoName refs

theorem outcome_of_current {version : VersionFile} {linglongVersion : List Char}
    (h : version.repoVer = linglongVersion) (w : World) (root : Status) (writable : Bool)
    (repoName : String) (refs : Refs) :
    (tryMigrate w root version writable linglongVersion repoName refs).outcome = none := by
  have hfrom : (migrateFrom w version writable linglongVersion repoName refs).outcome = none := by
    unfold migrateFrom
    rw [if_pos h]
  unfold tryMigrate
  cases root with
  | present =>
    cases version with
    | unreadable => rfl
    | absent => exact hfrom
    | text content => exact hfrom
  | absent => rfl
  | unknown => rfl

/-- What does not fail leaves the current version in the file. -/
theorem repoVer_of_migrateFrom {version : VersionFile} {writable : Bool}
    {linglongVersion : List Char}
    (h : (migrateFrom w version writable linglongVersion repoName refs).result ≠ .failed) :
    (migrateFrom w version writable linglongVersion repoName refs).versionFile.repoVer =
      linglongVersion := by
  unfold migrateFrom at h ⊢
  by_cases hcurrent : version.repoVer = linglongVersion
  · rw [if_pos hcurrent]
    exact hcurrent
  rw [if_neg hcurrent] at h ⊢
  cases hparse : parseVersion version.repoVer with
  | none =>
    rw [hparse] at h
    exact absurd rfl h
  | some source =>
    rw [hparse] at h
    simp only at h ⊢
    generalize dispatchMigrations w source repoName refs = dispatched at h ⊢
    obtain ⟨ret, outcome⟩ := dispatched
    simp only at h ⊢
    by_cases hret : ret = -1
    · rw [if_pos hret] at h
      exact absurd rfl h
    rw [if_neg hret] at h ⊢
    cases writable with
    | false => exact absurd rfl h
    | true => rfl

/-- **Once**: after a migration that did not fail nothing is migrated any
    more, by the same version. -/
theorem tryMigrate_again (w w' : World) (version : VersionFile) (writable writable' : Bool)
    (linglongVersion : List Char) (repoName : String) (refs refs' : Refs)
    (h : (tryMigrate w .present version writable linglongVersion repoName refs).result ≠ .failed) :
    (tryMigrate w' .present
      (tryMigrate w .present version writable linglongVersion repoName refs).versionFile
      writable' linglongVersion repoName refs').outcome = none := by
  refine outcome_of_current ?_ w' _ _ _ _
  cases version with
  | unreadable => exact absurd rfl h
  | absent => exact repoVer_of_migrateFrom h
  | text content => exact repoVer_of_migrateFrom h

end Migrate

end Linglong
