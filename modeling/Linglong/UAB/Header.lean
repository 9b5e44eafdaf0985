import Linglong.Framework.Separator
import Linglong.Repo.Migrate

/-! # The UAB Header

    The header of a UAB (`apps/uab/header/src/main.cpp`) looks for `ll-cli`
    in the directories of `PATH`. It cuts `PATH` at the colons by hand.

    1. The search.
    2. The entries that are searched (`searchFrom_eq`).
    3. When the first `ll-cli` is found (`findsFirst_iff`).
-/

namespace Linglong.UABHeader

open Framework
open Migrate (find substr)

/-! ## Section 1: The search -/

/-- `S_IXOTH` of `sys/stat.h`. -/
def S_IXOTH : UInt32 := 1

/-- What `stat` says of a path: the mode, or nothing where it fails. -/
abbrev Stat := List Char → Option UInt32

/-- The file in a directory. -/
def binPath (entry : List Char) : List Char := entry ++ "/ll-cli".toList

/-- The directory has an executable `ll-cli`. -/
def hasCli (stat : Stat) (entry : List Char) : Bool :=
  match stat (binPath entry) with
  | some mode => mode &&& S_IXOTH != 0
  | none => false

theorem find_bounds {text : List Char} {c : Char} {pos found : Nat}
    (h : find text c pos = some found) : pos ≤ found ∧ found < text.length := by
  unfold find at h
  by_cases hmem : c ∈ text.drop pos
  · rw [if_pos hmem] at h
    cases h
    have hlt := List.idxOf_lt_length_of_mem hmem
    rw [List.length_drop] at hlt
    omega
  · rw [if_neg hmem] at h
    cases h

theorem split_of_find {text : List Char} {c : Char} {pos found : Nat}
    (h : find text c pos = some found) :
    text.drop pos = substr text pos (found - pos) ++ c :: text.drop (found + 1) ∧
      c ∉ substr text pos (found - pos) := by
  unfold find at h
  by_cases hmem : c ∈ text.drop pos
  · obtain ⟨before, rest, hdrop, hbefore⟩ := List.eq_append_cons_of_mem hmem
    rw [if_pos hmem, hdrop, List.idxOf_append, if_neg hbefore, List.idxOf_cons_self] at h
    cases h
    have hfirst : substr text pos (pos + (0 + before.length) - pos) = before := by
      unfold substr
      rw [hdrop, Nat.add_sub_cancel_left, Nat.zero_add, List.take_left]
    have hrest : text.drop (pos + (0 + before.length) + 1) = rest := by
      rw [show pos + (0 + before.length) + 1 = pos + (before.length + 1) by omega,
        ← List.drop_drop, hdrop]
      simp
    rw [hfirst, hrest]
    exact ⟨hdrop, hbefore⟩
  · rw [if_neg hmem] at h
    cases h

/-- The loop of `detectLinglong`. -/
def searchFrom (stat : Stat) (path : List Char) (startPos : Nat) : List Char :=
  match _ : find path ':' startPos with
  | none => []
  | some endPos =>
      let entry := substr path startPos (endPos - startPos)
      if hasCli stat entry then binPath entry else searchFrom stat path (endPos + 1)
termination_by path.length - startPos
decreasing_by
  have hbounds := find_bounds (by assumption)
  omega

/-- `detectLinglong`, with the value of the variable `PATH`. -/
def detectLinglong (stat : Stat) (pathPtr : Option (List Char)) : List Char :=
  match pathPtr with
  | none => []
  | some path => searchFrom stat path 0

/-! ## Section 2: The entries that are searched -/

/-- The entries of `PATH`. -/
def entries (path : List Char) : List (List Char) := path.splitOn ':'

/-- The path of `ll-cli` in the first of some directories that has it. -/
def firstCli (stat : Stat) (dirs : List (List Char)) : List Char :=
  match dirs.find? (hasCli stat) with
  | none => []
  | some entry => binPath entry

theorem binPath_ne_nil (entry : List Char) : binPath entry ≠ [] := by
  unfold binPath
  simp

theorem firstCli_eq_nil_iff {stat : Stat} {dirs : List (List Char)} :
    firstCli stat dirs = [] ↔ ∀ entry ∈ dirs, hasCli stat entry = false := by
  unfold firstCli
  cases hfind : dirs.find? (hasCli stat) with
  | none =>
    refine ⟨fun _ entry hentry => ?_, fun _ => rfl⟩
    simpa using List.find?_eq_none.1 hfind entry hentry
  | some entry =>
    refine ⟨fun h => absurd h (binPath_ne_nil entry), fun hall => ?_⟩
    have hcli := List.find?_some hfind
    rw [hall entry (List.mem_of_find?_eq_some hfind)] at hcli
    cases hcli

theorem entries_of_find {path : List Char} {startPos endPos : Nat}
    (h : find path ':' startPos = some endPos) :
    (entries (path.drop startPos)).dropLast =
      substr path startPos (endPos - startPos) :: (entries (path.drop (endPos + 1))).dropLast := by
  obtain ⟨hdrop, hcolon⟩ := split_of_find h
  unfold entries
  rw [hdrop, List.splitOn_append_cons_self_of_not_mem hcolon]
  exact List.dropLast_cons_of_ne_nil (List.splitOn_ne_nil _ _)

/-- **The search**: from a position on, it looks at all entries but the last,
    which no colon follows. -/
theorem searchFrom_eq (stat : Stat) (path : List Char) (startPos : Nat) :
    searchFrom stat path startPos = firstCli stat (entries (path.drop startPos)).dropLast := by
  fun_induction searchFrom stat path startPos with
  | case1 startPos hfind =>
    -- without a colon there is one entry, the last
    have hcolon : ':' ∉ path.drop startPos := by
      intro hmem
      unfold find at hfind
      rw [if_pos hmem] at hfind
      cases hfind
    rw [entries, List.splitOn_eq_singleton hcolon]
    rfl
  | case2 startPos endPos hfind entry hcli =>
    rw [entries_of_find hfind, firstCli, List.find?_cons_of_pos hcli]
  | case3 startPos endPos hfind entry hcli ih =>
    rw [entries_of_find hfind, firstCli, List.find?_cons_of_neg hcli, ih]
    rfl

/-! ## Section 3: When the first `ll-cli` is found -/

/-- What the search should return: `ll-cli` of the first entry that has it,
    and the empty string iff there is none. -/
structure FindsFirst (stat : Stat) (path cliPath : List Char) : Prop where
  first : ∀ before entry after, entries path = before ++ entry :: after →
    (∀ dir ∈ before, hasCli stat dir = false) → hasCli stat entry = true → cliPath = binPath entry
  empty : cliPath = [] ↔ ∀ entry ∈ entries path, hasCli stat entry = false

theorem findsFirst_firstCli (stat : Stat) (path : List Char) :
    FindsFirst stat path (firstCli stat (entries path)) where
  first := by
    intro before entry after hentries hbefore hcli
    have hskip : before.find? (hasCli stat) = none := by
      refine List.find?_eq_none.2 fun dir hdir => ?_
      rw [hbefore dir hdir]
      exact Bool.false_ne_true
    rw [firstCli, hentries, List.find?_append, hskip, List.find?_cons_of_pos hcli]
    rfl
  empty := firstCli_eq_nil_iff

/-- An entry at the end changes nothing if it has no `ll-cli`, or one before
    it has. -/
theorem firstCli_concat {stat : Stat} {dirs : List (List Char)} {last : List Char}
    (h : hasCli stat last = true → ∃ dir ∈ dirs, hasCli stat dir = true) :
    firstCli stat (dirs ++ [last]) = firstCli stat dirs := by
  unfold firstCli
  rw [List.find?_append]
  cases hfind : dirs.find? (hasCli stat) with
  | some entry => rfl
  | none =>
    have hlast : ¬ hasCli stat last = true := by
      intro hcli
      obtain ⟨dir, hdir, hdirCli⟩ := h hcli
      exact List.find?_eq_none.1 hfind dir hdir hdirCli
    rw [List.find?_cons_of_neg hlast]
    rfl

/-- **The search is right** iff the last entry has no `ll-cli`, or one before
    it has. -/
theorem findsFirst_iff (stat : Stat) (path : List Char) :
    FindsFirst stat path (detectLinglong stat (some path)) ↔
      (hasCli stat ((entries path).getLastD []) = true →
        ∃ dir ∈ (entries path).dropLast, hasCli stat dir = true) := by
  have hrun : detectLinglong stat (some path) = firstCli stat (entries path).dropLast :=
    searchFrom_eq stat path 0
  obtain ⟨dirs, last, hentries⟩ := (List.eq_nil_or_concat' (entries path)).resolve_left
    (List.splitOn_ne_nil ':' path)
  rw [hrun, hentries, List.dropLast_concat, List.getLastD_concat]
  constructor
  · intro hfinds hlast
    by_contra hnone
    have hdirs : ∀ dir ∈ dirs, hasCli stat dir = false := by
      intro dir hdir
      rw [← Bool.not_eq_true]
      exact fun hcli => hnone ⟨dir, hdir, hcli⟩
    -- the search finds nothing, but the last entry has it
    have hall := hfinds.empty.1 (firstCli_eq_nil_iff.2 hdirs)
    rw [hall last (by rw [hentries]; simp)] at hlast
    cases hlast
  · intro h
    rw [← firstCli_concat h, ← hentries]
    exact findsFirst_firstCli stat path

/-- `ll-cli` is in `/usr/bin` only. -/
def usrBin : Stat := fun file => if file = "/usr/bin/ll-cli".toList then some 0o100755 else none

example : detectLinglong usrBin (some "/opt/bin:/usr/bin:/sbin".toList) =
    "/usr/bin/ll-cli".toList := by
  rw [detectLinglong, searchFrom_eq]
  decide

/-- `/usr/bin` is the only entry, or the last one. -/
theorem not_findsFirst : ¬ ∀ (stat : Stat) (path : List Char),
    FindsFirst stat path (detectLinglong stat (some path)) := by
  intro h
  have hrun : detectLinglong usrBin (some "/bin:/usr/bin".toList) = [] := by
    rw [detectLinglong, searchFrom_eq]
    decide
  have hnone := (h usrBin "/bin:/usr/bin".toList).empty.1 hrun "/usr/bin".toList (by decide)
  exact absurd hnone (by decide)

end Linglong.UABHeader
