import Mathlib.Algebra.Order.BigOperators.Group.List
import Mathlib.Algebra.Order.Group.Nat
import Linglong.Framework.Separator
import Linglong.Repo.Migrate

/-! # The Last Box

    `ll-box exec` enters the namespaces of the innermost `ll-box` process of
    a container (`apps/ll-box/src/main.cpp`). `findLastBox` follows the files
    with the children of a process; where the kernel does not have them,
    `findLastBoxFallback` goes once through all processes and reads the
    parent of each from its `stat` file.

    1. Processes and the two searches.
    2. The parent in a `stat` file.
    3. The search through children (`lastBoxFrom_spec`).
    4. What the fallback returns (`never_agrees`).
-/

namespace Linglong.Box.LastBox

open Framework
open Migrate (stoi)

/-! ## Section 1: Processes and the two searches -/

/-- A process: what is in its `stat` file and where its link `exe` leads, as
    far as these can be read. -/
structure Process where
  pid : Nat
  parent : Nat
  stat : Option (List Char)
  exe : Option (List Char)
  deriving DecidableEq

/-- The last component of a path. -/
def filename (path : List Char) : List Char := (path.splitOn '/').getLastD []

/-- The line of `stat` for a process whose name has no blank. -/
def statLine (p : Process) (comm state rest : List Char) : List Char :=
  Nat.toDigits 10 p.pid ++ ' ' :: ('(' :: comm ++ [')']) ++ ' ' :: state ++
    ' ' :: Nat.toDigits 10 p.parent ++ ' ' :: rest

/-- The processes under `/proc`, in the order of the directory, and the name
    of the own executable. -/
structure ProcessTree where
  procs : List Process
  selfExe : List Char
  /-- The children of a process, in the order of its file. -/
  children : Nat → List Nat
  nodup : (procs.map Process.pid).Nodup
  pid_lt : ∀ p ∈ procs, p.parent < 2 ^ 31
  mem_children : ∀ pid c, c ∈ children pid ↔ ∃ p ∈ procs, p.pid = c ∧ p.parent = pid
  /-- The way to the first process. -/
  depth : Nat → Nat
  depth_lt : ∀ p ∈ procs, depth p.parent < depth p.pid
  box_stat : ∀ p ∈ procs, p.exe.map filename = some (filename selfExe) →
    ∃ comm state rest, ' ' ∉ comm ∧ ' ' ∉ state ∧ '\n' ∉ comm ∧ '\n' ∉ state ∧
      p.stat = some (statLine p comm state rest)
  /-- A box has started at most one box. -/
  box_child : ∀ b ∈ procs, b.exe.map filename = some (filename selfExe) →
    ∀ p ∈ procs, ∀ q ∈ procs, p.exe.map filename = some (filename selfExe) →
      q.exe.map filename = some (filename selfExe) → p.parent = b.pid → q.parent = b.pid → p = q

namespace ProcessTree

variable (tree : ProcessTree)

/-- The process runs `ll-box`. -/
def IsBox (p : Process) : Prop := p.exe.map filename = some (filename tree.selfExe)

/-- `stream >> chPid`, until a child is found that is an `ll-box`. -/
def firstBox : List Nat → Except Unit (Option Nat)
  | [] => .ok none
  | chPid :: rest =>
      match (tree.procs.find? fun p => p.pid = chPid).bind Process.exe with
      | none => .error ()
      | some realExe =>
          if filename realExe = filename tree.selfExe then .ok (some chPid) else firstBox rest

/-- The loop of `findLastBox`, for some number of rounds. -/
def lastBoxFrom : Nat → Nat → Option Int
  | 0, _ => none
  | fuel + 1, pid =>
      match tree.firstBox (tree.children pid) with
      | .error _ => some (-1)
      | .ok none => some pid
      | .ok (some chPid) => lastBoxFrom fuel chPid

end ProcessTree

/-- `findParentPid`; nothing where `std::stoi` throws, which ends the program.
    Three times what is before a blank is skipped. -/
def findParentPid (stat : Option (List Char)) : Option Int :=
  match stat with
  | none => some (-1)
  | some text =>
      if text = [] then some (-1)
      else stoi ((((text.takeWhile (· ≠ '\n')).splitOn ' ').take 4).getLastD [])

namespace ProcessTree

variable (tree : ProcessTree)

/-- The loop of `findLastBoxFallback`. -/
def scan : List Process → Int → Int → Option Int
  | [], _, lastBox => some lastBox
  | p :: rest, currentPid, lastBox =>
      match findParentPid p.stat with
      | none => none
      | some parent =>
          if parent ≠ currentPid then scan rest currentPid lastBox
          else
            match p.exe with
            | none => some (-1)
            | some bin =>
                if filename bin = filename tree.selfExe then scan rest p.pid currentPid
                else some lastBox

/-- `findLastBoxFallback`. The processes are ordered by a map. -/
def findLastBoxFallback (rootPid : Nat) : Option Int :=
  tree.scan ((tree.procs.filter fun p => rootPid < p.pid).mergeSort fun p q => p.pid ≤ q.pid)
    rootPid (-1)

/-- From a process to a child, where both are boxes. -/
def BoxChild (pid child : Nat) : Prop :=
  ∃ p ∈ tree.procs, tree.IsBox p ∧ p.pid = child ∧ p.parent = pid

/-- The last process of the chain of boxes from some process on. -/
inductive Last : Nat → Nat → Prop
  | here {pid : Nat} : (∀ child, ¬ tree.BoxChild pid child) → Last pid pid
  | down {pid child last : Nat} : tree.BoxChild pid child → Last child last → Last pid last

/-- The fallback returns the last box, which `findLastBox` returns too. -/
def Agrees (rootPid : Nat) : Prop :=
  ∃ last fuel, tree.Last rootPid last ∧ tree.lastBoxFrom fuel rootPid = some (last : Int) ∧
    tree.findLastBoxFallback rootPid = some (last : Int)

end ProcessTree

/-! ## Section 2: The parent in a `stat` file -/

theorem foldl_digits (l : List Char) : ∀ k : Nat,
    l.foldl (fun (n : Int) c => 10 * n + (c.toNat - '0'.toNat : Nat)) (k : Int) =
      ((l.foldl (fun n c => 10 * n + (c.toNat - '0'.toNat)) k : Nat) : Int) := by
  induction l with
  | nil => exact fun _ => rfl
  | cons c l ih =>
    intro k
    rw [List.foldl_cons, List.foldl_cons, ← ih]
    push_cast
    rfl

/-- A digit is not a blank. -/
theorem not_isSpace_of_isDigit {c : Char} (h : c.isDigit = true) : ¬ Migrate.isSpace c = true := by
  have hlow : 48 ≤ c.toNat := by
    simp only [Char.isDigit, Bool.and_eq_true, decide_eq_true_eq, UInt32.le_iff_toNat_le] at h
    exact h.1
  simp only [Migrate.isSpace, Bool.or_eq_true, decide_eq_true_eq, Bool.and_eq_true]
  rintro (rfl | hrange)
  · exact absurd h (by decide)
  · omega

/-- A text of digits is read to its end. -/
theorem stoi_of_digits {text : List Char} (hne : text ≠ [])
    (hdigit : ∀ c ∈ text, c.isDigit = true) {n : Nat} (h : n < 2 ^ 31)
    (hvalue : text.foldl (fun n c => 10 * n + (c.toNat - '0'.toNat)) 0 = n) :
    stoi text = some (n : Int) := by
  have hall : text.takeWhile Char.isDigit = text := List.takeWhile_eq_self_iff.2 hdigit
  have hint : text.foldl (fun (n : Int) c => 10 * n + (c.toNat - '0'.toNat : Nat)) 0 = n := by
    have hfold := foldl_digits text 0
    rwa [hvalue] at hfold
  obtain ⟨c, cs, rfl⟩ := List.exists_cons_of_ne_nil hne
  have hc : c.isDigit = true := hdigit c List.mem_cons_self
  unfold stoi
  rw [List.dropWhile_cons_of_neg (not_isSpace_of_isDigit hc)]
  dsimp only
  -- the first character is no sign
  split
  · next heq =>
    rw [(List.cons.inj heq).1] at hc
    exact absurd hc (by decide)
  · next heq =>
    rw [(List.cons.inj heq).1] at hc
    exact absurd hc (by decide)
  · dsimp only
    rw [hall, if_neg hne, hint, if_pos (by omega)]
    rfl

/-- A number is read as it is written. -/
theorem stoi_toDigits {n : Nat} (h : n < 2 ^ 31) : stoi (Nat.toDigits 10 n) = some (n : Int) := by
  refine stoi_of_digits Nat.toDigits_ne_nil (fun c hc => ?_) h ?_
  · exact Nat.isDigit_of_mem_toDigits (by decide) (by decide) hc
  · rw [← Nat.ofDigitChars_eq_foldl, Nat.ofDigitChars_ten_toDigits]

theorem not_mem_toDigits (n : Nat) {c : Char} (h : c.isDigit = false) : c ∉ Nat.toDigits 10 n := by
  intro hmem
  rw [Nat.isDigit_of_mem_toDigits (by decide) (by decide) hmem] at h
  cases h

/-- The line ends after the fourth field or later. -/
theorem takeWhile_statLine (p : Process) {comm state : List Char} (rest : List Char)
    (hcomm : '\n' ∉ comm) (hstate : '\n' ∉ state) :
    (statLine p comm state rest).takeWhile (· ≠ '\n') =
      statLine p comm state (rest.takeWhile (· ≠ '\n')) := by
  have hfields : ∀ c ∈ Nat.toDigits 10 p.pid ++ ' ' :: ('(' :: comm ++ [')']) ++ ' ' :: state ++
      ' ' :: Nat.toDigits 10 p.parent ++ [' '], decide (c ≠ '\n') = true := by
    refine ne_of_not_mem ?_
    simp [not_mem_toDigits _ (show '\n'.isDigit = false by decide), hcomm, hstate]
  have hsplit : ∀ rest, statLine p comm state rest =
      (Nat.toDigits 10 p.pid ++ ' ' :: ('(' :: comm ++ [')']) ++ ' ' :: state ++
        ' ' :: Nat.toDigits 10 p.parent ++ [' ']) ++ rest := by
    intro rest
    simp [statLine]
  rw [hsplit, hsplit, List.takeWhile_append_of_pos hfields]

/-- The fourth field of the line. -/
theorem findParentPid_statLine {p : Process} {comm state rest : List Char} (h : p.parent < 2 ^ 31)
    (hcomm : ' ' ∉ comm) (hstate : ' ' ∉ state) (hcomm' : '\n' ∉ comm) (hstate' : '\n' ∉ state) :
    findParentPid (some (statLine p comm state rest)) = some (p.parent : Int) := by
  have hblank : ∀ n, ' ' ∉ Nat.toDigits 10 n := fun n => not_mem_toDigits n (by decide)
  have hname : ' ' ∉ '(' :: comm ++ [')'] := by simp [hcomm]
  have hne : statLine p comm state rest ≠ [] := by simp [statLine]
  have hfourth : ∀ rest, ((statLine p comm state rest).splitOn ' ').take 4 =
      [Nat.toDigits 10 p.pid, '(' :: comm ++ [')'], state, Nat.toDigits 10 p.parent] := by
    intro rest
    have hassoc : statLine p comm state rest = Nat.toDigits 10 p.pid ++ ' ' ::
        (('(' :: comm ++ [')']) ++ ' ' :: (state ++ ' ' :: (Nat.toDigits 10 p.parent ++
          ' ' :: rest))) := by
      simp [statLine]
    rw [hassoc, List.splitOn_append_cons_self_of_not_mem (hblank _),
      List.splitOn_append_cons_self_of_not_mem hname,
      List.splitOn_append_cons_self_of_not_mem hstate,
      List.splitOn_append_cons_self_of_not_mem (hblank _)]
    rfl
  unfold findParentPid
  dsimp only
  rw [if_neg hne, takeWhile_statLine p rest hcomm' hstate', hfourth]
  exact stoi_toDigits h

/-! ## Section 3: The search through children -/

namespace ProcessTree

variable {tree : ProcessTree}

theorem exe_of_mem {p : Process} (hp : p ∈ tree.procs) :
    (tree.procs.find? fun q => q.pid = p.pid).bind Process.exe = p.exe := by
  cases hfind : tree.procs.find? fun q => q.pid = p.pid with
  | none => exact absurd (List.find?_eq_none.1 hfind p hp) (by simp)
  | some q =>
    have hpid : q.pid = p.pid := by simpa using List.find?_some hfind
    rw [List.inj_on_of_nodup_map tree.nodup (List.mem_of_find?_eq_some hfind) hp hpid]
    rfl

/-- Every link `exe` can be read. -/
def Readable (tree : ProcessTree) : Prop := ∀ p ∈ tree.procs, p.exe.isSome = true

/-- The first child that is a box. -/
theorem firstBox_spec (hread : tree.Readable) {pid : Nat} {l : List Nat}
    (hl : ∀ c ∈ l, ∃ p ∈ tree.procs, p.pid = c ∧ p.parent = pid) :
    (∃ child, tree.firstBox l = .ok (some child) ∧ tree.BoxChild pid child) ∨
      (tree.firstBox l = .ok none ∧ ∀ p ∈ tree.procs, p.pid ∈ l → ¬ tree.IsBox p) := by
  induction l with
  | nil => exact .inr ⟨rfl, fun p _ hp => by cases hp⟩
  | cons c l ih =>
    obtain ⟨p, hp, rfl, hparent⟩ := hl c List.mem_cons_self
    obtain ⟨exe, hexe⟩ := Option.isSome_iff_exists.1 (hread p hp)
    rw [firstBox, exe_of_mem hp, hexe]
    dsimp only
    by_cases hbox : filename exe = filename tree.selfExe
    · rw [if_pos hbox]
      exact .inl ⟨p.pid, rfl, p, hp, by rw [IsBox, hexe, Option.map_some, hbox], rfl, hparent⟩
    · rw [if_neg hbox]
      rcases ih fun c hc => hl c (List.mem_cons_of_mem _ hc) with hfound | ⟨hnone, hno⟩
      · exact .inl hfound
      · refine .inr ⟨hnone, fun q hq hmem hq' => ?_⟩
        rcases List.mem_cons.1 hmem with hpid | hmem
        · -- it is the process that has been looked at
          rw [List.inj_on_of_nodup_map tree.nodup hq hp hpid, IsBox, hexe, Option.map_some,
            Option.some_inj] at hq'
          exact hbox hq'
        · exact hno q hq hmem hq'

/-- **Children**: `findLastBox` returns the last box of the chain. -/
theorem lastBoxFrom_spec (hread : tree.Readable) (pid : Nat) :
    ∃ last fuel, tree.Last pid last ∧ tree.lastBoxFrom fuel pid = some (last : Int) := by
  obtain ⟨bound, hbound⟩ : ∃ bound, ∀ p ∈ tree.procs, tree.depth p.pid ≤ bound :=
    ⟨(tree.procs.map fun p => tree.depth p.pid).sum, fun p hp =>
      List.le_sum_of_mem (List.mem_map.2 ⟨p, hp, rfl⟩)⟩
  -- by induction on how much deeper the tree can be
  induction hn : bound - tree.depth pid using Nat.strongRecOn generalizing pid with
  | ind n ih =>
    rcases firstBox_spec hread fun c hc => (tree.mem_children pid c).1 hc with
      ⟨child, hfirst, hchild⟩ | ⟨hfirst, hno⟩
    · have hdeeper : bound - tree.depth child < n := by
        obtain ⟨p, hp, -, rfl, rfl⟩ := hchild
        have h := hbound p hp
        have h' := tree.depth_lt p hp
        omega
      obtain ⟨last, fuel, hlast, hrun⟩ := ih _ hdeeper child rfl
      refine ⟨last, fuel + 1, .down hchild hlast, ?_⟩
      rw [lastBoxFrom, hfirst]
      exact hrun
    · refine ⟨pid, 1, .here fun child hchild => ?_, ?_⟩
      · obtain ⟨p, hp, hbox, rfl, hparent⟩ := hchild
        exact hno p hp ((tree.mem_children pid p.pid).2 ⟨p, hp, rfl, hparent⟩) hbox
      · rw [lastBoxFrom, hfirst]

/-! ## Section 4: What the fallback returns -/

theorem Last.no_child {pid last child : Nat} (h : tree.Last pid last) :
    ¬ tree.BoxChild last child := by
  induction h with
  | here hno => exact hno child
  | down _ _ ih => exact ih

/-- Not a process, or one with a child in the chain. -/
def HasChild (tree : ProcessTree) (lastBox : Int) : Prop :=
  lastBox = -1 ∨ ∃ pid child : Nat, lastBox = pid ∧ tree.BoxChild pid child

/-- **The fallback** remembers the parent of the box that it found. -/
theorem scan_hasChild {l : List Process} (hl : ∀ p ∈ l, p ∈ tree.procs) {currentPid : Nat}
    {lastBox result : Int} (h : tree.HasChild lastBox)
    (hrun : tree.scan l currentPid lastBox = some result) : tree.HasChild result := by
  induction l generalizing currentPid lastBox with
  | nil =>
    cases hrun
    exact h
  | cons p l ih =>
    have hmem : p ∈ tree.procs := hl p List.mem_cons_self
    have hrest : ∀ q ∈ l, q ∈ tree.procs := fun q hq => hl q (List.mem_cons_of_mem _ hq)
    rw [scan] at hrun
    cases hparent : findParentPid p.stat with
    | none =>
      rw [hparent] at hrun
      cases hrun
    | some parent =>
      rw [hparent] at hrun
      dsimp only at hrun
      by_cases hcurrent : parent ≠ currentPid
      · rw [if_pos hcurrent] at hrun
        exact ih hrest h hrun
      · rw [if_neg hcurrent] at hrun
        cases hexe : p.exe with
        | none =>
          rw [hexe] at hrun
          cases hrun
          exact .inl rfl
        | some bin =>
          rw [hexe] at hrun
          dsimp only at hrun
          by_cases hbox : filename bin = filename tree.selfExe
          · -- the next box is a child of the one that is remembered
            rw [if_pos hbox] at hrun
            have hisBox : tree.IsBox p := by rw [IsBox, hexe, Option.map_some, hbox]
            obtain ⟨comm, state, rest, hcomm, hstate, hcomm', hstate', hstat⟩ :=
              tree.box_stat p hmem hisBox
            rw [hstat, findParentPid_statLine (tree.pid_lt p hmem) hcomm hstate hcomm' hstate',
              Option.some_inj] at hparent
            refine ih hrest (.inr ⟨currentPid, p.pid, rfl, p, hmem, hisBox, rfl, ?_⟩) hrun
            have heq : (p.parent : Int) = currentPid := hparent.trans (not_not.1 hcurrent)
            exact_mod_cast heq
          · rw [if_neg hbox] at hrun
            cases hrun
            exact h

/-- **The searches never agree**: what the fallback returns has a child in the
    chain, or is no process. -/
theorem never_agrees (tree : ProcessTree) (rootPid : Nat) : ¬ tree.Agrees rootPid := by
  rintro ⟨last, fuel, hlast, -, hrun⟩
  have hall : ∀ p ∈ (tree.procs.filter fun p => rootPid < p.pid).mergeSort
      (fun p q => p.pid ≤ q.pid), p ∈ tree.procs := fun p hp =>
    (List.mem_filter.1 (List.mem_mergeSort.1 hp)).1
  rcases scan_hasChild hall (.inl rfl) hrun with hnone | ⟨pid, child, heq, hchild⟩
  · omega
  · have hpid : last = pid := by exact_mod_cast heq
    exact hlast.no_child (hpid ▸ hchild)

/-- An `ll-box`, and its child. -/
def outerBox : Process := ⟨7, 1, some "7 (ll-box) S 1 7".toList, some "/usr/bin/ll-box".toList⟩

def innerBox : Process := ⟨9, 7, some "9 (ll-box) S 7 9".toList, some "/usr/bin/ll-box".toList⟩

def twoBoxes : ProcessTree where
  procs := [outerBox, innerBox]
  selfExe := "/usr/bin/ll-box".toList
  children pid := if pid = 1 then [7] else if pid = 7 then [9] else []
  nodup := by decide
  pid_lt := by decide
  mem_children pid c := by
    by_cases h1 : pid = 1
    · simp [h1, eq_comm, outerBox, innerBox]
    · by_cases h7 : pid = 7
      · simp [h7, eq_comm, outerBox, innerBox]
      · simp [h1, h7, eq_comm, outerBox, innerBox]
  depth pid := pid
  depth_lt := by decide
  box_stat p hp _ := by
    have houter : outerBox.stat = some (statLine outerBox "ll-box".toList ['S'] ['7']) := by decide
    have hinner : innerBox.stat = some (statLine innerBox "ll-box".toList ['S'] ['9']) := by decide
    rcases List.mem_cons.1 hp with rfl | hp
    · exact ⟨_, _, _, by decide, by decide, by decide, by decide, houter⟩
    · rw [List.mem_singleton.1 hp]
      exact ⟨_, _, _, by decide, by decide, by decide, by decide, hinner⟩
  box_child b hb _ p hp q hq _ _ := by
    have hall : ∀ b ∈ [outerBox, innerBox], ∀ p ∈ [outerBox, innerBox],
        ∀ q ∈ [outerBox, innerBox], p.parent = b.pid → q.parent = b.pid → p = q := by decide
    exact hall b hb p hp q hq

/-- The fallback returns the first of the two, not the second. -/
theorem not_agrees_twoBoxes : ¬ ∀ (tree : ProcessTree), ∀ p ∈ tree.procs, tree.IsBox p →
    tree.Agrees p.pid := by
  intro h
  obtain ⟨last, fuel, hlast, -, hrun⟩ := h twoBoxes outerBox List.mem_cons_self rfl
  have hlater : (twoBoxes.procs.filter fun p => 7 < p.pid) = [innerBox] := rfl
  have hfallback : twoBoxes.findLastBoxFallback 7 = some 7 := by
    unfold findLastBoxFallback
    rw [hlater, List.mergeSort_singleton]
    decide
  have hseven : (7 : Int) = last := Option.some_inj.1 (hfallback.symm.trans hrun)
  have hpid : last = 7 := by omega
  rw [hpid] at hlast
  exact hlast.no_child ⟨innerBox, by simp [twoBoxes], rfl, rfl, rfl⟩

end ProcessTree

end Linglong.Box.LastBox
