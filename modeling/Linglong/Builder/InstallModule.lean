import Linglong.Framework.DirTree
import Linglong.Framework.Lookup
import Linglong.Framework.PathText

/-! # Installing a Module

    `installModule` (`builder/linglong_builder.cpp`) moves what its rules name
    from the output of the build to a module. The rules of the module
    `binary` are the paths of all that is left in the output, read as if they
    were written by hand: blanks are normalised, a link to a directory counts
    as a directory, and the new path is found by replacing the text of the
    output directory.

    1. The trees.
    2. The texts of rules and paths.
    3. Installing.
    4. What a step does for a rule that is the path of an entry
       (`outcome_installRule`).
    5. The invariant, and what is new after a step.
-/

namespace Linglong.InstallModule

open Framework

/-! ## Section 1: The trees -/

abbrev Name := List Char

/-- A path below the output of the build, or below the files of a module. -/
abbrev Path := List Name

/-- What is at a path: a directory, some other file, or a link. -/
inductive Entry where
  | dir
  | file (object : Nat)
  | link (target : List Char)
  deriving DecidableEq

abbrev Tree := List (Path × Entry)

/-- The output of the build and the files of the module. The entries are in
    the order of `QDirIterator`. -/
structure Trees where
  src : Tree
  dest : Tree
  deriving DecidableEq

/-- A directory is left by each path to an entry. -/
structure IsTree (tree : Tree) : Prop where
  nodup : (tree.map Prod.fst).Nodup
  names : ∀ e ∈ tree, e.1 ≠ [] ∧ ∀ name ∈ e.1, IsName name
  closed : Closed .dir tree

/-- The rest of the system. -/
structure Host where
  /-- Where a link of the output leads: nowhere, to a directory (`true`), or
      to some other file. -/
  follow : Trees → Path → Option Bool
  /-- What becomes of the trees if the path of a rule goes through a link. -/
  throughLink : Trees → Path → Trees
  /-- `QFile::rename` of a link that leads nowhere. -/
  renamesDangling : Bool
  /-- `QRegularExpression::match`. -/
  hasMatch : List Char → List Char → Bool

def isLink : Option Entry → Bool
  | some (.link _) => true
  | _ => false

/-- A link is met before the end of a path. -/
def passesLink (tree : Tree) (p : Path) : Bool :=
  (List.range p.length).any fun n => isLink (tree.lookup (p.take n))

/-! ## Section 2: The texts of rules and paths -/

/-- `QChar::isSpace`. -/
def isSpace (c : Char) : Bool :=
  [0x20, 0x85, 0xA0, 0x1680, 0x2028, 0x2029, 0x202F, 0x205F, 0x3000].contains c.toNat ||
    (9 ≤ c.toNat && c.toNat ≤ 13) || (0x2000 ≤ c.toNat && c.toNat ≤ 0x200A)

/-- The text after its first character, with one blank for several, and none
    at the end. -/
def squeeze : Bool → List Char → List Char
  | _, [] => []
  | blank, c :: text =>
      if isSpace c then squeeze true text
      else if blank then ' ' :: c :: squeeze false text
      else c :: squeeze false text

/-- `QString::simplified`. -/
def simplified (text : List Char) : List Char := squeeze false (text.dropWhile isSpace)

example : simplified "  a \t b ".toList = "a b".toList := by decide

/-- `QString::replace`. So many characters belong to what has been replaced. -/
def replaceAll (before after : List Char) : Nat → List Char → List Char
  | _, [] => []
  | skip + 1, _ :: text => replaceAll before after skip text
  | 0, c :: text =>
      if before.isPrefixOf (c :: text) then
        after ++ replaceAll before after (before.length - 1) text
      else c :: replaceAll before after 0 text

variable (host : Host) (src dest : Path)

/-- `info.absoluteFilePath().replace(src, dest)`, as a path below `dest`. -/
def dstPath (p : Path) : Path :=
  (((replaceAll (slashed src) (slashed dest) 0 (slashed src ++ slashed p)).splitOn '/').filter
    (· ≠ [])).drop dest.length

/-- The path below `src` that `src + "/" + rule` means. -/
def meant (rule : List Char) : Option Path :=
  (resolve (slashed src ++ '/' :: rule)).bind fun place =>
    if src.isPrefixOf place then some (place.drop src.length) else none

/-! ## Section 3: Installing -/

/-- `QDir::mkpath`. -/
def mkpath (t : Trees) (d : Path) : Trees := { t with dest := mkdirs .dir t.dest [] d }

/-- `QFileInfo::isDir`. -/
def isDir (t : Trees) (p : Path) : Entry → Bool
  | .dir => true
  | .file _ => false
  | .link _ => host.follow t p = some true

/-- `QFile::rename` asks whether its file exists, -/
def canRename (t : Trees) (p : Path) : Entry → Bool
  | .link _ => (host.follow t p).isSome || host.renamesDangling
  | _ => true

/-- and does not replace another one. -/
def rename (t : Trees) (p d : Path) (e : Entry) : Trees :=
  if canRename host t p e = true ∧ entryAt .dir t.dest d = none ∧
      entryAt .dir t.dest d.dropLast = some .dir then
    ⟨t.src.filter fun x => x.1 ≠ p, t.dest ++ [(d, e)]⟩
  else t

/-- `installFile`. The results of `mkpath` and `rename` are not looked at. -/
def installFile (t : Trees) (p : Path) (e : Entry) : Trees :=
  let d := dstPath src dest p
  if passesLink t.dest d then host.throughLink t p
  else if isDir host t p e then mkpath t d
  else rename host (mkpath t d.dropLast) p d e

/-- A rule that is a path. A path outside of `src` stays as it is when `src`
    is replaced, and a slash at the end asks for a directory. -/
def installPath (t : Trees) (rule : List Char) : Trees :=
  match meant src rule with
  | none => t
  | some p =>
      if passesLink t.src p then host.throughLink t p
      else
        match entryAt .dir t.src p with
        | none => t
        | some e =>
            if meansDirectory rule && !isDir host t p e then t
            else installFile host src dest t p e

/-- A rule that is a regular expression. -/
def installMatches (t : Trees) (regexp : List Char) : Trees :=
  t.src.foldl (fun t e =>
    if host.hasMatch regexp (slashed src ++ slashed e.1) then installFile host src dest t e.1 e.2
    else t) t

/-- One round of the loop over the rules. -/
def installRule (t : Trees) (rule : List Char) : Trees :=
  match simplified rule with
  | [] => t
  | '#' :: _ => t
  | '^' :: '/' :: rule => installMatches host src dest t ('^' :: (slashed src ++ '/' :: rule))
  | '^' :: rule => installMatches host src dest t ('^' :: (slashed src ++ '/' :: rule))
  | rule => installPath host src dest t rule

/-- `installModule`. -/
def installModule (installRules : List (List Char)) (t : Trees) : Trees :=
  installRules.foldl (installRule host src dest) t

/-- The rules of the module `binary` when there is no `.install` file. -/
def binaryRules (tree : Tree) : List (List Char) := tree.map fun e => slashed e.1

/-! ## Section 4: What a step does -/

theorem isPrefixOf_append {α : Type} [BEq α] [LawfulBEq α] (before text : List α) :
    before.isPrefixOf (before ++ text) = true :=
  List.isPrefixOf_iff_prefix.2 (List.prefix_append before text)

/-- What has been replaced is skipped. -/
theorem replaceAll_skip (before after part text : List Char) :
    replaceAll before after part.length (part ++ text) = replaceAll before after 0 text := by
  induction part with
  | nil => rfl
  | cons c part ih => exact ih

theorem replaceAll_append {before : List Char} (h : before ≠ []) (after text : List Char) :
    replaceAll before after 0 (before ++ text) = after ++ replaceAll before after 0 text := by
  cases before with
  | nil => exact absurd rfl h
  | cons c before =>
    rw [List.cons_append, replaceAll, ← List.cons_append, if_pos (isPrefixOf_append _ _)]
    rw [List.length_cons, Nat.add_sub_cancel, replaceAll_skip]

theorem replaceAll_of_not_infix {before after text : List Char} (h : ¬ before <:+: text) :
    replaceAll before after 0 text = text := by
  induction text with
  | nil => rfl
  | cons c text ih =>
    have hhead : ¬ before.isPrefixOf (c :: text) = true := fun hbegins =>
      h (List.isPrefixOf_iff_prefix.1 hbegins).isInfix
    have htail : ¬ before <:+: text := fun hwithin =>
      h (hwithin.trans (List.suffix_cons c text).isInfix)
    rw [replaceAll, if_neg hhead, ih htail]

variable {src dest} in
/-- **Destinations**: a path in which the output directory does not come again
    stays the same. -/
theorem dstPath_eq (hsrc : src ≠ []) (hdest : ∀ name ∈ dest, IsName name) {p : Path}
    (hp : ∀ name ∈ p, IsName name) (h : ¬ slashed src <:+: slashed p) :
    dstPath src dest p = p := by
  have hnil : slashed src ≠ [] := fun hnil => hsrc (slashed_eq_nil_iff.1 hnil)
  have hall : ∀ name ∈ dest ++ p, name ≠ [] ∧ '/' ∉ name := by
    intro name hname
    rcases List.mem_append.1 hname with hname | hname
    · exact (hdest name hname).ne_nil_noSlash
    · exact (hp name hname).ne_nil_noSlash
  unfold dstPath
  rw [replaceAll_append hnil, replaceAll_of_not_infix h, ← slashed_append]
  show (parts '/' (slashed (dest ++ p))).drop dest.length = p
  rw [parts_slashed hall, List.drop_left]

/-- A text that begins with a slash. -/
theorem simplified_slash (text : List Char) :
    simplified ('/' :: text) = '/' :: squeeze false text := by
  have hslash : isSpace '/' = false := by decide
  rw [simplified, List.dropWhile_cons_of_neg (by rw [hslash]; decide), squeeze, hslash]
  rfl

/-- The text of a rule as it is read. -/
def ruleText (q : Path) : List Char := simplified (slashed q)

/-- The rule of an entry is a path. -/
theorem installRule_slashed (t : Trees) {q : Path} (h : q ≠ []) :
    installRule host src dest t (slashed q) = installPath host src dest t (ruleText q) := by
  cases q with
  | nil => exact absurd rfl h
  | cons name q =>
    rw [installRule, ruleText, slashed_cons, simplified_slash]
    rfl

theorem not_passesLink_iff {tree : Tree} {p : Path} :
    passesLink tree p = false ↔ ∀ q, q <+: p → q ≠ p → isLink (tree.lookup q) = false := by
  unfold passesLink
  rw [List.any_eq_false]
  constructor
  · intro h q hq hne
    have hlen : q.length < p.length := by
      rcases Nat.lt_or_ge q.length p.length with hlt | hge
      · exact hlt
      · exact absurd (hq.eq_of_length_le hge) hne
    have hn := h q.length (List.mem_range.2 hlen)
    rw [← List.prefix_iff_eq_take.1 hq] at hn
    simpa using hn
  · intro h n hn
    have hlen := List.mem_range.1 hn
    have hq := h (p.take n) (List.take_prefix n p) (fun heq => by
      have hlength := congrArg List.length heq
      rw [List.length_take] at hlength
      omega)
    simp [hq]

/-- What the text of an entry's rule means. -/
def reads (q : Path) : Option Path := meant src (ruleText q)

/-- The trees that are considered: the text of the output directory does not
    come again in a path, and no rule is read as a path through a link. -/
structure Straight (tree : Tree) : Prop where
  noSrc : ∀ e ∈ tree, ¬ slashed src <:+: slashed e.1
  noLink : ∀ e ∈ tree, ∀ p, reads src e.1 = some p → passesLink tree p = false

/-- What holds all the time, for the tree at the beginning. -/
structure Inv (tree : Tree) (t : Trees) : Prop where
  src_sub : ∀ {p e}, t.src.lookup p = some e → tree.lookup p = some e
  src_dir : ∀ {p}, tree.lookup p = some .dir → t.src.lookup p = some .dir
  nil : t.dest.lookup [] = none
  closed : Closed .dir t.dest
  /-- What is no directory was moved. -/
  moved : ∀ {p e}, t.dest.lookup p = some e → e ≠ .dir →
    tree.lookup p = some e ∧ t.src.lookup p = none
  kept : ∀ {p e}, tree.lookup p = some e → t.src.lookup p = some e ∨ t.dest.lookup p = some e

/-- What a step for the rule of the entry `q` does. -/
inductive Outcome (t : Trees) (q : Path) : Trees → Prop
  /-- The rule names nothing. -/
  | nothing (h : ∀ p e, reads src q = some p → entryAt .dir t.src p = some e →
      meansDirectory (ruleText q) = true ∧ isDir host t p e = false) : Outcome t q t
  /-- A directory is made. -/
  | made {p : Path} {e : Entry} (hreads : reads src q = some p)
      (hat : entryAt .dir t.src p = some e) (hdir : isDir host t p e = true) :
      Outcome t q (mkpath t p)
  /-- Something else stays where it is. -/
  | stays {p : Path} {e : Entry} (hreads : reads src q = some p)
      (hat : entryAt .dir t.src p = some e) (hdir : isDir host t p e = false)
      (htext : meansDirectory (ruleText q) = false)
      (h : canRename host (mkpath t p.dropLast) p e = false ∨ t.dest.lookup p ≠ none) :
      Outcome t q (mkpath t p.dropLast)
  /-- Something else is moved. -/
  | moves {p : Path} {e : Entry} (hreads : reads src q = some p)
      (hat : entryAt .dir t.src p = some e) (hdir : isDir host t p e = false)
      (htext : meansDirectory (ruleText q) = false)
      (hrename : canRename host (mkpath t p.dropLast) p e = true)
      (hnone : t.dest.lookup p = none) :
      Outcome t q ⟨t.src.filter fun x => x.1 ≠ p, (mkpath t p.dropLast).dest ++ [(p, e)]⟩

section Steps

variable {host : Host} {src dest : Path} {tree : Tree} {t : Trees}

theorem IsTree.lookup_of_mem (htree : IsTree tree) {q : Path × Entry} (hq : q ∈ tree) :
    tree.lookup q.1 = some q.2 := Framework.lookup_of_mem htree.nodup hq

theorem mem_of_lookup {tree : Tree} {p : Path} {e : Entry} (h : tree.lookup p = some e) :
    (p, e) ∈ tree := by
  obtain ⟨before, after, heq, -⟩ := List.lookup_eq_some_iff.1 h
  rw [heq]
  simp

/-- What is at a path is the output itself or an entry. -/
theorem cases_of_entryAt {tree : Tree} {p : Path} {e : Entry} (h : entryAt .dir tree p = some e) :
    p = [] ∧ e = .dir ∨ (p, e) ∈ tree := by
  by_cases hp : p = []
  · rw [hp] at h
    exact .inl ⟨hp, (Option.some.inj h).symm⟩
  · rw [entryAt_of_ne_nil hp] at h
    exact .inr (mem_of_lookup h)

theorem IsTree.lookup_nil (htree : IsTree tree) : tree.lookup [] = none := by
  cases h : tree.lookup [] with
  | none => rfl
  | some e => exact absurd rfl (htree.names _ (mem_of_lookup h)).1

theorem IsTree.ne_nil (htree : IsTree tree) {p : Path} {e : Entry} (h : tree.lookup p = some e) :
    p ≠ [] := by
  rintro rfl
  rw [htree.lookup_nil] at h
  cases h

/-- What is found in the output has been there from the beginning. -/
theorem Inv.entryAt_src (hinv : Inv tree t) {p : Path} {e : Entry}
    (h : entryAt .dir t.src p = some e) : entryAt .dir tree p = some e := by
  unfold entryAt at h ⊢
  split at h
  · next hp => rw [if_pos hp, h]
  · next hp => rw [if_neg hp, hinv.src_sub h]

/-- Above what is found there are directories in the tree. -/
theorem IsTree.above (htree : IsTree tree) {p : Path} {e : Entry} (h : entryAt .dir tree p = some e)
    {q : Path} (hq : q <+: p) (hnil : q ≠ []) (hne : q ≠ p) : tree.lookup q = some .dir := by
  have hp : p ≠ [] := by
    rintro rfl
    exact hnil (List.prefix_nil.1 hq)
  rw [entryAt_of_ne_nil hp] at h
  exact htree.closed p e h q hq hnil hne

/-- Nothing is in the way of a path to an entry of the output. -/
theorem Inv.free (htree : IsTree tree) (hinv : Inv tree t) {p : Path} {e : Entry}
    (hat : entryAt .dir t.src p = some e) {q : Path} (hq : q <+: p) (hnil : q ≠ []) :
    t.dest.lookup q = none ∨ t.dest.lookup q = some .dir := by
  cases hdest : t.dest.lookup q with
  | none => exact .inl rfl
  | some x =>
    by_cases hx : x = .dir
    · exact .inr (by rw [hx])
    · exfalso
      obtain ⟨hthere, hgone⟩ := hinv.moved hdest hx
      by_cases hne : q = p
      · subst hne
        rw [entryAt_of_ne_nil hnil, hgone] at hat
        cases hat
      · rw [htree.above (hinv.entryAt_src hat) hq hnil hne] at hthere
        cases hthere
        exact hx rfl

/-- The directories that are made on the way to it. -/
theorem Inv.lookup_mkpath (htree : IsTree tree) (hinv : Inv tree t) {p : Path} {e : Entry}
    (hat : entryAt .dir t.src p = some e) {d : Path} (hd : d <+: p) {q : Path} (hq : q <+: d)
    (hnil : q ≠ []) : (mkpath t d).dest.lookup q = some .dir := by
  refine lookup_mkdirs (fun q' _ hnil' hq' => ?_) List.nil_prefix hnil hq
  rw [List.nil_append] at hq'
  exact hinv.free htree hat (hq'.trans hd) hnil'

/-- Nothing is made at the path itself. -/
theorem lookup_mkpath_dropLast {p : Path} (hp : p ≠ []) :
    (mkpath t p.dropLast).dest.lookup p = t.dest.lookup p := by
  rcases lookup_mkdirs_cases .dir t.dest [] p.dropLast p with heq | ⟨-, -, habove, -⟩
  · exact heq
  · have hlen := habove.length_le
    have hpos := List.length_pos_iff.2 hp
    rw [List.nil_append, List.length_dropLast] at hlen
    omega

theorem ne_dir_of_isDir {p : Path} {e : Entry} (h : isDir host t p e = false) : e ≠ .dir := by
  rintro rfl
  cases h

theorem ne_nil_of_isDir {p : Path} {e : Entry} (hat : entryAt .dir t.src p = some e)
    (h : isDir host t p e = false) : p ≠ [] := by
  rintro rfl
  cases hat
  cases h

/-- No link is on the way to a path of the output that had none, -/
theorem Inv.passesLink_src (hinv : Inv tree t) {p : Path} (h : passesLink tree p = false) :
    passesLink t.src p = false := by
  refine not_passesLink_iff.2 fun r hr hne => ?_
  cases hlookup : t.src.lookup r with
  | none => rfl
  | some x =>
    rw [← hinv.src_sub hlookup]
    exact not_passesLink_iff.1 h r hr hne

/-- or in the module. -/
theorem Inv.passesLink_dest (htree : IsTree tree) (hinv : Inv tree t) {p : Path} {e : Entry}
    (hat : entryAt .dir t.src p = some e) : passesLink t.dest p = false := by
  refine not_passesLink_iff.2 fun r hr hne => ?_
  by_cases hnil : r = []
  · rw [hnil, hinv.nil]
    rfl
  · rcases hinv.free htree hat hr hnil with hnone | hdir
    · rw [hnone]
      rfl
    · rw [hdir]
      rfl

/-- An entry of the output goes to the same path in the module. -/
theorem Inv.dstPath_eq (hsrc : src ≠ []) (hdest : ∀ name ∈ dest, IsName name) (htree : IsTree tree)
    (hstraight : Straight src tree) (hinv : Inv tree t) {p : Path} {e : Entry}
    (hat : entryAt .dir t.src p = some e) : dstPath src dest p = p := by
  rcases cases_of_entryAt (hinv.entryAt_src hat) with ⟨rfl, -⟩ | hmem
  · refine InstallModule.dstPath_eq hsrc hdest (by simp) fun hwithin => hsrc ?_
    rw [slashed_nil, List.infix_nil, slashed_eq_nil_iff] at hwithin
    exact hwithin
  · exact InstallModule.dstPath_eq hsrc hdest (htree.names _ hmem).2 (hstraight.noSrc _ hmem)

/-- Something that is no directory is moved, or stays. -/
theorem outcome_rename (htree : IsTree tree) (hinv : Inv tree t) {q p : Path} {e : Entry}
    (hreads : reads src q = some p) (hat : entryAt .dir t.src p = some e)
    (hdir : isDir host t p e = false) (htext : meansDirectory (ruleText q) = false) :
    Outcome host src t q (rename host (mkpath t p.dropLast) p p e) := by
  -- only the root of the output has no directory above it, and it is one itself
  have hp := ne_nil_of_isDir hat hdir
  have habove : entryAt .dir (mkpath t p.dropLast).dest p.dropLast = some .dir := by
    by_cases hnil : p.dropLast = []
    · exact if_pos hnil
    · rw [entryAt_of_ne_nil hnil]
      exact hinv.lookup_mkpath htree hat (List.dropLast_prefix p) List.prefix_rfl hnil
  unfold rename
  rw [entryAt_of_ne_nil hp, lookup_mkpath_dropLast hp, habove]
  cases hrename : canRename host (mkpath t p.dropLast) p e with
  | false =>
    rw [if_neg (by simp)]
    exact .stays hreads hat hdir htext (.inl hrename)
  | true =>
    by_cases hnone : t.dest.lookup p = none
    · rw [if_pos ⟨rfl, hnone, rfl⟩]
      exact .moves hreads hat hdir htext hrename hnone
    · rw [if_neg fun h => hnone h.2.1]
      exact .stays hreads hat hdir htext (.inr hnone)

/-- **Step**: one of the four things happens. -/
theorem outcome_installRule (hsrc : src ≠ []) (hdest : ∀ name ∈ dest, IsName name)
    (htree : IsTree tree) (hstraight : Straight src tree) (hinv : Inv tree t) {q : Path × Entry}
    (hq : q ∈ tree) : Outcome host src t q.1 (installRule host src dest t (slashed q.1)) := by
  rw [installRule_slashed host src dest t (htree.names q hq).1, installPath]
  cases hreads : meant src (ruleText q.1) with
  | none =>
    refine .nothing fun p e hp => ?_
    rw [reads, hreads] at hp
    cases hp
  | some p =>
    dsimp only
    rw [hinv.passesLink_src (hstraight.noLink q hq p hreads), if_neg (by simp)]
    cases hat : entryAt .dir t.src p with
    | none =>
      refine .nothing fun p' e hp' hat' => ?_
      cases hreads.symm.trans hp'
      rw [hat] at hat'
      cases hat'
    | some e =>
      dsimp only
      unfold installFile
      rw [hinv.dstPath_eq hsrc hdest htree hstraight hat]
      have hdest := hinv.passesLink_dest htree hat
      cases hdir : isDir host t p e with
      | true =>
        simp only [Bool.not_true, Bool.and_false, Bool.false_eq_true, if_false, if_true, hdest]
        exact .made hreads hat hdir
      | false =>
        cases htext : meansDirectory (ruleText q.1) with
        | true =>
          simp only [Bool.not_false, Bool.and_true, if_true]
          refine .nothing fun p' e' hp' hat' => ?_
          cases hreads.symm.trans hp'
          cases hat.symm.trans hat'
          exact ⟨htext, hdir⟩
        | false =>
          simp only [Bool.false_and, Bool.false_eq_true, if_false, hdest]
          exact outcome_rename htree hinv hreads hat hdir htext

/-! ## Section 5: The invariant -/

theorem inv_start : Inv tree ⟨tree, []⟩ where
  src_sub h := h
  src_dir h := h
  nil := rfl
  closed := by
    intro p e h
    cases h
  moved h := by cases h
  kept h := .inl h

theorem Inv.mkpath (hinv : Inv tree t) (d : Path) : Inv tree (mkpath t d) where
  src_sub := hinv.src_sub
  src_dir := hinv.src_dir
  nil := by
    rcases lookup_mkdirs_cases .dir t.dest [] d [] with heq | ⟨-, hnil, -⟩
    · exact heq.trans hinv.nil
    · exact absurd rfl hnil
  closed := hinv.closed.mkdirs (fun q hq hnil => absurd (List.prefix_nil.1 hq) hnil) d
  moved {p e} h hne := by
    rcases lookup_mkdirs_cases .dir t.dest [] d p with heq | ⟨-, -, -, hdir⟩
    · exact hinv.moved (heq ▸ h) hne
    · exact absurd (Option.some.inj (h.symm.trans hdir)) hne
  kept h := (hinv.kept h).imp_right fun hdest => lookup_mkdirs_of_some hdest _ _

/-- **Step**: the invariant is kept. -/
theorem Inv.step (htree : IsTree tree) (hinv : Inv tree t) {q : Path} {t' : Trees}
    (h : Outcome host src t q t') : Inv tree t' := by
  cases h with
  | nothing => exact hinv
  | made => exact hinv.mkpath _
  | stays => exact hinv.mkpath _
  | @moves p e hreads hat hdir htext hrename hnone =>
    have hne := ne_dir_of_isDir hdir
    have hp := ne_nil_of_isDir hat hdir
    have hmade := hinv.mkpath p.dropLast
    have hfree : (InstallModule.mkpath t p.dropLast).dest.lookup p = none := by
      rw [lookup_mkpath_dropLast hp, hnone]
    have hsrc := hat
    rw [entryAt_of_ne_nil hp] at hsrc
    have hthere := hinv.src_sub hsrc
    have hother : ∀ {p'}, p' ≠ p →
        (t.src.filter fun x => x.1 ≠ p).lookup p' = t.src.lookup p' := fun h =>
      lookup_filter_ne h t.src
    refine ⟨fun {p' e'} h => ?_, fun {p'} h => ?_, ?_, ?_, fun {p' e'} h hne' => ?_,
      fun {p' e'} h => ?_⟩
    · by_cases hp' : p' = p
      · rw [hp', lookup_filter_self] at h
        cases h
      · exact hinv.src_sub (hother hp' ▸ h)
    · have hp' : p' ≠ p := by
        rintro rfl
        exact hne (Option.some.inj (hthere.symm.trans h))
      rw [hother hp']
      exact hinv.src_dir h
    · rw [lookup_concat hfree, if_neg (Ne.symm hp)]
      exact hmade.nil
    · refine hmade.closed.concat hfree fun q' hq' hnil hne' => ?_
      refine hinv.lookup_mkpath htree hat (List.dropLast_prefix p) ?_ hnil
      rcases List.prefix_concat_iff.1 (List.dropLast_append_getLast hp ▸ hq') with heq | hq'
      · rw [List.dropLast_append_getLast hp] at heq
        exact absurd heq hne'
      · exact hq'
    · rw [lookup_concat hfree] at h
      split at h
      · next hp' =>
        cases h
        rw [hp']
        exact ⟨hthere, lookup_filter_self p t.src⟩
      · next hp' =>
        obtain ⟨hthere', hgone⟩ := hmade.moved h hne'
        exact ⟨hthere', (hother hp').trans hgone⟩
    · by_cases hp' : p' = p
      · right
        rw [lookup_concat hfree, if_pos hp', ← hthere, ← hp', h]
      · refine (hmade.kept h).imp (fun hsrc => ?_) fun hdest => ?_
        · exact (hother hp').trans hsrc
        · rw [lookup_concat hfree, if_neg hp']
          exact hdest

/-- **Step**: what is in the module stays. -/
theorem Outcome.keeps {q : Path} {t' : Trees} (h : Outcome host src t q t') {p : Path} {e : Entry}
    (he : t.dest.lookup p = some e) : t'.dest.lookup p = some e := by
  cases h with
  | nothing => exact he
  | made => exact lookup_mkdirs_of_some he _ _
  | stays => exact lookup_mkdirs_of_some he _ _
  | moves =>
    rw [List.lookup_append, mkpath, lookup_mkdirs_of_some he [] _]
    rfl

/-- What a step has put at a path. -/
inductive Puts (host : Host) (src : Path) (t : Trees) (q p : Path) : Entry → Prop
  /-- It is a directory at or above the path of a directory, -/
  | dir {r : Path} {x : Entry} (hreads : reads src q = some r)
      (hat : entryAt .dir t.src r = some x) (hdir : isDir host t r x = true) (hp : p <+: r) :
      Puts host src t q p .dir
  /-- or above the path of something else, -/
  | above {r : Path} {x : Entry} (hreads : reads src q = some r)
      (hat : entryAt .dir t.src r = some x) (hdir : isDir host t r x = false)
      (htext : meansDirectory (ruleText q) = false) (hp : p <+: r) (hne : p ≠ r) :
      Puts host src t q p .dir
  /-- or has been moved. -/
  | moved {x : Entry} (hreads : reads src q = some p) (hat : entryAt .dir t.src p = some x)
      (hdir : isDir host t p x = false) (htext : meansDirectory (ruleText q) = false)
      (hrename : canRename host (mkpath t p.dropLast) p x = true) : Puts host src t q p x

/-- **Step**: what is new in the module. -/
theorem Outcome.puts {q : Path} {t' : Trees} (h : Outcome host src t q t') {p : Path} {e : Entry}
    (hold : t.dest.lookup p = none) (hnew : t'.dest.lookup p = some e) : Puts host src t q p e := by
  -- of a shorter path, all the directories made are above the path
  have habove : ∀ {r : Path} {x : Entry}, reads src q = some r → entryAt .dir t.src r = some x →
      isDir host t r x = false → meansDirectory (ruleText q) = false →
      (mkpath t r.dropLast).dest.lookup p = some e → Puts host src t q p e := by
    intro r x hreads hat hdir htext hmade
    rcases lookup_mkdirs_cases .dir t.dest [] r.dropLast p with
      heq | ⟨-, -, hp, heq⟩
    · cases (heq.symm.trans hmade).symm.trans hold
    · cases heq.symm.trans hmade
      rw [List.nil_append] at hp
      refine .above hreads hat hdir htext (hp.trans (List.dropLast_prefix r)) fun hne => ?_
      have hlen := hp.length_le
      have hpos := List.length_pos_iff.2 (ne_nil_of_isDir hat hdir)
      rw [hne, List.length_dropLast] at hlen
      omega
  cases h with
  | nothing =>
    rw [hold] at hnew
    cases hnew
  | @made r x hreads hat hdir =>
    rcases lookup_mkdirs_cases .dir t.dest [] r p with heq | ⟨-, -, hp, heq⟩
    · cases (heq.symm.trans hnew).symm.trans hold
    · cases heq.symm.trans hnew
      exact .dir hreads hat hdir hp
  | stays hreads hat hdir htext => exact habove hreads hat hdir htext hnew
  | @moves r x hreads hat hdir htext hrename hnone =>
    rw [lookup_concat (by rw [lookup_mkpath_dropLast (ne_nil_of_isDir hat hdir), hnone])] at hnew
    split at hnew
    · next hp =>
      cases hnew
      subst hp
      exact .moved hreads hat hdir htext hrename
    · exact habove hreads hat hdir htext hnew

/-- **Step**: the directories at and above what a rule names. -/
theorem Outcome.makes (htree : IsTree tree) (hinv : Inv tree t) {q : Path} {t' : Trees}
    (h : Outcome host src t q t') {r : Path} {x : Entry} (hreads : reads src q = some r)
    (hat : entryAt .dir t.src r = some x)
    (hfound : isDir host t r x = true ∨ meansDirectory (ruleText q) = false) {p : Path}
    (hp : p <+: r) (hnil : p ≠ []) (hne : p ≠ r ∨ isDir host t r x = true) :
    t'.dest.lookup p = some .dir := by
  have hshort : p ≠ r → p <+: r.dropLast := by
    intro hne
    have hr : r ≠ [] := by
      rintro rfl
      exact hnil (List.prefix_nil.1 hp)
    rcases List.prefix_concat_iff.1 (List.dropLast_append_getLast hr ▸ hp) with heq | hp
    · rw [List.dropLast_append_getLast hr] at heq
      exact absurd heq hne
    · exact hp
  have hmade : p ≠ r → (mkpath t r.dropLast).dest.lookup p = some .dir := fun hne =>
    hinv.lookup_mkpath htree hat (List.dropLast_prefix r) (hshort hne) hnil
  cases h with
  | nothing hnothing =>
    obtain ⟨htext, hdir⟩ := hnothing r x hreads hat
    rw [htext, hdir] at hfound
    simp at hfound
  | made hreads' hat' hdir =>
    cases hreads.symm.trans hreads'
    exact hinv.lookup_mkpath htree hat List.prefix_rfl hp hnil
  | stays hreads' hat' hdir =>
    cases hreads.symm.trans hreads'
    cases hat.symm.trans hat'
    rw [hdir] at hne
    exact hmade (by simpa using hne)
  | moves hreads' hat' hdir =>
    cases hreads.symm.trans hreads'
    cases hat.symm.trans hat'
    rw [hdir] at hne
    rw [List.lookup_append, hmade (by simpa using hne)]
    rfl

/-- **Step**: what a rule names, if it can be moved. -/
theorem Outcome.arrives {q : Path} {t' : Trees} (h : Outcome host src t q t') {p : Path}
    {x : Entry} (hreads : reads src q = some p) (hat : entryAt .dir t.src p = some x)
    (hdir : isDir host t p x = false) (htext : meansDirectory (ruleText q) = false)
    (hrename : canRename host (mkpath t p.dropLast) p x = true) (hnone : t.dest.lookup p = none) :
    t'.dest.lookup p = some x := by
  cases h with
  | nothing hnothing =>
    rw [(hnothing p x hreads hat).1] at htext
    cases htext
  | made hreads' hat' hdir' =>
    cases hreads.symm.trans hreads'
    cases hat.symm.trans hat'
    rw [hdir] at hdir'
    cases hdir'
  | stays hreads' hat' hdir' htext' hstays =>
    cases hreads.symm.trans hreads'
    cases hat.symm.trans hat'
    rcases hstays with hcannot | hthere
    · rw [hrename] at hcannot
      cases hcannot
    · exact absurd hnone hthere
  | moves hreads' hat' =>
    cases hreads.symm.trans hreads'
    cases hat.symm.trans hat'
    rw [lookup_concat, if_pos rfl]
    rw [lookup_mkpath_dropLast (ne_nil_of_isDir hat hdir), hnone]

end Steps

end Linglong.InstallModule
