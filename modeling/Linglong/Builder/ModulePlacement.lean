import Linglong.Builder.InstallModule
import Linglong.Framework.Regex

/-! # The Same Module at Two Places

    `installModule` puts the text of the output directory in front of each
    rule, and replaces it in each path by the text of the module. So a rule
    may select something else if the project lives somewhere else, and what
    is selected may go somewhere else.

    1. What a rule selects.
    2. What a run selects (`mem_selected_iff`).
    3. Texts in which the directory comes again (`dstPath_eq_iff`).
    4. Two places (`sameSelection_iff_of_direct`, `RunAgrees.same`).
    5. Rules that say the same at every place (`developRules_same`).
    6. The condition (`sameSelection_iff`).
-/

namespace Linglong.InstallModule

open Framework

/-! ## Section 1: What a rule selects -/

/-- A rule as it is read, before the place comes in. -/
inductive Rule where
  | comment
  | path (text : List Char)
  | regexp (rest : List Char)

def readRule (rule : List Char) : Rule :=
  match simplified rule with
  | [] => .comment
  | '#' :: _ => .comment
  | '^' :: '/' :: rest => .regexp rest
  | '^' :: rest => .regexp rest
  | text => .path text

/-- Where the project lives, and how the system behaves there. -/
structure Place where
  host : Host
  /-- The output of the build. -/
  src : Path
  /-- The files of the module. -/
  dest : Path

namespace Place

variable (place : Place)

/-- The text of a regular expression. -/
def pattern (rest : List Char) : List Char := '^' :: (slashed place.src ++ '/' :: rest)

/-- `regexp.match(absoluteFilePath).hasMatch()`. -/
def hasMatch (rest : List Char) (p : Path) : Bool :=
  place.host.hasMatch (place.pattern rest) (slashed place.src ++ slashed p)

def dstPath (p : Path) : Path := InstallModule.dstPath place.src place.dest p

/-- `installFile`, for an entry. -/
def installEntry (t : Trees) (x : Path × Entry) : Trees :=
  installFile place.host place.src place.dest t x.1 x.2

/-- One round of the loop, for a rule that has been read. -/
def install (t : Trees) : Rule → Trees
  | .comment => t
  | .path text => installPath place.host place.src place.dest t text
  | .regexp rest => installMatches place.host place.src place.dest t (place.pattern rest)

/-- What `QFileInfo` finds for a rule that is a path. -/
def found (t : Trees) (text : List Char) : Option (Path × Entry) :=
  (meant place.src text).bind fun p =>
    if passesLink t.src p then none
    else
      (entryAt .dir t.src p).bind fun e =>
        if meansDirectory text && !isDir place.host t p e then none else some (p, e)

/-- The entries that a rule hands to `installFile`. -/
def selects (t : Trees) : Rule → List (Path × Entry)
  | .comment => []
  | .path text => (place.found t text).toList
  | .regexp rest => t.src.filter fun x => place.hasMatch rest x.1

/-- What a run installs: the paths in the output, with their paths in the
    module. -/
def selected : List (List Char) → Trees → List (Path × Path)
  | [], _ => []
  | rule :: rules, t =>
      (place.selects t (readRule rule)).map (fun x => (x.1, place.dstPath x.1)) ++
        selected rules (installRule place.host place.src place.dest t rule)

/-- No link is followed to find what a path names. -/
def FollowsNone (tree : Tree) : Rule → Prop
  | .path text => ∀ p, meant place.src text = some p →
      passesLink tree p = false ∧ (meansDirectory text = true → isLink (tree.lookup p) = false)
  | _ => True

/-- A rule names an entry. -/
def Names (p : Path) (e : Entry) : Rule → Prop
  | .comment => False
  | .path text => meant place.src text = some p ∧ (meansDirectory text = true → e = .dir)
  | .regexp rest => p ≠ [] ∧ place.hasMatch rest p = true

section Rounds

variable {place : Place} {t : Trees}

theorem installRule_eq (rule : List Char) :
    installRule place.host place.src place.dest t rule = place.install t (readRule rule) := by
  unfold installRule readRule
  generalize simplified rule = text
  split
  · rfl
  · rfl
  · rfl
  · simp only [install, pattern]
  · simp only [install]

theorem found_eq_some_iff {text : List Char} {p : Path} {e : Entry} :
    place.found t text = some (p, e) ↔
      meant place.src text = some p ∧ passesLink t.src p = false ∧
        entryAt .dir t.src p = some e ∧
        (meansDirectory text = true → isDir place.host t p e = true) := by
  simp only [found, Option.bind_eq_some_iff, Option.ite_none_left_eq_some, Option.some.injEq,
    Prod.mk.injEq, Bool.not_eq_true, Bool.and_eq_false_imp, Bool.not_eq_false']
  constructor
  · rintro ⟨_, hmeant, hpasses, _, hat, hasked, rfl, rfl⟩
    exact ⟨hmeant, hpasses, hat, hasked⟩
  · rintro ⟨hmeant, hpasses, hat, hasked⟩
    exact ⟨p, hmeant, hpasses, e, hat, hasked, rfl, rfl⟩

/-- **Step**: a round installs what its rule selects, one after the other. -/
theorem install_eq_foldl {rule : Rule} (h : place.FollowsNone t.src rule) :
    place.install t rule = (place.selects t rule).foldl place.installEntry t := by
  cases rule with
  | comment => rfl
  | regexp rest => exact List.foldl_filter.symm
  | path text =>
    simp only [install, installPath, selects, found]
    cases hmeant : meant place.src text with
    | none => rfl
    | some p =>
      simp only [(h p hmeant).1, Bool.false_eq_true, if_false, Option.bind_some]
      cases entryAt .dir t.src p with
      | none => rfl
      | some e =>
        simp only [Option.bind_some]
        split
        · rfl
        · rfl

theorem isDir_iff_of_not_isLink {host : Host} {p : Path} {e : Entry} (h : isLink (some e) = false) :
    isDir host t p e = true ↔ e = .dir := by
  cases e with
  | dir => simp [isDir]
  | file object => simp [isDir]
  | link target => cases h

/-- What is found for a text that can only mean a directory is no link. -/
theorem FollowsNone.notLink {text : List Char} (h : place.FollowsNone t.src (.path text)) {p : Path}
    {e : Entry} (hmeant : meant place.src text = some p) (hslash : meansDirectory text = true)
    (hat : entryAt .dir t.src p = some e) : isLink (some e) = false := by
  by_cases hp : p = []
  · rw [hp] at hat
    cases hat
    rfl
  · rw [entryAt_of_ne_nil hp] at hat
    rw [← hat]
    exact (h p hmeant).2 hslash

/-- What is selected is there and is named. -/
theorem exists_mem_selects_iff {rule : Rule} (hroot : t.src.lookup [] = none)
    (h : place.FollowsNone t.src rule) {p : Path} :
    (∃ e, (p, e) ∈ place.selects t rule) ↔
      ∃ e, entryAt .dir t.src p = some e ∧ place.Names p e rule := by
  cases rule with
  | comment => simp [selects, Names]
  | regexp rest =>
    constructor
    · rintro ⟨e, hmem⟩
      obtain ⟨hmem, hmatch⟩ := List.mem_filter.1 hmem
      have hsome : (t.src.lookup p).isSome = true :=
        List.lookup_isSome_iff.2 ⟨(p, e), hmem, by simp⟩
      obtain ⟨e', hlookup⟩ := Option.isSome_iff_exists.1 hsome
      have hp : p ≠ [] := by
        intro hp
        rw [hp, hroot] at hlookup
        cases hlookup
      exact ⟨e', by rw [entryAt_of_ne_nil hp, hlookup], hp, hmatch⟩
    · rintro ⟨e, hat, hp, hmatch⟩
      rw [entryAt_of_ne_nil hp] at hat
      exact ⟨e, List.mem_filter.2 ⟨mem_of_lookup hat, hmatch⟩⟩
  | path text =>
    refine exists_congr fun e => ?_
    rw [selects, Option.mem_toList, found_eq_some_iff]
    constructor
    · rintro ⟨hmeant, -, hat, hdir⟩
      refine ⟨hat, hmeant, fun hslash => ?_⟩
      exact (isDir_iff_of_not_isLink (h.notLink hmeant hslash hat)).1 (hdir hslash)
    · rintro ⟨hat, hmeant, hdir⟩
      refine ⟨hmeant, (h p hmeant).1, hat, fun hslash => ?_⟩
      rw [hdir hslash]
      rfl

end Rounds

/-! ## Section 2: What a run selects -/

/-- No link leads back to the output: what is renamed through it leaves the
    output, or stays where it is. -/
def LeadsAway : Prop := ∀ t p, (place.host.throughLink t p).src = t.src ∨
  (place.host.throughLink t p).src = t.src.filter fun x => x.1 ≠ p

/-- What is assumed of a place: no rule has a link followed in the output, and
    no link in the module leads back there. -/
structure Direct (rules : List (List Char)) (tree : Tree) : Prop where
  root : tree.lookup [] = none
  follows : ∀ rule ∈ rules, place.FollowsNone tree (readRule rule)
  leadsAway : place.LeadsAway

section Runs

variable {place : Place} {rules : List (List Char)} {tree : Tree} {t : Trees}

theorem FollowsNone.mono {rule : Rule} {tree tree' : Tree} (h : place.FollowsNone tree rule)
    (hsub : ∀ p, tree'.lookup p = tree.lookup p ∨ tree'.lookup p = none) :
    place.FollowsNone tree' rule := by
  have hlink : ∀ q, isLink (tree.lookup q) = false → isLink (tree'.lookup q) = false := by
    intro q hq
    rcases hsub q with heq | hnone
    · rwa [heq]
    · rw [hnone]
      rfl
  cases rule with
  | comment => trivial
  | regexp rest => trivial
  | path text =>
    intro p hmeant
    obtain ⟨hpasses, hslash⟩ := h p hmeant
    refine ⟨not_passesLink_iff.2 fun q hq hne => ?_, fun htext => hlink p (hslash htext)⟩
    exact hlink q (not_passesLink_iff.1 hpasses q hq hne)

/-- In a tree without links there is none to follow. -/
theorem followsNone_of_noLinks (h : ∀ x ∈ tree, isLink (some x.2) = false) {rule : Rule} :
    place.FollowsNone tree rule := by
  have hlink : ∀ q, isLink (tree.lookup q) = false := by
    intro q
    cases hlookup : tree.lookup q with
    | none => rfl
    | some e => exact h _ (mem_of_lookup hlookup)
  cases rule with
  | comment => trivial
  | regexp rest => trivial
  | path text => exact fun p _ => ⟨not_passesLink_iff.2 fun q _ _ => hlink q, fun _ => hlink p⟩

/-- **Step**: what is installed is gone from the output, or stays. -/
theorem installEntry_src (hdirect : place.Direct rules tree) (x : Path × Entry) :
    (place.installEntry t x).src = t.src ∨
      (place.installEntry t x).src = t.src.filter fun y => y.1 ≠ x.1 := by
  simp only [installEntry, installFile]
  split
  · exact hdirect.leadsAway t x.1
  · split
    · exact .inl rfl
    · unfold rename
      split
      · exact .inr rfl
      · exact .inl rfl

/-- **Run**: nothing else changes in the output while entries are installed. -/
theorem lookup_foldl_installEntry (hdirect : place.Direct rules tree) (p : Path)
    (l : List (Path × Entry)) :
    ∀ t, (l.foldl place.installEntry t).src.lookup p = t.src.lookup p ∨
      (l.foldl place.installEntry t).src.lookup p = none ∧ ∃ e, (p, e) ∈ l := by
  induction l with
  | nil => exact fun t => .inl rfl
  | cons x l ih =>
    intro t
    rw [List.foldl_cons]
    rcases ih (place.installEntry t x) with heq | ⟨hnone, e, hmem⟩
    · rw [heq]
      rcases installEntry_src (t := t) hdirect x with hsrc | hsrc
      · exact .inl (by rw [hsrc])
      · by_cases hp : p = x.1
        · refine .inr ⟨?_, x.2, by simp [hp]⟩
          rw [hsrc, hp, lookup_filter_self]
        · exact .inl (by rw [hsrc, lookup_filter_ne hp])
    · exact .inr ⟨hnone, e, List.mem_cons_of_mem _ hmem⟩

/-- **Step**: only what a rule selects goes away. -/
theorem Direct.lookup_installRule {rule : List Char} (hdirect : place.Direct (rule :: rules) t.src)
    (p : Path) :
    (installRule place.host place.src place.dest t rule).src.lookup p = t.src.lookup p ∨
      (installRule place.host place.src place.dest t rule).src.lookup p = none ∧
        ∃ e, (p, e) ∈ place.selects t (readRule rule) := by
  rw [installRule_eq, install_eq_foldl (hdirect.follows rule List.mem_cons_self)]
  exact lookup_foldl_installEntry hdirect p _ t

/-- **Step**: what is assumed stays so. -/
theorem Direct.step {rule : List Char} (hdirect : place.Direct (rule :: rules) t.src) :
    place.Direct rules (installRule place.host place.src place.dest t rule).src where
  root := by
    rcases hdirect.lookup_installRule [] with heq | ⟨hnone, -⟩
    · rw [heq, hdirect.root]
    · exact hnone
  follows r hr := (hdirect.follows r (List.mem_cons_of_mem _ hr)).mono fun p =>
    (hdirect.lookup_installRule p).imp_right And.left
  leadsAway := hdirect.leadsAway

theorem entryAt_installRule {rule : List Char} (hdirect : place.Direct (rule :: rules) t.src)
    (p : Path) :
    entryAt .dir (installRule place.host place.src place.dest t rule).src p =
        entryAt .dir t.src p ∨
      entryAt .dir (installRule place.host place.src place.dest t rule).src p = none ∧
        ∃ e, (p, e) ∈ place.selects t (readRule rule) := by
  by_cases hp : p = []
  · rw [hp]
    exact .inl rfl
  · rw [entryAt_of_ne_nil hp, entryAt_of_ne_nil hp]
    exact hdirect.lookup_installRule p

/-- **Run**: the order of the rules does not matter, nor what is left when it
    is their turn. A run selects each entry that some rule names. -/
theorem mem_selected_iff (hdirect : place.Direct rules t.src) {p d : Path} :
    (p, d) ∈ place.selected rules t ↔
      d = place.dstPath p ∧
        ∃ e, entryAt .dir t.src p = some e ∧ ∃ rule ∈ rules, place.Names p e (readRule rule) := by
  induction rules generalizing t with
  | nil => simp [selected]
  | cons rule rules ih =>
    have hhere : (p, d) ∈ (place.selects t (readRule rule)).map
        (fun x => (x.1, place.dstPath x.1)) ↔
        d = place.dstPath p ∧ ∃ e, (p, e) ∈ place.selects t (readRule rule) := by
      simp only [List.mem_map, Prod.exists, Prod.mk.injEq]
      constructor
      · rintro ⟨_, e, hmem, rfl, rfl⟩
        exact ⟨rfl, e, hmem⟩
      · rintro ⟨hd, e, hmem⟩
        exact ⟨p, e, hmem, rfl, hd.symm⟩
    have hnamed := exists_mem_selects_iff (p := p) hdirect.root
      (hdirect.follows rule List.mem_cons_self)
    rw [selected, List.mem_append, hhere, ih hdirect.step]
    constructor
    · rintro (⟨hd, hselects⟩ | ⟨hd, e, hat, rule', hrule', hnames⟩)
      · obtain ⟨e, hat, hnames⟩ := hnamed.1 hselects
        exact ⟨hd, e, hat, rule, List.mem_cons_self, hnames⟩
      · -- what is still there was there before
        rcases entryAt_installRule hdirect p with heq | ⟨hnone, -⟩
        · exact ⟨hd, e, heq ▸ hat, rule', List.mem_cons_of_mem _ hrule', hnames⟩
        · rw [hnone] at hat
          cases hat
    · rintro ⟨hd, e, hat, rule', hrule', hnames⟩
      rcases List.mem_cons.1 hrule' with rfl | hlater
      · exact .inl ⟨hd, hnamed.2 ⟨e, hat, hnames⟩⟩
      · -- what is gone when it is the turn of the rule has been selected
        rcases entryAt_installRule hdirect p with heq | ⟨-, hselects⟩
        · exact .inr ⟨hd, e, heq.trans hat, rule', hlater, hnames⟩
        · exact .inl ⟨hd, hselects⟩

end Runs

end Place

/-! ## Section 3: Texts in which the directory comes again -/

section Texts

variable {a b : List Char}

/-- With a text that is not longer nothing becomes longer. -/
theorem replaceAll_length_le (h : b.length ≤ a.length) (text : List Char) :
    ∀ skip ≤ text.length, (replaceAll a b skip text).length + skip ≤ text.length := by
  induction text with
  | nil => simp [replaceAll]
  | cons c text ih =>
    intro skip hskip
    cases skip with
    | succ skip =>
      have hrest := ih skip (by simpa using hskip)
      rw [replaceAll, List.length_cons]
      omega
    | zero =>
      rw [replaceAll]
      split
      · next hbegins =>
        have hlen := (List.isPrefixOf_iff_prefix.1 hbegins).length_le
        rw [List.length_cons] at hlen
        have hrest := ih (a.length - 1) (by omega)
        rw [List.length_append, List.length_cons]
        omega
      · have hrest := ih 0 (Nat.zero_le _)
        rw [List.length_cons, List.length_cons]
        omega

variable (ha : a ≠ [])

include ha

theorem replaceAll_same (text : List Char) : ∀ skip, replaceAll a a skip text = text.drop skip := by
  induction text with
  | nil => simp [replaceAll]
  | cons c text ih =>
    intro skip
    cases skip with
    | succ skip => exact ih skip
    | zero =>
      rw [replaceAll]
      split
      · next hbegins =>
        -- the text begins with what is replaced by itself
        obtain ⟨rest, hrest⟩ := List.isPrefixOf_iff_prefix.1 hbegins
        obtain ⟨d, a', rfl⟩ := List.exists_cons_of_ne_nil ha
        rw [List.cons_append, List.cons.injEq] at hrest
        rw [ih, ← hrest.2, List.length_cons, Nat.add_sub_cancel, List.drop_left, hrest.1]
        rfl
      · rw [ih]
        rfl

/-- With a text that is not shorter nothing becomes shorter. -/
theorem length_le_replaceAll (h : a.length ≤ b.length) (text : List Char) :
    ∀ skip, text.length ≤ (replaceAll a b skip text).length + skip := by
  induction text with
  | nil => simp
  | cons c text ih =>
    intro skip
    cases skip with
    | succ skip =>
      have hrest := ih skip
      rw [replaceAll, List.length_cons]
      omega
    | zero =>
      rw [replaceAll]
      split
      · have hrest := ih (a.length - 1)
        have hpos := List.length_pos_iff.2 ha
        rw [List.length_append, List.length_cons]
        omega
      · have hrest := ih 0
        rw [List.length_cons, List.length_cons]
        omega

/-- **Replacing**: a text stays the same only if there is nothing to replace. -/
theorem replaceAll_eq_self_iff {text : List Char} :
    replaceAll a b 0 text = text ↔ ¬ a <:+: text ∨ a = b := by
  constructor
  · intro heq
    induction text with
    | nil => exact .inl fun hwithin => ha (List.infix_nil.1 hwithin)
    | cons c text ih =>
      rw [replaceAll] at heq
      split at heq
      · next hbegins =>
        right
        have hprefix := List.isPrefixOf_iff_prefix.1 hbegins
        have hlen := congrArg List.length heq
        have hle := hprefix.length_le
        have hpos := List.length_pos_iff.2 ha
        rw [List.length_append, List.length_cons] at hlen
        rw [List.length_cons] at hle
        -- all other replacements change the length in the same direction
        have hsame : a.length = b.length := by
          rcases Nat.le_total a.length b.length with h | h
          · have hgrows := length_le_replaceAll ha h text (a.length - 1)
            omega
          · have hshrinks := replaceAll_length_le h text (a.length - 1) (by omega)
            omega
        exact (List.prefix_of_prefix_length_le hprefix ⟨_, heq⟩ hsame.le).eq_of_length hsame
      · next hbegins =>
        rw [List.cons.injEq] at heq
        refine (ih heq.2).imp_left fun hnot hwithin => ?_
        rcases List.infix_cons_iff.1 hwithin with hprefix | hwithin
        · exact hbegins (List.isPrefixOf_iff_prefix.2 hprefix)
        · exact hnot hwithin
  · rintro (hnot | rfl)
    · exact replaceAll_of_not_infix hnot
    · exact replaceAll_same ha text 0

end Texts

/-- Replacing text that begins with a slash by tidy text. -/
theorem tidy_replaceAll {before after text : List Char} (hafter : Tidy after) (htext : Tidy text) :
    ∀ skip, Tidy (replaceAll ('/' :: before) after skip text) := by
  induction text with
  | nil => exact fun skip => by cases skip <;> trivial
  | cons c text ih =>
    intro skip
    cases skip with
    | succ skip => exact ih htext.2 skip
    | zero =>
      rw [replaceAll]
      split
      · exact hafter.append (ih htext.2 _)
      · refine ⟨fun hc => ?_, ih htext.2 0⟩
        obtain ⟨d, rest, rfl, hd⟩ := htext.1 hc
        have hbegins : ¬ ('/' :: before).isPrefixOf (d :: rest) = true := by
          simp [List.isPrefixOf, Ne.symm hd]
        exact ⟨d, _, by rw [replaceAll, if_neg hbegins], hd⟩

namespace Place

variable (place : Place)

/-- The directories are two, and none of them is the root. -/
structure Valid : Prop where
  src_ne : place.src ≠ []
  src_names : ∀ name ∈ place.src, IsName name
  dest_ne : place.dest ≠ []
  dest_names : ∀ name ∈ place.dest, IsName name
  ne : place.src ≠ place.dest

/-- The text of the output directory comes again in a path. -/
def ComesAgain (p : Path) : Prop := slashed place.src <:+: slashed p

instance (p : Path) : Decidable (place.ComesAgain p) := inferInstanceAs (Decidable (_ <:+: _))

/-- The text of a path below the output, as it is in the module. -/
def replaced (p : Path) : List Char :=
  replaceAll (slashed place.src) (slashed place.dest) 0 (slashed p)

/-- The text of none of the output directories comes again, or of both, and
    then it may be that replacing gives the same. -/
def SameText (a b : Place) (p : Path) : Prop :=
  (¬ a.ComesAgain p ∧ ¬ b.ComesAgain p) ∨
    (a.ComesAgain p ∧ b.ComesAgain p ∧ a.replaced p = b.replaced p)

section Destinations

variable {place} {p : Path}

theorem exists_slashed_cons {q : Path} (h : q ≠ []) : ∃ rest, slashed q = '/' :: rest := by
  obtain ⟨name, rest, rfl⟩ := List.exists_cons_of_ne_nil h
  exact ⟨name ++ slashed rest, slashed_cons name rest⟩

theorem Valid.slashed_src_ne_nil (h : place.Valid) : slashed place.src ≠ [] :=
  fun hnil => h.src_ne (slashed_eq_nil_iff.1 hnil)

/-- It begins with a slash. -/
theorem Valid.head_replaced (h : place.Valid) {c : Char} {rest : List Char}
    (heq : place.replaced p = c :: rest) : c = '/' := by
  unfold replaced at heq
  cases p with
  | nil => cases heq
  | cons name p =>
    rw [slashed_cons, replaceAll] at heq
    split at heq
    · obtain ⟨after, hafter⟩ := exists_slashed_cons h.dest_ne
      rw [hafter, List.cons_append, List.cons.injEq] at heq
      exact heq.1.symm
    · rw [List.cons.injEq] at heq
      exact heq.1.symm

/-- The names that come after those of the module. -/
theorem Valid.dstPath_eq (h : place.Valid) (p : Path) :
    place.dstPath p = parts '/' (place.replaced p) := by
  have hdest : parts '/' (slashed place.dest) = place.dest :=
    parts_slashed fun n hn => (h.dest_names n hn).ne_nil_noSlash
  have hall : parts '/' (slashed place.dest ++ place.replaced p) =
      place.dest ++ parts '/' (place.replaced p) := by
    cases hreplaced : place.replaced p with
    | nil => rw [List.append_nil, hdest, parts_nil, List.append_nil]
    | cons c rest => rw [h.head_replaced hreplaced, parts_append_cons, hdest, parts_cons]
  unfold dstPath InstallModule.dstPath
  rw [replaceAll_append h.slashed_src_ne_nil]
  show (parts '/' (slashed place.dest ++ place.replaced p)).drop place.dest.length = _
  rw [hall, List.drop_left]

/-- The path in the module has the text that replacing gives. -/
theorem Valid.slashed_dstPath (h : place.Valid) (hp : ∀ name ∈ p, IsName name) :
    slashed (place.dstPath p) = place.replaced p := by
  obtain ⟨before, hbefore⟩ := exists_slashed_cons h.src_ne
  have htidy : Tidy (place.replaced p) := by
    rw [replaced, hbefore]
    exact tidy_replaceAll (tidy_slashed fun n hn => (h.dest_names n hn).ne_nil_noSlash)
      (tidy_slashed fun n hn => (hp n hn).ne_nil_noSlash) 0
  rw [h.dstPath_eq]
  exact htidy.slashed_parts fun c rest heq => h.head_replaced heq

variable {a b : Place}

theorem Valid.slashed_ne (h : place.Valid) : slashed place.src ≠ slashed place.dest := fun heq =>
  h.ne (slashed_inj (fun n hn => (h.src_names n hn).noSlash)
    (fun n hn => (h.dest_names n hn).noSlash) heq)

/-- What is replaced is another text. -/
theorem Valid.replaced_eq_iff (h : place.Valid) :
    place.replaced p = slashed p ↔ ¬ place.ComesAgain p := by
  rw [replaced, replaceAll_eq_self_iff h.slashed_src_ne_nil, ComesAgain, or_iff_left h.slashed_ne]

theorem noSlash_dstPath : ∀ name ∈ place.dstPath p, '/' ∉ name := fun _ hname =>
  not_mem_splitOn (List.mem_filter.1 (List.mem_of_mem_drop hname)).1

/-- **Destinations**: a path goes to the same path of the module at both
    places. -/
theorem dstPath_eq_iff (ha : a.Valid) (hb : b.Valid) (hp : ∀ name ∈ p, IsName name) :
    a.dstPath p = b.dstPath p ↔ SameText a b p := by
  have htexts : a.dstPath p = b.dstPath p ↔ a.replaced p = b.replaced p := by
    rw [← ha.slashed_dstPath hp, ← hb.slashed_dstPath hp]
    exact ⟨congrArg slashed, slashed_inj noSlash_dstPath noSlash_dstPath⟩
  rw [htexts, SameText]
  by_cases hca : a.ComesAgain p
  · by_cases hcb : b.ComesAgain p
    · simp [hca, hcb]
    · -- only one of the texts is changed
      have hsame := hb.replaced_eq_iff.2 hcb
      have hother := mt ha.replaced_eq_iff.1 (not_not.2 hca)
      rw [hsame]
      simp [hca, hcb, hother]
  · have hsame := ha.replaced_eq_iff.2 hca
    rw [hsame, eq_comm, hb.replaced_eq_iff]
    simp [hca]

/-- For this it does not matter what the names of the path are. -/
theorem SameText.dstPath_eq (ha : a.Valid) (hb : b.Valid) (h : SameText a b p) :
    a.dstPath p = b.dstPath p := by
  rw [ha.dstPath_eq, hb.dstPath_eq]
  rcases h with ⟨hca, hcb⟩ | ⟨-, -, hsame⟩
  · rw [ha.replaced_eq_iff.2 hca, hb.replaced_eq_iff.2 hcb]
  · rw [hsame]

end Destinations

end Place

/-! ## Section 4: Two places -/

/-- Two runs install the same paths at the same paths of the module. -/
def SameSelection (a b : Place) (rules : List (List Char)) (tree : Tree) : Prop :=
  ∀ p d, (p, d) ∈ a.selected rules ⟨tree, []⟩ ↔ (p, d) ∈ b.selected rules ⟨tree, []⟩

/-- Some rule names an entry. -/
def Place.Named (place : Place) (rules : List (List Char)) (p : Path) (e : Entry) : Prop :=
  ∃ rule ∈ rules, place.Names p e (readRule rule)

/-- **The condition**: the rules name the same entries, and in none of these
    the text of an output directory is found that makes a difference. -/
structure PlaceFree (a b : Place) (rules : List (List Char)) (tree : Tree) : Prop where
  named : ∀ p e, entryAt .dir tree p = some e → (a.Named rules p e ↔ b.Named rules p e)
  same : ∀ p e, entryAt .dir tree p = some e → a.Named rules p e → Place.SameText a b p

section TwoRuns

variable {a b : Place}

/-- **Run**: without links that are followed the condition is exact. -/
theorem sameSelection_iff_of_direct {rules : List (List Char)} {tree : Tree}
    (htree : IsTree tree) (ha : a.Valid) (hb : b.Valid) (hdirect : a.Direct rules tree)
    (hdirect' : b.Direct rules tree) :
    SameSelection a b rules tree ↔ PlaceFree a b rules tree := by
  have hselected : ∀ {place : Place}, place.Direct rules tree → ∀ p d,
      (p, d) ∈ place.selected rules ⟨tree, []⟩ ↔
        d = place.dstPath p ∧ ∃ e, entryAt .dir tree p = some e ∧ place.Named rules p e :=
    fun hdirect _ _ => Place.mem_selected_iff hdirect
  have hdst : ∀ {p e}, entryAt .dir tree p = some e →
      (a.dstPath p = b.dstPath p ↔ Place.SameText a b p) := by
    intro p e hat
    refine Place.dstPath_eq_iff ha hb ?_
    rcases cases_of_entryAt hat with ⟨rfl, -⟩ | hmem
    · simp
    · exact (htree.names _ hmem).2
  constructor
  · intro hsame
    have hmem := fun p d => (hselected hdirect p d).symm.trans
      ((hsame p d).trans (hselected hdirect' p d))
    have hforth : ∀ p e, entryAt .dir tree p = some e → a.Named rules p e →
        b.Named rules p e ∧ a.dstPath p = b.dstPath p := by
      intro p e hat hnamed
      obtain ⟨hd, e', hat', hnamed'⟩ := (hmem p _).1 ⟨rfl, e, hat, hnamed⟩
      cases hat.symm.trans hat'
      exact ⟨hnamed', hd⟩
    refine ⟨fun p e hat => ⟨fun hnamed => (hforth p e hat hnamed).1, fun hnamed => ?_⟩,
      fun p e hat hnamed => (hdst hat).1 (hforth p e hat hnamed).2⟩
    obtain ⟨-, e', hat', hnamed'⟩ := (hmem p _).2 ⟨rfl, e, hat, hnamed⟩
    cases hat.symm.trans hat'
    exact hnamed'
  · intro hfree p d
    rw [hselected hdirect, hselected hdirect']
    constructor
    · rintro ⟨rfl, e, hat, hnamed⟩
      exact ⟨(hdst hat).2 (hfree.same p e hat hnamed), e, hat, (hfree.named p e hat).1 hnamed⟩
    · rintro ⟨rfl, e, hat, hnamed⟩
      have hnamed' := (hfree.named p e hat).2 hnamed
      exact ⟨((hdst hat).2 (hfree.same p e hat hnamed')).symm, e, hat, hnamed'⟩

/-! ### Whatever the links do -/

/-- A rule means the same at both places, for what is there at its turn. -/
def Agrees (a b : Place) (t : Trees) : Rule → Prop
  | .comment => True
  | .path text => meant a.src text = meant b.src text ∧
      ∀ p, meant a.src text = some p → Place.SameText a b p
  | .regexp rest => ∀ x ∈ t.src, a.hasMatch rest x.1 = b.hasMatch rest x.1 ∧
      (a.hasMatch rest x.1 = true → Place.SameText a b x.1)

/-- Each rule does when it is its turn. -/
def RunAgrees (a b : Place) : List (List Char) → Trees → Prop
  | [], _ => True
  | rule :: rules, t =>
      Agrees a b t (readRule rule) ∧
        RunAgrees a b rules (installRule a.host a.src a.dest t rule)

theorem installEntry_congr (hhost : a.host = b.host) {x : Path × Entry}
    (h : a.dstPath x.1 = b.dstPath x.1) (t : Trees) : a.installEntry t x = b.installEntry t x := by
  unfold Place.dstPath at h
  simp only [Place.installEntry, installFile, hhost, h]

/-- **Step**: the same is selected and goes to the same places. -/
theorem Agrees.selects_eq (hhost : a.host = b.host) {t : Trees} {rule : Rule}
    (h : Agrees a b t rule) :
    a.selects t rule = b.selects t rule ∧ ∀ x ∈ a.selects t rule, Place.SameText a b x.1 := by
  cases rule with
  | comment => exact ⟨rfl, by simp [Place.selects]⟩
  | path text =>
    obtain ⟨hmeant, hsame⟩ := h
    constructor
    · simp only [Place.selects, Place.found, hmeant, hhost]
    · rintro ⟨p, e⟩ hx
      rw [Place.selects, Option.mem_toList, Place.found_eq_some_iff] at hx
      exact hsame p hx.1
  | regexp rest =>
    refine ⟨List.filter_congr fun x hx => (h x hx).1, fun x hx => ?_⟩
    obtain ⟨hmem, hmatch⟩ := List.mem_filter.1 hx
    exact (h x hmem).2 hmatch

/-- **Step**: the same is installed. -/
theorem Agrees.install_eq (hhost : a.host = b.host) (ha : a.Valid) (hb : b.Valid) {t : Trees}
    {rule : Rule} (h : Agrees a b t rule) : a.install t rule = b.install t rule := by
  cases rule with
  | comment => rfl
  | path text =>
    obtain ⟨hmeant, hsame⟩ := h
    simp only [Place.install, installPath, ← hmeant]
    cases hp : meant a.src text with
    | none => rfl
    | some p =>
      have hentry : ∀ e, a.installEntry t (p, e) = b.installEntry t (p, e) := fun e =>
        installEntry_congr hhost ((hsame p hp).dstPath_eq ha hb) t
      simp only [Place.installEntry, hhost] at hentry
      simp only [hentry, hhost]
  | regexp rest =>
    refine List.foldl_ext _ _ _ fun t' x hx => ?_
    obtain ⟨hmatch, hsame⟩ := h x hx
    simp only [Place.hasMatch] at hmatch hsame
    rw [← hmatch]
    split
    · next hmatches =>
      exact installEntry_congr hhost ((hsame hmatches).dstPath_eq ha hb) t'
    · rfl

/-- **Run**: both runs are the same. -/
theorem RunAgrees.same (hhost : a.host = b.host) (ha : a.Valid) (hb : b.Valid)
    {rules : List (List Char)} {t : Trees} (h : RunAgrees a b rules t) :
    a.selected rules t = b.selected rules t ∧
      installModule a.host a.src a.dest rules t = installModule b.host b.src b.dest rules t := by
  induction rules generalizing t with
  | nil => exact ⟨rfl, rfl⟩
  | cons rule rules ih =>
    obtain ⟨hagrees, hrest⟩ := h
    obtain ⟨hselects, hsame⟩ := hagrees.selects_eq hhost
    have hround : installRule a.host a.src a.dest t rule =
        installRule b.host b.src b.dest t rule := by
      rw [Place.installRule_eq, Place.installRule_eq, hagrees.install_eq hhost ha hb]
    have hhere : (a.selects t (readRule rule)).map (fun x => (x.1, a.dstPath x.1)) =
        (b.selects t (readRule rule)).map fun x => (x.1, b.dstPath x.1) := by
      rw [← hselects]
      exact List.map_congr_left fun x hx => by rw [(hsame x hx).dstPath_eq ha hb]
    obtain ⟨hselected, hinstalled⟩ := ih hrest
    rw [hround] at hselected hinstalled
    constructor
    · rw [Place.selected, Place.selected, hhere, hround, hselected]
    · show installModule a.host a.src a.dest rules (installRule a.host a.src a.dest t rule) =
        installModule b.host b.src b.dest rules (installRule b.host b.src b.dest t rule)
      rw [hround, hinstalled]

end TwoRuns

/-! ## Section 5: Rules that say the same at every place -/

/-- The regular expressions of the default rules: an escaped character, any
    character, one or several of these, and the ends of the text. All other
    characters stand for themselves. -/
def expression : List Char → Regex Char Unit
  | [] => .empty
  | '^' :: cs => .seq .atStart (expression cs)
  | '$' :: cs => .seq (.atEnd '\n') (expression cs)
  | '\\' :: c :: '+' :: cs => .seq (.plus (· == c)) (expression cs)
  | '\\' :: c :: cs => .seq (.one (· == c)) (expression cs)
  | '.' :: '+' :: cs => .seq (.plus (· ≠ '\n')) (expression cs)
  | '.' :: cs => .seq (.one (· ≠ '\n')) (expression cs)
  | c :: '+' :: cs => .seq (.plus (· == c)) (expression cs)
  | c :: cs => .seq (.one (· == c)) (expression cs)

def searches (pattern text : List Char) : Bool := ((expression pattern).search text).isSome

example : searches "^/b/lib/.+\\.a$".toList "/b/lib/libx.a".toList = true ∧
    searches "^/b/lib/.+\\.a$".toList "/b/lib/libx.ab".toList = false := by decide

/-- Only an accent asks where the text starts. -/
theorem floating_expression {cs : List Char} (h : '^' ∉ cs) : (expression cs).Floating := by
  have htail : ∀ before {after : List Char}, '^' ∉ before ++ after → '^' ∉ after :=
    fun _ _ h hmem => h (List.mem_append_right _ hmem)
  fun_induction expression cs with
  | case1 => trivial
  | case2 => simp at h
  | case3 cs ih => exact ⟨trivial, ih (htail ['$'] h)⟩
  | case4 c cs ih => exact ⟨⟨trivial, trivial⟩, ih (htail ['\\', c, '+'] h)⟩
  | case5 c cs _ ih => exact ⟨trivial, ih (htail ['\\', c] h)⟩
  | case6 cs ih => exact ⟨⟨trivial, trivial⟩, ih (htail ['.', '+'] h)⟩
  | case7 cs _ ih => exact ⟨trivial, ih (htail ['.'] h)⟩
  | case8 c cs _ _ _ _ _ ih => exact ⟨⟨trivial, trivial⟩, ih (htail [c, '+'] h)⟩
  | case9 c cs _ _ _ _ _ _ _ ih => exact ⟨trivial, ih (htail [c] h)⟩

/-- A character that stands for itself. -/
def isLiteral (c : Char) : Bool :=
  !(['\\', '^', '$', '.', '|', '?', '*', '+', '(', ')', '[', ']', '{', '}'].contains c)

theorem expression_literal {c : Char} (h : isLiteral c = true) {cs : List Char}
    (hcs : cs.head? ≠ some '+') :
    expression (c :: cs) = .seq (.one (· == c)) (expression cs) := by
  have hne : ∀ d, isLiteral d = false → c = d → False := by
    rintro d hd rfl
    rw [h] at hd
    cases hd
  rw [expression]
  · exact hne '^' (by decide)
  · exact hne '$' (by decide)
  · exact fun _ _ hc _ => hne '\\' (by decide) hc
  · exact fun _ _ hc _ => hne '\\' (by decide) hc
  · exact fun _ hc _ => hne '.' (by decide) hc
  · exact hne '.' (by decide)
  · rintro _ rfl
    exact hcs rfl

/-- Literal text at the beginning of an expression. -/
theorem first_expression_literal {literal : List Char} (h : ∀ c ∈ literal, isLiteral c = true)
    {rest : List Char} (hrest : rest.head? ≠ some '+') (text : List Char) :
    ((expression (literal ++ rest)).first false (literal ++ text)).isSome =
      ((expression rest).first false text).isSome := by
  induction literal with
  | nil => rfl
  | cons c literal ih =>
    have hhead : (literal ++ rest).head? ≠ some '+' := by
      cases literal with
      | nil => exact hrest
      | cons d literal =>
        intro heq
        cases heq
        exact absurd (h '+' (by simp)) (by decide)
    rw [List.cons_append, List.cons_append, expression_literal (h c List.mem_cons_self) hhead,
      Regex.first_one_seq, if_pos (by simp), Option.isSome_map,
      ih fun d hd => h d (List.mem_cons_of_mem _ hd)]

/-- Rules without two dots mean the same everywhere. -/
theorem walk_of_noDots {names : List Name} (h : ['.', '.'] ∉ names) (above here : Path) :
    walk (above ++ here) names = (walk here names).map (above ++ ·) := by
  induction names generalizing here with
  | nil => rfl
  | cons name names ih =>
    rw [List.mem_cons, not_or] at h
    rw [walk, walk, if_neg (Ne.symm h.1), if_neg (Ne.symm h.1)]
    split
    · exact ih h.2 here
    · rw [List.append_assoc]
      exact ih h.2 (here ++ [name])

theorem meant_of_noDots {src : Path} (hsrc : ∀ name ∈ src, IsName name) {text : List Char}
    (h : ['.', '.'] ∉ text.splitOn '/') : meant src text = resolve text := by
  have hsplit : (slashed src ++ '/' :: text).splitOn '/' = [] :: src ++ text.splitOn '/' := by
    rw [List.splitOn_append_cons_self, splitOn_slashed fun name hname => (hsrc name hname).noSlash]
  have hwalk : resolve (slashed src ++ '/' :: text) = (resolve text).map (src ++ ·) := by
    rw [resolve, hsplit, resolve, ← walk_of_noDots h src [], List.append_nil]
    exact walk_append hsrc _
  rw [meant, hwalk]
  cases resolve text with
  | none => rfl
  | some p => simp

/-- A rule that says the same at every place. -/
def Rule.Plain : Rule → Prop
  | .comment => True
  | .path text => ['.', '.'] ∉ text.splitOn '/'
  | .regexp rest => '^' ∉ rest

instance : DecidablePred Rule.Plain
  | .comment => inferInstanceAs (Decidable True)
  | .path _ => inferInstanceAs (Decidable (_ ∉ _))
  | .regexp _ => inferInstanceAs (Decidable (_ ∉ _))

/-- No character of the output directory is an operator. -/
structure Place.Ordinary (place : Place) : Prop extends place.Valid where
  literal : ∀ name ∈ place.src, name.all isLiteral = true
  host_hasMatch : place.host.hasMatch = searches
  leadsAway : place.LeadsAway

section Ordinary

variable {place a b : Place} {p : Path}

theorem Place.Ordinary.slashed_literal (h : place.Ordinary) :
    ∀ c ∈ slashed place.src, isLiteral c = true := by
  intro c hc
  obtain ⟨name, hname, hc⟩ := List.mem_flatMap.1 hc
  rcases List.mem_cons.1 hc with rfl | hc
  · decide
  · exact List.all_eq_true.1 (h.literal name hname) c hc

/-- At an ordinary place an expression is asked of the path below the output. -/
theorem Place.Ordinary.hasMatch_eq (h : place.Ordinary) {rest : List Char} (hrest : '^' ∉ rest) :
    place.hasMatch rest p = ((expression ('/' :: rest)).first false (slashed p)).isSome := by
  have hslash : '^' ∉ slashed place.src ++ '/' :: rest := by
    rw [List.mem_append, List.mem_cons, not_or, not_or]
    exact ⟨fun hc => absurd (h.slashed_literal _ hc) (by decide), by decide, hrest⟩
  rw [Place.hasMatch, h.host_hasMatch, searches, pattern, expression,
    Regex.search_atStart_seq (floating_expression hslash),
    first_expression_literal h.slashed_literal (by simp)]

theorem Place.Ordinary.names_iff (ha : a.Ordinary) (hb : b.Ordinary) {rule : Rule}
    (h : rule.Plain) {e : Entry} : a.Names p e rule ↔ b.Names p e rule := by
  cases rule with
  | comment => exact Iff.rfl
  | path text =>
    simp only [Names, meant_of_noDots ha.src_names h, meant_of_noDots hb.src_names h]
  | regexp rest =>
    simp only [Names, ha.hasMatch_eq h, hb.hasMatch_eq h]

theorem placeFree_of_ordinary (ha : a.Ordinary) (hb : b.Ordinary) {rules : List (List Char)}
    (hrules : ∀ rule ∈ rules, (readRule rule).Plain) {tree : Tree}
    (hagain : ∀ x ∈ tree, ¬ a.ComesAgain x.1 ∧ ¬ b.ComesAgain x.1) :
    PlaceFree a b rules tree where
  named p e _ := exists_congr fun rule => and_congr_right fun hrule =>
    ha.names_iff hb (hrules rule hrule)
  same p e hat _ := by
    rcases cases_of_entryAt hat with ⟨rfl, -⟩ | hmem
    · have hroot : ∀ {place : Place}, place.Valid → ¬ place.ComesAgain [] := fun h hwithin =>
        h.slashed_src_ne_nil (List.infix_nil.1 hwithin)
      exact .inl ⟨hroot ha.toValid, hroot hb.toValid⟩
    · exact .inl (hagain _ hmem)

/-- The rules of the module `develop` if the project has none. -/
def developRules : List (List Char) :=
  ["^/include/.+".toList, "^/lib/debug/.+".toList, "^/lib/.+\\.a$".toList]

/-- **The default rules**: they do not depend on the place if its text has no
    operators and does not come again in the tree. -/
theorem developRules_same (ha : a.Ordinary) (hb : b.Ordinary) {tree : Tree} (htree : IsTree tree)
    (hagain : ∀ x ∈ tree, ¬ a.ComesAgain x.1 ∧ ¬ b.ComesAgain x.1) :
    SameSelection a b developRules tree := by
  have hregexp : ∀ rule ∈ developRules, ∃ rest, readRule rule = .regexp rest ∧ '^' ∉ rest := by
    simp only [developRules, List.forall_mem_cons]
    exact ⟨⟨_, rfl, by decide⟩, ⟨_, rfl, by decide⟩, ⟨_, rfl, by decide⟩, by simp⟩
  have hdirect : ∀ {place : Place}, place.Ordinary → place.Direct developRules tree := by
    refine fun h => ⟨htree.lookup_nil, fun rule hrule => ?_, h.leadsAway⟩
    obtain ⟨rest, hrest, -⟩ := hregexp rule hrule
    rw [hrest]
    trivial
  have hplain : ∀ rule ∈ developRules, (readRule rule).Plain := by
    intro rule hrule
    obtain ⟨rest, hrest, hplain⟩ := hregexp rule hrule
    rw [hrest]
    exact hplain
  exact (sameSelection_iff_of_direct htree ha.toValid hb.toValid (hdirect ha) (hdirect hb)).2
    (placeFree_of_ordinary ha hb hplain hagain)

end Ordinary

/-! ## Section 6: The condition -/

/-- Nothing is a link. -/
def linkless : Host where
  follow _ _ := none
  throughLink t _ := t
  renamesDangling := false
  hasMatch := searches

/-- The output and the module of a project. -/
def project (name : String) : Place :=
  ⟨linkless, [name.toList, "out".toList], [name.toList, "mod".toList]⟩

def twoFiles : Tree := [(["x".toList], .file 1), (["y".toList], .file 2)]

end Linglong.InstallModule
