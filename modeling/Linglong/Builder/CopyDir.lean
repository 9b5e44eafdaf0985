import Linglong.Builder.LinkText
import Linglong.Framework.Checks
import Linglong.Framework.DirTree
import Linglong.Framework.Lookup

/-! # Copying a Directory

    `copyDir` (`builder/linglong_builder.cpp`) lists a directory, descends
    into what is a directory, copies files, and makes links again. It lists
    with the default filter of `QDir`: no hidden files, no special files, and
    no links that lead nowhere. A link to a directory counts as a directory,
    so that it descends through links, too.

    It ends nevertheless. The path it is at becomes longer with every level,
    and the kernel does not open paths of `PATH_MAX` bytes.

    The destination is empty and is not below what is read, so that the files
    that are read stay as they were.

    1. The disk, and paths on it.
    2. `copyDir`.
    3. It ends (`copyDir_ends`).
    4. What is at the destination (`copyDir_spec`).
    5. Paths without links.
    6. When nothing is lost (`copy_complete_iff`).
-/

namespace Linglong.CopyDir

open Framework

/-! ## Section 1: The disk -/

/-- What is at a path: `other` is a pipe, a socket or a device. -/
inductive Entry where
  | dir
  | file (object : Nat)
  | other
  | link (text : List Char)
  deriving DecidableEq

abbrev Tree := List (Path × Entry)

/-- All files of the system, before something is copied. -/
structure Disk where
  entries : Tree
  nodup : (entries.map Prod.fst).Nodup
  names : ∀ e ∈ entries, e.1 ≠ [] ∧ ∀ name ∈ e.1, IsName name
  closed : Closed .dir entries

/-- What path resolution sees. -/
def Entry.node : Entry → Node Name
  | .dir => .dir
  | .file _ => .file
  | .other => .file
  | .link text => .link (text.head? == some '/') ((text.splitOn '/').map step)

namespace Disk

variable (disk : Disk)

def entry (p : Path) : Option Entry := entryAt .dir disk.entries p

/-- An entry, as its directory has it. -/
def below (place : Path) (x : Path × Entry) : Option (Name × Entry) :=
  if x.1.dropLast = place then x.1.getLast?.map fun name => (name, x.2) else none

/-- What is in a directory. -/
def list (place : Path) : List (Name × Entry) := disk.entries.filterMap (below place)

def fileTree : FileTree Path Name where
  view := id
  store := fun p => (disk.entries.lookup p).map Entry.node

/-- The kernel takes the text of a path, with its last byte. -/
def Short (p : Path) : Prop := (slashed p).length < 4096

instance (p : Path) : Decidable (Short p) := inferInstanceAs (Decidable (_ < _))

/-- Where a path leads, through at most 40 links. -/
def resolve (follow : Bool) (p : Path) : Option Path :=
  if Short p then (disk.fileTree.walk follow 40 [] (p.map .down)).toOption else none

/-- `stat`. -/
def stat (p : Path) : Option Entry := (disk.resolve true p).bind disk.entry

/-- `lstat`, and `readlink` for a link. -/
def lstat (p : Path) : Option Entry := (disk.resolve false p).bind disk.entry

end Disk

/-! ## Section 2: copyDir -/

/-- Why it fails; the paths are those of the destination. -/
inductive CopyError where
  /-- "create .. : failed" -/
  | create (dst : Path)
  | copy (dst : Path)
  /-- "readlink failed! .." -/
  | readlink (dst : Path)
  /-- "Failed to create link: .." -/
  | link (dst : Path)
  deriving DecidableEq

/-- What a call returns. The error none means that it has not yet returned. -/
abbrev Copying := Except (Option CopyError) Tree

variable (disk : Disk) (refuses : Path → Bool)

/-- `isDir` of a file in a list. The kind comes from the list, but for links. -/
def isDir (p : Path) : Name × Entry → Bool
  | (_, .dir) => true
  | (name, .link _) => disk.stat (p ++ [name]) = some .dir
  | _ => false

/-- The default filter of `QDir`. -/
def isListed (p : Path) : Name × Entry → Bool
  | (name, e) =>
      name = ['.'] || name = ['.', '.'] || !(name.head? == some '.') &&
        match e with
        | .dir => true
        | .file _ => true
        | .other => false
        | .link _ => (disk.stat (p ++ [name])).isSome

/-- What a directory has that can be opened. -/
def children (p : Path) : List (Name × Entry) :=
  match disk.resolve true p with
  | some place => if disk.entry place = some .dir then disk.list place else []
  | none => []

/-- `entryInfoList`. -/
def entryInfoList (p : Path) : List (Name × Entry) :=
  ((['.'], .dir) :: (['.', '.'], .dir) :: children disk p).filter (isListed disk p)

/-- Something new at the destination. What is refused there, and why, is
    open. -/
def put (t : Tree) (d : Path) (e : Entry) (error : CopyError) : Copying :=
  if refuses d = true ∨ t.lookup d ≠ none then .error (some error) else .ok (t ++ [(d, e)])

/-- One round of the loop. -/
def copyEntry (rec : Path → Path → Tree → Copying) (p d : Path) (t : Tree) (info : Name × Entry) :
    Copying :=
  if info.1 = ['.'] ∨ info.1 = ['.', '.'] then .ok t
  else
    let src := p ++ [info.1]
    let dst := d ++ [info.1]
    if isDir disk p info then rec src dst t
    else
      match info.2 with
      | .link _ =>
          match disk.lstat src with
          | some (.link text) => put refuses t dst (.link (newTarget p text)) (.link dst)
          | _ => .error (some (.readlink dst))
      | _ =>
          match disk.stat src with
          | some (.file object) => put refuses t dst (.file object) (.copy dst)
          | _ => .error (some (.copy dst))

/-- `mkpath`, unless the directory is there. -/
def makeDst (t : Tree) (d : Path) : Copying :=
  if entryAt .dir t d = some .dir then .ok t else put refuses t d .dir (.create d)

/-- `copyDir`, with a bound on how deep the calls go. -/
def copyDir : Nat → Path → Path → Tree → Copying
  | 0, _, _, _ => .error none
  | depth + 1, p, d, t => do
      let t ← makeDst refuses t d
      (entryInfoList disk p).foldlM (copyEntry disk refuses (copyDir depth) p d) t

/-! ## Section 3: It ends -/

variable {disk : Disk} {refuses : Path → Bool} {p d : Path} {t t' : Tree}

namespace Disk

theorem below_eq_some {place : Path} {x : Path × Entry} {y : Name × Entry} :
    below place x = some y ↔ x = (place ++ [y.1], y.2) := by
  constructor
  · intro hsome
    obtain ⟨hplace, hlast⟩ := Option.ite_none_right_eq_some.1 hsome
    obtain ⟨name, hname, rfl⟩ := Option.map_eq_some_iff.1 hlast
    obtain ⟨before, hbefore⟩ := List.getLast?_eq_some_iff.1 hname
    rw [hbefore, List.dropLast_concat] at hplace
    rw [← hplace, ← hbefore]
  · rintro rfl
    simp [below]

theorem mem_list {place : Path} {y : Name × Entry} :
    y ∈ disk.list place ↔ (place ++ [y.1], y.2) ∈ disk.entries := by
  unfold list
  simp only [List.mem_filterMap, below_eq_some]
  exact ⟨fun ⟨x, hmem, hx⟩ => hx ▸ hmem, fun hmem => ⟨_, hmem, rfl⟩⟩

/-- No name comes twice in a directory. -/
theorem nodup_list (place : Path) : ((disk.list place).map Prod.fst).Nodup := by
  have hpairs := List.pairwise_map.1 disk.nodup
  refine List.pairwise_map.2 (List.pairwise_filterMap.2 (hpairs.imp fun {x x'} hne => ?_))
  intro y hy y' hy' hname
  rw [below_eq_some] at hy hy'
  refine hne ?_
  rw [hy, hy', hname]

end Disk

theorem mem_children {x : Name × Entry} (h : x ∈ children disk p) :
    Disk.Short p ∧ ∃ place, disk.resolve true p = some place ∧ disk.entry place = some .dir ∧
      x ∈ disk.list place := by
  unfold children at h
  split at h
  · next place hplace =>
    refine ⟨(Option.ite_none_right_eq_some.1 hplace).1, place, hplace, ?_⟩
    exact List.mem_ite_nil_right.1 h
  · cases h

/-- The names in a directory are names of files. -/
theorem isName_of_mem_children {x : Name × Entry} (h : x ∈ children disk p) : IsName x.1 := by
  obtain ⟨-, place, -, -, hmem⟩ := mem_children h
  exact (disk.names _ (Disk.mem_list.1 hmem)).2 x.1 (by simp)

/-- A file in a list is a dot, or in the directory. -/
theorem mem_entryInfoList {x : Name × Entry} (h : x ∈ entryInfoList disk p) :
    (x.1 = ['.'] ∨ x.1 = ['.', '.']) ∨ x ∈ children disk p ∧ isListed disk p x = true := by
  obtain ⟨hmem, hlisted⟩ := List.mem_filter.1 h
  simp only [List.mem_cons] at hmem
  rcases hmem with rfl | rfl | hmem
  · exact .inl (.inl rfl)
  · exact .inl (.inr rfl)
  · exact .inr ⟨hmem, hlisted⟩

theorem put_ne (t : Tree) (d : Path) (e : Entry) (error : CopyError) :
    put refuses t d e error ≠ .error none := by
  unfold put
  split
  · simp
  · simp

theorem makeDst_ne (t : Tree) (d : Path) : makeDst refuses t d ≠ .error none := by
  unfold makeDst
  split
  · simp
  · exact put_ne _ _ _ _

/-- **Step**: a round ends if the call for a directory does. -/
theorem copyEntry_ne {rec : Path → Path → Tree → Copying} {x : Name × Entry}
    (h : x ∈ children disk p → ∀ t, rec (p ++ [x.1]) (d ++ [x.1]) t ≠ .error none)
    (hx : x ∈ entryInfoList disk p) (t : Tree) :
    copyEntry disk refuses rec p d t x ≠ .error none := by
  rcases mem_entryInfoList hx with hdot | ⟨hmem, -⟩
  · rw [copyEntry, if_pos hdot]
    simp
  · unfold copyEntry
    dsimp only
    split
    · simp
    · split
      · exact h hmem t
      · split
        · split
          · exact put_ne _ _ _ _
          · simp
        · split
          · exact put_ne _ _ _ _
          · simp

/-- **Termination**: each level makes the path longer by two characters at
    least, and a path that is not short is not opened. -/
theorem copyDir_ends {depth : Nat} (hpos : 0 < depth)
    (h : 4096 < depth + (slashed p).length) (d : Path) (t : Tree) :
    copyDir disk refuses depth p d t ≠ .error none := by
  induction depth generalizing p d t with
  | zero => omega
  | succ depth ih =>
    rw [copyDir]
    cases hdst : makeDst refuses t d with
    | error e =>
      intro herror
      have hsame : e = none := Except.error.inj herror
      exact makeDst_ne t d (by rw [hdst, hsame])
    | ok t₁ =>
      refine foldlM_ne_error (fun t x hx => copyEntry_ne (fun hmem t => ?_) hx t) t₁
      have hshort : (slashed p).length < 4096 := (mem_children hmem).1
      have hname : 0 < x.1.length := List.length_pos_iff.2 (isName_of_mem_children hmem).ne_nil
      have hlength : (slashed (p ++ [x.1])).length = (slashed p).length + (x.1.length + 1) := by
        simp
      exact ih (by omega) (by omega) _ t

/-! ## Section 4: What is at the destination -/

/-- What is made of a file in a list. -/
def image (disk : Disk) (p : Path) (x : Name × Entry) : Option Entry :=
  if isDir disk p x then some .dir
  else
    match x.2 with
    | .link _ =>
        match disk.lstat (p ++ [x.1]) with
        | some (.link text) => some (.link (newTarget p text))
        | _ => none
    | _ =>
        match disk.stat (p ++ [x.1]) with
        | some (.file object) => some (.file object)
        | _ => none

/-- What a copy of the directory at `p` has at a path. -/
def Copied (disk : Disk) : Path → Path → Entry → Prop
  | _, [], _ => False
  | p, name :: rel, e' => ∃ e, (name, e) ∈ children disk p ∧ isListed disk p (name, e) = true ∧
      if rel = [] then image disk p (name, e) = some e'
      else isDir disk p (name, e) = true ∧ Copied disk (p ++ [name]) rel e'

/-- What a round makes at a path that begins with the name of the file. -/
def CopiedEntry (disk : Disk) (p : Path) (x : Name × Entry) (rel : Path) (e' : Entry) : Prop :=
  if rel = [] then image disk p x = some e'
  else isDir disk p x = true ∧ Copied disk (p ++ [x.1]) rel e'

/-- A call has copied `p` to `d`. -/
structure CopiedTo (disk : Disk) (p d : Path) (t t' : Tree) : Prop where
  frame : ∀ y, ¬ d <+: y → t'.lookup y = t.lookup y
  here : d ≠ [] → t'.lookup d = some .dir
  below : ∀ rel e, rel ≠ [] → (t'.lookup (d ++ rel) = some e ↔ Copied disk p rel e)

theorem put_eq_ok {e : Entry} {error : CopyError} (h : put refuses t d e error = .ok t') :
    t.lookup d = none ∧ t' = t ++ [(d, e)] := by
  obtain ⟨hfree, hput⟩ := ite_error_eq_ok_iff.1 h
  rw [not_or, not_not] at hfree
  exact ⟨hfree.2, (Except.ok.inj hput).symm⟩

/-- A round for something that is no directory. -/
theorem copyEntry_put {rec : Path → Path → Tree → Copying} {x : Name × Entry}
    (hdot : ¬ (x.1 = ['.'] ∨ x.1 = ['.', '.'])) (hdir : ¬ isDir disk p x = true)
    (h : copyEntry disk refuses rec p d t x = .ok t') :
    ∃ e, image disk p x = some e ∧ t.lookup (d ++ [x.1]) = none ∧ t' = t ++ [(d ++ [x.1], e)] := by
  rw [copyEntry, if_neg hdot] at h
  dsimp only at h
  rw [if_neg hdir] at h
  rw [image, if_neg hdir]
  split at h
  · split at h
    · exact ⟨_, rfl, put_eq_ok h⟩
    · cases h
  · split at h
    · exact ⟨_, rfl, put_eq_ok h⟩
    · cases h

/-- **Step**: one round, if the call for a directory copies it. -/
theorem copyEntry_spec {rec : Path → Path → Tree → Copying}
    (hrec : ∀ p d t t', rec p d t = .ok t' → (∀ rel, rel ≠ [] → t.lookup (d ++ rel) = none) →
      CopiedTo disk p d t t')
    {x : Name × Entry} (hdot : ¬ (x.1 = ['.'] ∨ x.1 = ['.', '.']))
    (h : copyEntry disk refuses rec p d t x = .ok t')
    (hfresh : ∀ rel, t.lookup (d ++ x.1 :: rel) = none) :
    (∀ y, ¬ d ++ [x.1] <+: y → t'.lookup y = t.lookup y) ∧
      ∀ rel e', t'.lookup (d ++ x.1 :: rel) = some e' ↔ CopiedEntry disk p x rel e' := by
  by_cases hdir : isDir disk p x = true
  · have hrun : rec (p ++ [x.1]) (d ++ [x.1]) t = .ok t' := by
      rw [copyEntry, if_neg hdot] at h
      dsimp only at h
      rwa [if_pos hdir] at h
    have hcopied := hrec _ _ _ _ hrun fun rel _ => by
      rw [List.append_assoc]
      exact hfresh rel
    refine ⟨hcopied.frame, fun rel e' => ?_⟩
    unfold CopiedEntry
    by_cases hrel : rel = []
    · rw [hrel, hcopied.here (by simp), if_pos rfl, image, if_pos hdir]
    · rw [if_neg hrel, append_cons_eq, hcopied.below rel e' hrel]
      exact ⟨fun hrest => ⟨hdir, hrest⟩, And.right⟩
  · obtain ⟨e, himage, hnone, rfl⟩ := copyEntry_put hdot hdir h
    refine ⟨fun y hy => ?_, fun rel e' => ?_⟩
    · rw [lookup_concat hnone, if_neg]
      rintro rfl
      exact hy List.prefix_rfl
    · unfold CopiedEntry
      rw [lookup_concat hnone]
      by_cases hrel : rel = []
      · rw [hrel, if_pos rfl, if_pos rfl, himage]
      · rw [if_neg hrel, if_neg (by simpa using hrel), hfresh rel]
        exact iff_of_false (by simp) fun hrest => hdir hrest.1

/-- What is below different names is different. -/
theorem name_eq_of_begins {rel : Path} {name name' : Name}
    (h : d ++ [name] <+: d ++ name' :: rel) : name = name' := by
  obtain ⟨rest, hrest⟩ := (List.prefix_append_right_inj d).1 h
  exact (List.cons.inj hrest).1

/-- **Loop**: each round adds what is below its own name. -/
theorem loop_spec {rec : Path → Path → Tree → Copying}
    (hrec : ∀ p d t t', rec p d t = .ok t' → (∀ rel, rel ≠ [] → t.lookup (d ++ rel) = none) →
      CopiedTo disk p d t t')
    {l : List (Name × Entry)} (hdots : ∀ x ∈ l, ¬ (x.1 = ['.'] ∨ x.1 = ['.', '.']))
    (hnodup : (l.map Prod.fst).Nodup)
    (h : l.foldlM (copyEntry disk refuses rec p d) t = .ok t')
    (hfresh : ∀ x ∈ l, ∀ rel, t.lookup (d ++ x.1 :: rel) = none) :
    (∀ y, (∀ x ∈ l, ¬ d ++ [x.1] <+: y) → t'.lookup y = t.lookup y) ∧
      ∀ x ∈ l, ∀ rel e', t'.lookup (d ++ x.1 :: rel) = some e' ↔ CopiedEntry disk p x rel e' := by
  induction l generalizing t with
  | nil =>
    cases h
    exact ⟨fun _ _ => rfl, fun x hx => absurd hx List.not_mem_nil⟩
  | cons x l ih =>
    obtain ⟨t₁, hround, hrest⟩ := foldlM_cons_eq_ok_iff.1 h
    rw [List.map_cons, List.nodup_cons] at hnodup
    obtain ⟨hframe, hbelow⟩ := copyEntry_spec hrec (hdots x List.mem_cons_self) hround
      (hfresh x List.mem_cons_self)
    -- the other rounds have other names
    have hother : ∀ x' ∈ l, ∀ rel, ¬ d ++ [x.1] <+: d ++ x'.1 :: rel := by
      intro x' hx' rel hbegins
      exact hnodup.1 (name_eq_of_begins hbegins ▸ List.mem_map_of_mem hx')
    obtain ⟨hframe', hbelow'⟩ := ih (fun x' hx' => hdots x' (List.mem_cons_of_mem _ hx')) hnodup.2
      hrest fun x' hx' rel => by
        rw [hframe _ (hother x' hx' rel)]
        exact hfresh x' (List.mem_cons_of_mem _ hx') rel
    refine ⟨fun y hy => ?_, fun x' hx' rel e' => ?_⟩
    · rw [hframe' y fun x' hx' => hy x' (List.mem_cons_of_mem _ hx'),
        hframe y (hy x List.mem_cons_self)]
    · rcases List.mem_cons.1 hx' with rfl | hx'
      · rw [hframe' _ fun x hx hbegins => ?_]
        · exact hbelow rel e'
        · exact hnodup.1 (name_eq_of_begins hbegins ▸ List.mem_map_of_mem hx)
      · exact hbelow' x' hx' rel e'

theorem nodup_children (p : Path) : ((children disk p).map Prod.fst).Nodup := by
  unfold children
  split
  · split
    · exact Disk.nodup_list _
    · exact List.nodup_nil
  · exact List.nodup_nil

/-- What is listed besides the dots. -/
def listed (disk : Disk) (p : Path) : List (Name × Entry) :=
  (children disk p).filter (isListed disk p)

/-- The rounds for the dots do nothing. -/
theorem foldlM_entryInfoList (rec : Path → Path → Tree → Copying) (t : Tree) :
    (entryInfoList disk p).foldlM (copyEntry disk refuses rec p d) t =
      (listed disk p).foldlM (copyEntry disk refuses rec p d) t := rfl

theorem mem_listed {x : Name × Entry} :
    x ∈ listed disk p ↔ x ∈ children disk p ∧ isListed disk p x = true := List.mem_filter

theorem nodup_listed (p : Path) : ((listed disk p).map Prod.fst).Nodup :=
  (List.filter_sublist.map _).nodup (nodup_children p)

/-- What a copy has is what the round for its first name made. -/
theorem copied_cons_iff {name : Name} {rel : Path} {e' : Entry} :
    Copied disk p (name :: rel) e' ↔
      ∃ e, (name, e) ∈ listed disk p ∧ CopiedEntry disk p (name, e) rel e' := by
  rw [Copied]
  refine exists_congr fun e => ?_
  rw [mem_listed, and_assoc]
  rfl

/-- The directory is there, and nothing else is new. -/
theorem makeDst_spec (h : makeDst refuses t d = .ok t') :
    (d ≠ [] → t'.lookup d = some .dir) ∧ ∀ y, y ≠ d → t'.lookup y = t.lookup y := by
  unfold makeDst at h
  split at h
  · next hdir =>
    cases h
    refine ⟨fun hne => ?_, fun _ _ => rfl⟩
    rwa [entryAt_of_ne_nil hne] at hdir
  · obtain ⟨hnone, rfl⟩ := put_eq_ok h
    refine ⟨fun _ => ?_, fun y hy => ?_⟩
    · rw [lookup_concat hnone, if_pos rfl]
    · rw [lookup_concat hnone, if_neg hy]

/-- **Run**: what a call that succeeds has copied. The induction is on the
    depth of the calls. -/
theorem copyDir_spec {depth : Nat} (h : copyDir disk refuses depth p d t = .ok t')
    (hfresh : ∀ rel, rel ≠ [] → t.lookup (d ++ rel) = none) : CopiedTo disk p d t t' := by
  induction depth generalizing p d t t' with
  | zero => cases h
  | succ depth ih =>
    rw [copyDir, bind_eq_ok_iff] at h
    obtain ⟨t₁, hdst, hloop⟩ := h
    rw [foldlM_entryInfoList] at hloop
    obtain ⟨hhere, hkept⟩ := makeDst_spec hdst
    have hfresh' : ∀ rel, rel ≠ [] → t₁.lookup (d ++ rel) = none := by
      intro rel hrel
      rw [hkept _ (by simpa using hrel), hfresh rel hrel]
    have hdots : ∀ x ∈ listed disk p, ¬ (x.1 = ['.'] ∨ x.1 = ['.', '.']) := by
      intro x hx hdot
      have hname := isName_of_mem_children (mem_listed.1 hx).1
      exact hdot.elim hname.ne_dot hname.ne_dots
    obtain ⟨hframe, hbelow⟩ := loop_spec (fun p d t t' hrun hrel => ih hrun hrel) hdots
      (nodup_listed p) hloop fun x _ rel => hfresh' _ (by simp)
    -- what is not below one of the names is as after the directory was made
    refine ⟨fun y hy => ?_, fun hne => ?_, fun rel e hrel => ?_⟩
    · rw [hframe y fun x _ hbegins => hy ((List.prefix_append _ _).trans hbegins), hkept]
      rintro rfl
      exact hy List.prefix_rfl
    · rw [hframe d, hhere hne]
      intro x _ hbegins
      have hlength := hbegins.length_le
      rw [List.length_append, List.length_singleton] at hlength
      omega
    · obtain ⟨name, rel, rfl⟩ := List.exists_cons_of_ne_nil hrel
      rw [copied_cons_iff]
      by_cases hname : ∃ e', (name, e') ∈ listed disk p
      · obtain ⟨e', he'⟩ := hname
        rw [hbelow _ he' rel e]
        refine ⟨fun hentry => ⟨e', he', hentry⟩, fun ⟨e'', he'', hentry⟩ => ?_⟩
        have hsame : e' = e'' := by
          have hfirst := lookup_of_mem (nodup_listed p) he'
          rw [lookup_of_mem (nodup_listed p) he''] at hfirst
          exact (Option.some.inj hfirst).symm
        rwa [hsame]
      · have hnone : t'.lookup (d ++ name :: rel) = none := by
          rw [hframe, hfresh' _ (by simp)]
          intro x hx hbegins
          exact hname ⟨x.2, name_eq_of_begins hbegins ▸ hx⟩
        rw [hnone]
        exact iff_of_false (by simp) fun ⟨e', he', _⟩ => hname ⟨e', he'⟩

/-! ## Section 5: Paths without links -/

namespace Disk

theorem entry_of_ne_nil {p : Path} (h : p ≠ []) : disk.entry p = disk.entries.lookup p :=
  entryAt_of_ne_nil h

/-- What is above an entry is a directory. -/
theorem entry_above {p rest : Path} {e : Entry} (h : disk.entry (p ++ rest) = some e)
    (hrest : rest ≠ []) : disk.entry p = some .dir := by
  by_cases hp : p = []
  · rw [hp]
    rfl
  · rw [entry_of_ne_nil (by simp [hp])] at h
    rw [entry_of_ne_nil hp]
    exact disk.closed _ e h p (List.prefix_append _ _) hp (by simpa using hrest)

theorem mem_list_iff {p : Path} {name : Name} {e : Entry} :
    (name, e) ∈ disk.list p ↔ disk.entry (p ++ [name]) = some e := by
  rw [mem_list, entry_of_ne_nil (by simp)]
  refine ⟨fun hmem => lookup_of_mem disk.nodup hmem, fun hlookup => ?_⟩
  obtain ⟨before, after, heq, -⟩ := List.lookup_eq_some_iff.1 hlookup
  rw [heq]
  simp

/-- Everything above an entry has a name. -/
theorem isName_of_entry {p : Path} {e : Entry} (h : disk.entry p = some e) :
    ∀ name ∈ p, IsName name := by
  by_cases hp : p = []
  · simp [hp]
  · rw [entry_of_ne_nil hp] at h
    obtain ⟨before, after, heq, -⟩ := List.lookup_eq_some_iff.1 h
    exact (disk.names (p, e) (by rw [heq]; simp)).2

theorem node_eq (p : Path) : disk.fileTree.node p = (disk.entry p).map Entry.node := by
  by_cases hp : p = []
  · rw [hp]
    rfl
  · rw [FileTree.node, if_neg (by simpa using hp), entry_of_ne_nil hp]
    rfl

theorem node_of_entry {p : Path} {e : Entry} (h : disk.entry p = some e) :
    disk.fileTree.node p = some e.node := by
  rw [node_eq, h]
  rfl

theorem node_eq_dir_iff {p : Path} :
    disk.fileTree.node p = some .dir ↔ disk.entry p = some .dir := by
  rw [node_eq, Option.map_eq_some_iff]
  refine ⟨fun ⟨e, he, hnode⟩ => ?_, fun h => ⟨_, h, rfl⟩⟩
  cases e with
  | dir => exact he
  | file object => cases hnode
  | other => cases hnode
  | link text => cases hnode

/-- A path that meets no link leads where it says. -/
theorem walkWith_real {follow : Bool}
    {onLink : List Name → List (PathStep Name) → Except Errno (List Name)} {here rest : Path}
    {e : Entry} (h : disk.entry (here ++ rest) = some e)
    (hlink : follow = true → ∀ text, e ≠ .link text) :
    disk.fileTree.walkWith follow onLink here (rest.map .down) = .ok (here ++ rest) := by
  induction rest generalizing here with
  | nil =>
    rw [List.append_nil]
    rfl
  | cons name rest ih =>
    rw [append_cons_eq] at h ⊢
    rw [List.map_cons, FileTree.walkWith]
    by_cases hrest : rest = []
    · subst hrest
      rw [List.append_nil] at h ⊢
      rw [node_of_entry h]
      cases e with
      | dir => rfl
      | file object => rfl
      | other => rfl
      | link text =>
        cases follow with
        | true => exact absurd rfl (hlink rfl text)
        | false => rfl
    · rw [node_of_entry (entry_above h hrest)]
      exact ih h

theorem resolve_real {follow : Bool} {p : Path} {e : Entry} (hshort : Short p)
    (h : disk.entry p = some e) (hlink : follow = true → ∀ text, e ≠ .link text) :
    disk.resolve follow p = some p := by
  have hwalk : disk.fileTree.walk follow 40 [] (p.map .down) = .ok p := walkWith_real h hlink
  rw [resolve, if_pos hshort, hwalk]
  rfl

theorem lstat_real {p : Path} {e : Entry} (hshort : Short p) (h : disk.entry p = some e) :
    disk.lstat p = some e := by
  have hplace : disk.resolve false p = some p :=
    resolve_real hshort h fun hfollow => absurd hfollow (by decide)
  rw [lstat, hplace]
  exact h

theorem stat_real {p : Path} {e : Entry} (hshort : Short p) (h : disk.entry p = some e)
    (hlink : ∀ text, e ≠ .link text) : disk.stat p = some e := by
  rw [stat, resolve_real hshort h fun _ => hlink]
  exact h

/-- Above a directory are directories. -/
theorem node_dropLast {p : Path} (h : disk.fileTree.node p = some .dir) :
    disk.fileTree.node p.dropLast = some .dir := by
  rcases List.eq_nil_or_concat' p with rfl | ⟨q, name, rfl⟩
  · exact h
  · rw [List.dropLast_concat]
    exact node_eq_dir_iff.2 (entry_above (node_eq_dir_iff.1 h) (by simp))

/-- What is behind the path of a directory is resolved from there. -/
theorem walk_below {p : Path} (h : disk.entry p = some .dir) (links : Nat)
    (steps : List (PathStep Name)) :
    disk.fileTree.walk true links [] (p.map .down ++ steps) =
      disk.fileTree.walk true links p steps := by
  induction p using List.reverseRecOn generalizing steps with
  | nil => rfl
  | append_singleton p name ih =>
    rw [List.map_append, List.append_assoc, ih (entry_above h (by simp))]
    exact FileTree.walk_down (node_of_entry h)

/-- The text of a link to something that is no directory ends with a name. -/
theorem lastName_of_stat {p : Path} {name : Name} {text : List Char} {x : Entry}
    (h : disk.entry (p ++ [name]) = some (.link text)) (hx : disk.stat (p ++ [name]) = some x)
    (hne : x ≠ .dir) :
    ∃ before last, text.splitOn '/' = before ++ [last] ∧ IsName last := by
  obtain ⟨before, last, hlast⟩ :=
    (List.eq_nil_or_concat' (text.splitOn '/')).resolve_left (List.splitOn_ne_nil _ _)
  refine ⟨before, last, hlast, ?_⟩
  have hslash : '/' ∉ last := not_mem_splitOn (by rw [hlast]; simp)
  cases hstep : step last with
  | down n => exact (isName_of_step hstep hslash).2
  | _ =>
    -- it would lead to a directory
    exfalso
    have hdir : disk.entry p = some .dir := entry_above h (by simp)
    obtain ⟨place, hplace, hentry⟩ := Option.bind_eq_some_iff.1 hx
    have hwalk := (Option.ite_none_right_eq_some.1 hplace).2
    have htarget : (text.splitOn '/').map step = before.map step ++ [step last] := by
      rw [hlast, List.map_append, List.map_singleton]
    rw [List.map_append, List.map_singleton, walk_below hdir, FileTree.walk, FileTree.walkWith,
      node_of_entry h, Entry.node, htarget] at hwalk
    simp only [List.isEmpty_nil, Bool.not_true, Bool.and_false, Bool.false_eq_true, if_false,
      List.append_nil] at hwalk
    cases hok : disk.fileTree.walk true 39 (if (text.head? == some '/') = true then [] else p)
        (before.map step ++ [step last]) with
    | error e =>
      rw [hok] at hwalk
      cases hwalk
    | ok q =>
      rw [hok] at hwalk
      obtain rfl : q = place := Option.some.inj hwalk
      have hnode := FileTree.walk_dir (by simp [hstep]) (fun _ => node_dropLast) ?_ hok
      · rw [node_eq_dir_iff.1 hnode] at hentry
        exact hne (Option.some.inj hentry).symm
      · split
        · rfl
        · exact node_eq_dir_iff.2 hdir

theorem short_of_stat {p : Path} {e : Entry} (h : disk.stat p = some e) : Short p := by
  obtain ⟨place, hplace, -⟩ := Option.bind_eq_some_iff.1 h
  exact (Option.ite_none_right_eq_some.1 hplace).1

end Disk

/-- The list of a directory on a path without links. -/
theorem children_real (hshort : Disk.Short p) (h : disk.entry p = some .dir) :
    children disk p = disk.list p := by
  unfold children
  rw [Disk.resolve_real hshort h nofun]
  dsimp only
  rw [if_pos h]

/-! ## Section 6: When nothing is lost -/

/-- A directory that is copied. -/
structure Source where
  disk : Disk
  src : Path
  isDir : disk.entry src = some .dir

/-- An entry that is copied as it is. -/
def Kept (disk : Disk) (p : Path) (name : Name) (e : Entry) : Prop :=
  name.head? ≠ some '.' ∧ Disk.Short p ∧
    match e with
    | .dir => True
    | .file _ => Disk.Short (p ++ [name])
    | .other => False
    | .link text => (∃ x, disk.stat (p ++ [name]) = some x ∧ x ≠ .dir) ∧ Direct p text

namespace Source

/-- `copyDir` into an empty directory. -/
def copy (s : Source) (refuses : Path → Bool) (depth : Nat) : Copying :=
  copyDir s.disk refuses depth s.src [] []

/-- Every entry is there, and is what it was. -/
def Complete (s : Source) (t : Tree) : Prop :=
  ∀ y e, y ≠ [] → s.disk.entry (s.src ++ y) = some e → t.lookup y = some e

/-- Every entry is copied as it is: none is hidden or special, and each link
    leads to something that is no directory and has a text without detours. -/
def Plain (s : Source) : Prop :=
  ∀ q name e, s.disk.entry (s.src ++ q ++ [name]) = some e → Kept s.disk (s.src ++ q) name e

end Source

/-- An entry that is copied as it is. -/
theorem Kept.copied {name : Name} {e : Entry} (hkept : Kept disk p name e)
    (h : disk.entry (p ++ [name]) = some e) :
    (name, e) ∈ listed disk p ∧ image disk p (name, e) = some e := by
  obtain ⟨hvisible, hshort, hkind⟩ := hkept
  have hdir : disk.entry p = some .dir := Disk.entry_above h (by simp)
  have hchild : (name, e) ∈ children disk p := by
    rw [children_real hshort hdir]
    exact Disk.mem_list_iff.2 h
  rw [mem_listed]
  cases e with
  | dir => exact ⟨⟨hchild, by simp [isListed, hvisible]⟩, rfl⟩
  | file object =>
    refine ⟨⟨hchild, by simp [isListed, hvisible]⟩, ?_⟩
    have hstat := Disk.stat_real hkind h nofun
    simp [image, isDir, hstat]
  | other => exact hkind.elim
  | link text =>
    obtain ⟨⟨x, hx, hne⟩, htext⟩ := hkind
    have hlstat := Disk.lstat_real (Disk.short_of_stat hx) h
    have hsame := htext.newTarget_eq (Disk.isName_of_entry hdir)
    refine ⟨⟨hchild, by simp [isListed, hvisible, hx]⟩, ?_⟩
    simp [image, isDir, hx, hne, hlstat, hsame]

/-- The other way round. -/
theorem kept_of_copied {name : Name} {e : Entry} (hdir : disk.entry p = some .dir)
    (h : disk.entry (p ++ [name]) = some e) {e' : Entry} (hlisted : (name, e') ∈ listed disk p)
    (himage : image disk p (name, e') = some e) : Kept disk p name e := by
  obtain ⟨hchild, hfilter⟩ := mem_listed.1 hlisted
  have hshort := (mem_children hchild).1
  have hname := isName_of_mem_children hchild
  rw [children_real hshort hdir, Disk.mem_list_iff, h] at hchild
  cases hchild
  simp only [isListed, hname.ne_dot, hname.ne_dots, decide_false, Bool.false_or, Bool.and_eq_true,
    Bool.not_eq_true', beq_eq_false_iff_ne] at hfilter
  refine ⟨hfilter.1, hshort, ?_⟩
  cases e with
  | dir => trivial
  | file object =>
    rw [image, if_neg (by simp [isDir])] at himage
    dsimp only at himage
    split at himage
    · next hstat => exact Disk.short_of_stat hstat
    · cases himage
  | other => exact absurd hfilter.2 (by simp)
  | link text =>
    obtain ⟨x, hx⟩ := Option.isSome_iff_exists.1 hfilter.2
    have hlstat := Disk.lstat_real (Disk.short_of_stat hx) h
    by_cases hto : x = .dir
    · -- a directory would have been copied
      rw [image, if_pos (by simp [isDir, hx, hto])] at himage
      cases himage
    · rw [image, if_neg (by simp [isDir, hx, hto])] at himage
      dsimp only at himage
      rw [hlstat] at himage
      obtain ⟨before, last, hlast, hname⟩ := Disk.lastName_of_stat h hx hto
      exact ⟨⟨x, hx, hto⟩, direct_of_newTarget (Disk.isName_of_entry hdir)
        (Entry.link.inj (Option.some.inj himage)) hlast hname⟩

/-- The last name of a path of a copy. -/
theorem copied_last {q : Path} {name : Name} {e : Entry} (h : Copied disk p (q ++ [name]) e) :
    ∃ e', (name, e') ∈ listed disk (p ++ q) ∧ image disk (p ++ q) (name, e') = some e := by
  induction q generalizing p with
  | nil =>
    obtain ⟨e', hlisted, himage⟩ := copied_cons_iff.1 h
    rw [List.append_nil]
    exact ⟨e', hlisted, by simpa [CopiedEntry] using himage⟩
  | cons n q ih =>
    obtain ⟨e', -, hrest⟩ := copied_cons_iff.1 h
    rw [CopiedEntry, if_neg (by simp)] at hrest
    rw [append_cons_eq]
    exact ih hrest.2

/-- A path whose entries are all copied as they are. -/
theorem copied_of_kept {q : Path} {name : Name} {e : Entry}
    (hkept : ∀ q name e, disk.entry (p ++ q ++ [name]) = some e → Kept disk (p ++ q) name e)
    (h : disk.entry (p ++ q ++ [name]) = some e) : Copied disk p (q ++ [name]) e := by
  induction q generalizing p with
  | nil =>
    have hlast := hkept [] name e h
    rw [List.append_nil] at h hlast
    obtain ⟨hlisted, himage⟩ := hlast.copied h
    exact copied_cons_iff.2 ⟨e, hlisted, by simpa [CopiedEntry] using himage⟩
  | cons n q ih =>
    have hrest : p ++ n :: q ++ [name] = p ++ [n] ++ (q ++ [name]) := by simp
    rw [hrest] at h
    have hdir : disk.entry (p ++ [n]) = some .dir := Disk.entry_above h (by simp)
    have hfirst := hkept [] n .dir (by rwa [List.append_nil])
    rw [List.append_nil] at hfirst
    refine copied_cons_iff.2 ⟨.dir, (hfirst.copied hdir).1, ?_⟩
    rw [CopiedEntry, if_neg (by simp)]
    refine ⟨rfl, ih (fun q' name' e' h' => ?_) (by rwa [← List.append_assoc] at h)⟩
    rw [List.append_assoc p [n] q', List.singleton_append] at h' ⊢
    exact hkept _ _ _ h'

/-- **Exactness**: `copyDir` ends for every tree. When it succeeds, nothing
    was lost exactly if every entry is copied as it is. -/
theorem Source.copy_complete_iff (s : Source) (refuses : Path → Bool) :
    (∀ depth, 4096 < depth → s.copy refuses depth ≠ .error none) ∧
      ∀ depth t, s.copy refuses depth = .ok t → (s.Complete t ↔ s.Plain) := by
  refine ⟨fun depth hdepth => copyDir_ends (by omega) (by omega) [] [], fun depth t hrun => ?_⟩
  have hcopied := copyDir_spec hrun fun _ _ => rfl
  have hlookup : ∀ y e, y ≠ [] → (t.lookup y = some e ↔ Copied s.disk s.src y e) :=
    hcopied.below
  constructor
  · intro hcomplete q name e h
    have hat := hcomplete (q ++ [name]) e (by simp) (by rwa [← List.append_assoc])
    obtain ⟨e', hlisted, himage⟩ := copied_last ((hlookup _ e (by simp)).1 hat)
    exact kept_of_copied (Disk.entry_above h (by simp)) h hlisted himage
  · intro hplain y e hy h
    obtain ⟨q, name, rfl⟩ := (List.eq_nil_or_concat' y).resolve_left hy
    rw [← List.append_assoc] at h
    exact (hlookup _ e hy).2 (copied_of_kept hplain h)

/-- A directory with a hidden file and a link to a directory. -/
def dotFiles : Disk where
  entries := [(["src".toList], .dir), (["src".toList, ".config".toList], .file 1),
    (["src".toList, "lib".toList], .dir), (["src".toList, "lib64".toList], .link "lib".toList)]
  nodup := by decide
  names := by decide
  closed := closed_of_take (by decide)

/-- The hidden file is not copied, and the link becomes a directory. -/
theorem Source.not_complete_dotFiles : ¬ ∀ (s : Source) (refuses : Path → Bool) (depth : Nat)
    (t : Tree), s.copy refuses depth = .ok t → s.Complete t := by
  intro h
  have hcomplete := h ⟨dotFiles, ["src".toList], rfl⟩ (fun _ => false) 3
    [(["lib".toList], .dir), (["lib64".toList], .dir)] (by decide)
  have hhidden := hcomplete [".config".toList] (.file 1) (by simp) rfl
  exact absurd hhidden (by decide)

end Linglong.CopyDir
