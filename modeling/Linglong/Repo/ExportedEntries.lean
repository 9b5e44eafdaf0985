import Linglong.Builder.CopyDir
import Linglong.Framework.Machine
import Linglong.Repo.OSTreeRepo

/-! # Exported Entries

    The desktop files, icons and services of installed apps are links in
    `entries/share` (`repo/ostree_repo.cpp`). `exportReference` links the
    files that an app has in its own `entries/share`, `unexportReference`
    removes the links that lead into the layer of the app.

    The files of an app with several modules are linked where the modules are
    merged, in `merged/<id>`, and `unexportReference` looks for links into
    `layers/<commit>`. So these links stay. Links to hidden files stay, too:
    they are exported, and never seen again.

    1. The directory of links, and the files it leads to.
    2. The operations.
    3. The texts of the links.
    4. What an export does (`link_exportEntries_iff`).
    5. An app with two modules.
-/

namespace Linglong.Exports

open Framework
open CopyDir (Name Path relativeFilePath symLinkTarget absoluteText)

/-! ## Section 1: Links and files -/

/-- What there is in `entries/share`. -/
inductive Entry where
  | dir
  /-- "some cache file". -/
  | file
  | link (text : List Char)
  deriving DecidableEq

abbrev Share := List (Path × Entry)

/-- One file that a directory iterator gives, by its path below the directory
    it began with. -/
structure Listed where
  path : Path
  isDir : Bool
  /-- `symLinkTarget`, of a link. -/
  target : Option Path
  deriving DecidableEq

/-- The directories in `entries/share` of a layer that are exported. -/
def exportPaths : List Name :=
  ["applications", "mime", "icons", "dbus-1", "gnome-shell", "appdata", "metainfo", "plugins",
    "systemd", "deepin-manual", "deepin-elf-verify"].map String.toList

/-- The files of the system outside of `entries`, as they are at some time.
    Below a file there is nothing. -/
structure Disk where
  /-- `QDirIterator` through hidden files and links, nothing if there is no
      such directory. -/
  iterate : Path → List Listed
  fileExists : Path → Bool
  isDir : Path → Bool
  names : ∀ dir, ∀ f ∈ iterate dir, f.path ≠ [] ∧ ∀ name ∈ f.path, IsName name
  leaves : ∀ dir, ∀ f ∈ iterate dir, ∀ f' ∈ iterate dir, f.isDir = false → f.path <+: f'.path →
    f.path = f'.path
  files : ∀ dir, ∀ f ∈ iterate dir, isDir (dir ++ f.path) = f.isDir

/-- The directory of the repository. -/
structure Layout where
  repoDir : Path
  names : ∀ name ∈ repoDir, IsName name

/-- The directory that the files of an app are in. -/
inductive Source where
  | layer (commit : String)
  | merged (id : String)
  deriving DecidableEq

namespace Source

def kind : Source → Name
  | layer _ => "layers".toList
  | merged _ => "merged".toList

def name : Source → Name
  | layer commit => commit.toList
  | merged id => id.toList

/-- `layers/<commit>` or `merged/<id>`. -/
def dir (layout : Layout) (source : Source) : Path :=
  layout.repoDir ++ [source.kind, source.name]

/-- `entries/share` in it. -/
def entriesDir (layout : Layout) (source : Source) : Path :=
  source.dir layout ++ ["entries".toList, "share".toList]

end Source

/-- A directory in `entries`. -/
def Layout.inEntries (layout : Layout) (name : Name) : Path :=
  layout.repoDir ++ ["entries".toList, name]

/-- `entries/share`. -/
def Layout.shareDir (layout : Layout) : Path := layout.inEntries "share".toList

/-! ## Section 2: The operations -/

/-- How the steps for one file go. -/
structure Answers where
  /-- How many directories `mkpath` comes to, unless it comes to all. -/
  made : Option Nat := none
  removed : Bool := true
  linked : Bool := true

/-- The directory that `mkpath` comes to. -/
def Answers.reached (a : Answers) (dir : Path) : Path :=
  match a.made with
  | none => dir
  | some n => dir.take n

/-- `remove`: of directories, the empty ones only. -/
def remove (a : Answers) (share : Share) (p : Path) : Option Share :=
  if a.removed = false ∨ share.lookup p = some .dir ∧ ∃ x ∈ share, p <+: x.1 ∧ x.1 ≠ p then none
  else some (share.filter fun x => x.1 ≠ p)

/-- `create_symlink`. -/
def createSymlink (a : Answers) (share : Share) (p : Path) (text : List Char) : Share :=
  if a.linked then share ++ [(p, .link text)] else share

/-- Every directory above the path is there. Otherwise it has no status, and
    no link is made. -/
def reachable (share : Share) (p : Path) : Bool :=
  p.dropLast.inits.all fun q => entryAt .dir share q = some .dir

variable (layout : Layout) (disk : Disk)

/-- The file is neither a directory nor a link that leads nowhere. -/
def isExported (f : Listed) : Bool := !f.isDir && f.target.all disk.fileExists

/-- The text of the link to a file of a source. -/
def linkText (name : Name) (source : Source) (p : Path) : List Char :=
  relativeFilePath (layout.inEntries name ++ p.dropLast) (source.entriesDir layout ++ p)

/-- Make a link in a directory that is there, in the place of what is there. -/
def putLink (a : Answers) (share : Share) (p : Path) (text : List Char) : Share :=
  match share.lookup p with
  | none => createSymlink a share p text
  | some _ =>
      match remove a share p with
      | none => share
      | some share => createSymlink a share p text

/-- One round of the loops of `exportEntries`. -/
def exportFile (name : Name) (source : Source) (answers : Path → Answers) (share : Share)
    (f : Listed) : Share :=
  if isExported disk f = false then share
  else
    let a := answers f.path
    let parentDirForLinkPath := f.path.dropLast
    let share := mkdirs .dir share [] (a.reached parentDirForLinkPath)
    if reachable share f.path = false then share
    else putLink a share f.path (linkText layout name source f.path)

/-- What the iterators give for all `exportPaths` of a source. -/
def sourceFiles (source : Source) : List Listed :=
  exportPaths.flatMap fun path =>
    (disk.iterate (source.entriesDir layout ++ [path])).map fun f =>
      { f with path := path :: f.path }

/-- `exportEntries`, of a directory that has been found. -/
def exportEntries (name : Name) (source : Source) (answers : Path → Answers) (share : Share) :
    Share :=
  (sourceFiles layout disk source).foldl (exportFile layout disk name source answers) share

/-- `getMergedModuleDir` of an item: the directory itself. -/
def sourceOf (repo : Repo) (layer : RepositoryCacheLayersItem) : Except String Source :=
  match repo.findMerged layer.commit with
  | some item => .ok (.merged item.id)
  | none => do
      let _ ← repo.layerDirOf layer
      .ok (.layer layer.commit)

/-- The directory that a reference is exported from. -/
def exportSource (repo : Repo) (ref : Reference) : Except String Source := do
  let layer ← repo.getLayerItem ref "binary" none
  sourceOf repo layer

/-- `exportReference`. -/
def exportReference (repo : Repo) (ref : Reference) (answers : Path → Answers) (share : Share) :
    Share :=
  match exportSource repo ref with
  | .error _ => share
  | .ok source => exportEntries layout disk "share".toList source answers share

/-- The iterators over `entries/share` pass hidden files by. -/
def isVisible (p : Path) : Bool := p.all fun name => !(name.head? == some '.')

/-- Where a link leads. -/
def targetOf (p : Path) (text : List Char) : Path :=
  symLinkTarget (layout.shareDir ++ p.dropLast) text

/-- What a loop over `entries/share` leaves that removes some of the links:
    what is or leads to a directory is passed by, what is no link stays. -/
def stays (condition : Path → Bool) (removed : Path → Bool) (share : Share) (p : Path) : Bool :=
  match share.lookup p with
  | some (.link text) =>
      !(isVisible p && !disk.isDir (targetOf layout p text) &&
        condition (targetOf layout p text) && removed p)
  | _ => true

/-- Such a loop. -/
def removeLinks (condition : Path → Bool) (removed : Path → Bool) (share : Share) : Share :=
  share.filter fun x => stays layout disk condition removed share x.1

/-- `startsWith` the path of the layer. -/
def startsWithLayer (commit : String) (target : Path) : Bool :=
  (absoluteText ((Source.layer commit).dir layout)).isPrefixOf (absoluteText target)

/-- `unexportReference`. -/
def unexportReference (repo : Repo) (ref : Reference) (removed : Path → Bool) (share : Share) :
    Share :=
  match repo.getLayerItem ref "binary" none with
  | .error _ => share
  | .ok layer =>
      match repo.layerDirOf layer with
      | .error _ => share
      | .ok _ => removeLinks layout disk (startsWithLayer layout layer.commit) removed share

/-- `removeDanglingXDGIntergation`. -/
def removeDanglingXDGIntergation (removed : Path → Bool) (share : Share) : Share :=
  removeLinks layout disk (fun target => !disk.fileExists target) removed share

variable {layout : Layout} {disk : Disk} {a : Answers} {share : Share} {p q : Path}

/-! ## Section 3: The texts of the links -/

/-- As many steps up as there are names. -/
theorem cleanPath_up (here : Path) {names : Path} (h : ∀ name ∈ names, IsName name)
    (rest : Path) :
    CopyDir.cleanPath (here ++ names) (List.replicate names.length ['.', '.'] ++ rest) =
      CopyDir.cleanPath here rest := by
  induction names using List.reverseRecOn with
  | nil => simp
  | append_singleton names name ih =>
    have hname : IsName name := h name (by simp)
    have hlast : (here ++ (names ++ [name])).getLast? ≠ some ['.', '.'] := by
      rw [← List.append_assoc, List.getLast?_concat]
      exact fun heq => hname.ne_dots (Option.some.inj heq)
    have hstep : CopyDir.step ['.', '.'] = .up := by decide
    rw [List.length_append, List.length_singleton, List.replicate_succ, List.cons_append,
      CopyDir.cleanPath, hstep]
    dsimp only
    rw [if_neg (by simpa using hlast), ← List.append_assoc, List.dropLast_concat]
    exact ih fun n hn => h n (by simp [hn])

/-- The components of a text that begins with steps up. -/
theorem splitOn_up (n : Nat) (text : List Char) :
    ((List.replicate n ['.', '.', '/']).flatten ++ text).splitOn '/' =
      List.replicate n ['.', '.'] ++ text.splitOn '/' := by
  induction n with
  | zero => rfl
  | succ n ih =>
    have hdots : '/' ∉ ['.', '.'] := by decide
    rw [List.replicate_succ, List.flatten_cons, List.append_assoc]
    have hsplit := List.splitOn_append_cons_self_of_not_mem hdots
      ((List.replicate n ['.', '.', '/']).flatten ++ text)
    rw [ih] at hsplit
    exact hsplit

theorem relativeFilePath_append (root as bs : Path) {a b : Name} (h : a ≠ b) :
    relativeFilePath (root ++ a :: as) (root ++ b :: bs) =
      (List.replicate (a :: as).length ['.', '.', '/']).flatten ++ ['/'].intercalate (b :: bs) := by
  unfold relativeFilePath
  rw [mismatch_append root (by simpa [eq_comm] using h)]
  dsimp only
  rw [List.map_const', if_neg (by simp [List.replicate_succ])]

/-- **Texts**: a relative link leads to its file. -/
theorem symLinkTarget_relativeFilePath {root as bs : Path} {a b : Name} (h : a ≠ b)
    (hdir : ∀ name ∈ a :: as, IsName name) (hfile : ∀ name ∈ b :: bs, IsName name) :
    symLinkTarget (root ++ a :: as) (relativeFilePath (root ++ a :: as) (root ++ b :: bs)) =
      root ++ b :: bs := by
  have htext := relativeFilePath_append root as bs h
  have hsplit : (relativeFilePath (root ++ a :: as) (root ++ b :: bs)).splitOn '/' =
      List.replicate (a :: as).length ['.', '.'] ++ b :: bs := by
    have hjoin := List.splitOn_intercalate '/' (fun name hname => (hfile name hname).noSlash)
      (List.cons_ne_nil b bs)
    rw [htext, splitOn_up, hjoin]
  have hhead : (relativeFilePath (root ++ a :: as) (root ++ b :: bs)).head? ≠ some '/' := by
    rw [htext, List.length_cons, List.replicate_succ]
    simp
  unfold symLinkTarget
  rw [if_neg hhead, hsplit, cleanPath_up root hdir, CopyDir.cleanPath_names hfile]

/-- What the text of a link needs: names in the path. -/
structure Named (source : Source) (p : Path) : Prop where
  source : IsName source.name
  path : ∀ name ∈ p, IsName name

theorem kind_ne_entries (source : Source) : "entries".toList ≠ source.kind := by
  cases source
  · exact (by decide : "entries".toList ≠ "layers".toList)
  · exact (by decide : "entries".toList ≠ "merged".toList)

theorem isName_kind (source : Source) : IsName source.kind := by
  cases source
  · exact (by decide : IsName "layers".toList)
  · exact (by decide : IsName "merged".toList)

theorem entriesDir_append (layout : Layout) (source : Source) (p : Path) :
    source.entriesDir layout ++ p = layout.repoDir ++ source.kind :: source.name ::
      "entries".toList :: "share".toList :: p := by
  simp [Source.entriesDir, Source.dir]

theorem inEntries_append (layout : Layout) (name : Name) (p : Path) :
    layout.inEntries name ++ p = layout.repoDir ++ "entries".toList :: name :: p := by
  simp [Layout.inEntries]

/-- The text is the same in every directory in `entries`. -/
theorem linkText_name (layout : Layout) (name name' : Name) (source : Source) (p : Path) :
    linkText layout name source p = linkText layout name' source p := by
  unfold linkText
  rw [inEntries_append, inEntries_append, entriesDir_append,
    relativeFilePath_append _ _ _ (kind_ne_entries source),
    relativeFilePath_append _ _ _ (kind_ne_entries source), List.length_cons, List.length_cons,
    List.length_cons, List.length_cons]

/-- A link in `entries/share` leads to the file that it is made for. -/
theorem targetOf_linkText {source : Source} (h : Named source p) (name : Name) :
    targetOf layout p (linkText layout name source p) = source.entriesDir layout ++ p := by
  have hshare : ∀ n ∈ "entries".toList :: "share".toList :: p.dropLast, IsName n := by
    simp only [List.forall_mem_cons]
    exact ⟨by decide, by decide, fun n hn => h.path n (List.mem_of_mem_dropLast hn)⟩
  have hfile : ∀ n ∈ source.kind :: source.name :: "entries".toList :: "share".toList :: p,
      IsName n := by
    simp only [List.forall_mem_cons]
    exact ⟨isName_kind source, h.source, by decide, by decide, h.path⟩
  have hlead : CopyDir.symLinkTarget _ _ = layout.repoDir ++ _ :=
    symLinkTarget_relativeFilePath (kind_ne_entries source) hshare hfile
  rw [linkText_name layout name "share".toList]
  unfold targetOf linkText Layout.shareDir
  rw [inEntries_append, entriesDir_append]
  exact hlead

theorem prefix_append_iff {α : Type} {xs ys xs' ys' : List α} (h : xs.length = xs'.length) :
    xs ++ ys <+: xs' ++ ys' ↔ xs = xs' ∧ ys <+: ys' := by
  constructor
  · rintro ⟨more, hmore⟩
    rw [List.append_assoc] at hmore
    obtain ⟨hxs, hys⟩ := List.append_inj hmore h
    exact ⟨hxs, more, hys⟩
  · rintro ⟨rfl, more, rfl⟩
    exact ⟨more, by rw [List.append_assoc]⟩

theorem length_kind (source : Source) : source.kind.length = 6 := by
  cases source <;> rfl

theorem absoluteText_append (path : Path) (name : Name) (rest : Path) :
    absoluteText (path ++ name :: rest) = slashed path ++ slashed (name :: rest) := by
  rw [absoluteText, if_neg (by simp), slashed_append]

/-- **Prefixes**: with names of one length, what begins with the path of a
    layer is in it. -/
theorem startsWithLayer_iff {commit : String} {source : Source}
    (hlength : source.name.length = commit.toList.length) :
    startsWithLayer layout commit (source.entriesDir layout ++ p) = true ↔
      source = .layer commit := by
  unfold startsWithLayer
  rw [List.isPrefixOf_iff_prefix, entriesDir_append, Source.dir, absoluteText_append,
    absoluteText_append, prefix_append_iff rfl]
  simp only [slashed_cons, slashed_nil, List.append_nil, List.cons_prefix_cons]
  rw [prefix_append_iff (by rw [length_kind, length_kind])]
  simp only [List.cons_prefix_cons, true_and]
  have hname : ((Source.layer commit).name <+: source.name ++ '/' :: ("entries".toList ++
      '/' :: ("share".toList ++ slashed p))) ↔ commit.toList = source.name := by
    have hnames : commit.toList ++ [] <+: source.name ++ '/' :: ("entries".toList ++
        '/' :: ("share".toList ++ slashed p)) ↔ commit.toList = source.name ∧ [] <+: _ :=
      prefix_append_iff hlength.symm
    rw [List.append_nil] at hnames
    rw [Source.name, hnames]
    simp
  rw [hname]
  cases source with
  | layer commit' =>
    simp only [Source.kind, Source.name, true_and, Source.layer.injEq, String.toList_inj]
    exact eq_comm
  | merged id =>
    simp [Source.kind]

/-! ## Section 4: What an export does -/

theorem lookup_createSymlink (h : share.lookup p = none) (text : List Char) (q : Path) :
    (createSymlink a share p text).lookup q =
      if q = p then (if a.linked then some (.link text) else none) else share.lookup q := by
  unfold createSymlink
  split
  · rw [lookup_concat h]
  · split
    · next heq => rw [heq, h]
    · rfl

theorem remove_eq_some {share' : Share} (h : remove a share p = some share') :
    share' = share.filter (fun x => x.1 ≠ p) ∧ a.removed = true ∧
      ¬(share.lookup p = some .dir ∧ ∃ x ∈ share, p <+: x.1 ∧ x.1 ≠ p) := by
  unfold remove at h
  split at h
  · cases h
  · next hfree =>
    rw [not_or] at hfree
    exact ⟨(Option.some.inj h).symm, by simpa using hfree.1, hfree.2⟩

/-- **Cases** of one link: elsewhere nothing changes. At its place there is
    the link, nothing, or what was there before. -/
theorem lookup_putLink (a : Answers) (share : Share) (p : Path) (text : List Char) (q : Path) :
    (putLink a share p text).lookup q = share.lookup q ∨
      q = p ∧ ((putLink a share p text).lookup q = some (.link text) ∨
        (putLink a share p text).lookup q = none) := by
  unfold putLink
  have hcreate : ∀ {share' : Share}, share'.lookup p = none →
      (∀ q, q ≠ p → share'.lookup q = share.lookup q) →
      (createSymlink a share' p text).lookup q = share.lookup q ∨
        q = p ∧ ((createSymlink a share' p text).lookup q = some (.link text) ∨
          (createSymlink a share' p text).lookup q = none) := by
    intro share' hnone hother
    rw [lookup_createSymlink hnone]
    split
    · next heq =>
      refine .inr ⟨heq, ?_⟩
      split
      · exact .inl rfl
      · exact .inr rfl
    · next hne => exact .inl (hother q hne)
  cases hlookup : share.lookup p with
  | none => exact hcreate hlookup fun _ _ => rfl
  | some e =>
    dsimp only
    cases hremove : remove a share p with
    | none => exact .inl rfl
    | some share' =>
      obtain ⟨rfl, -, -⟩ := remove_eq_some hremove
      exact hcreate (lookup_filter_self p share) fun q hne => lookup_filter_ne hne share

/-- Without trouble the link is made. -/
theorem lookup_putLink_self (hremoved : a.removed = true) (hlinked : a.linked = true)
    (h : share.lookup p ≠ some .dir) (text : List Char) :
    (putLink a share p text).lookup p = some (.link text) := by
  unfold putLink
  cases hlookup : share.lookup p with
  | none =>
    dsimp only
    rw [lookup_createSymlink hlookup, if_pos rfl, if_pos hlinked]
  | some e =>
    have hremove : remove a share p = some (share.filter fun x => x.1 ≠ p) := by
      unfold remove
      rw [if_neg (by simp [hremoved, h])]
    dsimp only
    rw [hremove]
    dsimp only
    rw [lookup_createSymlink (lookup_filter_self p share), if_pos rfl, if_pos hlinked]

theorem reachable_iff : reachable share p = true ↔
    ∀ q, q <+: p.dropLast → q ≠ [] → share.lookup q = some .dir := by
  unfold reachable
  rw [List.all_eq_true]
  simp only [List.mem_inits, decide_eq_true_eq]
  refine forall₂_congr fun q hq => ?_
  by_cases hnil : q = []
  · simp [hnil, entryAt]
  · rw [entryAt_of_ne_nil hnil]
    simp [hnil]

/-- What is above a path is above its last name. -/
theorem prefix_dropLast (hq : q <+: p) (hne : q ≠ p) : q <+: p.dropLast := by
  rcases List.eq_nil_or_concat' p with rfl | ⟨first, last, rfl⟩
  · exact absurd (List.prefix_nil.1 hq) hne
  · rw [List.dropLast_concat]
    rcases List.prefix_concat_iff.1 hq with heq | hfirst
    · exact absurd heq hne
    · exact hfirst

theorem ne_of_prefix_dropLast (hp : p ≠ []) (hq : q <+: p.dropLast) : q ≠ p := by
  rintro rfl
  have hlen := hq.length_le
  rw [List.length_dropLast] at hlen
  have hpos := List.length_pos_iff.2 hp
  omega

/-- A link in a directory that is there keeps the tree a tree. -/
theorem closed_putLink (hclosed : Closed .dir share) (h : reachable share p = true) (a : Answers)
    (text : List Char) : Closed .dir (putLink a share p text) := by
  rw [reachable_iff] at h
  have hcreate : ∀ {share' : Share}, share'.lookup p = none → Closed .dir share' →
      (∀ q, q ≠ p → share'.lookup q = share.lookup q) →
      Closed .dir (createSymlink a share' p text) := by
    intro share' hnone hclosed' hother
    unfold createSymlink
    split
    · refine hclosed'.concat hnone fun q hq hnil hne => ?_
      rw [hother q hne]
      exact h q (prefix_dropLast hq hne) hnil
    · exact hclosed'
  unfold putLink
  cases hlookup : share.lookup p with
  | none => exact hcreate hlookup hclosed fun _ _ => rfl
  | some e =>
    dsimp only
    cases hremove : remove a share p with
    | none => exact hclosed
    | some share' =>
      obtain ⟨rfl, -, hfree⟩ := remove_eq_some hremove
      refine hcreate (lookup_filter_self p share) ?_ fun q hne => lookup_filter_ne hne share
      refine hclosed.filter (fun q => decide (q ≠ p)) fun p' q hp' _ hq hnil hne => ?_
      refine decide_eq_true fun heq => hfree ?_
      -- only an empty directory is removed
      subst heq
      obtain ⟨e', he'⟩ := Option.ne_none_iff_exists'.1 hp'
      obtain ⟨before, after, heq, -⟩ := List.lookup_eq_some_iff.1 he'
      exact ⟨hclosed p' e' he' q hq hnil hne, (p', e'), by rw [heq]; simp, hq, Ne.symm hne⟩

variable {name : Name} {source : Source} {answers : Path → Answers} {f : Listed}

theorem reached_prefix (a : Answers) (dir : Path) : a.reached dir <+: dir := by
  unfold Answers.reached
  split
  · exact List.prefix_rfl
  · exact List.take_prefix _ _

/-- **Cases** of one file: only its own link is new or gone, and directories
    above it are new. -/
theorem lookup_exportFile_cases (layout : Layout) (disk : Disk) (name : Name) (source : Source)
    (answers : Path → Answers) (share : Share) (f : Listed) (q : Path) :
    (exportFile layout disk name source answers share f).lookup q = share.lookup q ∨
      (isExported disk f = true ∧ q = f.path ∧
        ((exportFile layout disk name source answers share f).lookup q =
            some (.link (linkText layout name source f.path)) ∨
          (exportFile layout disk name source answers share f).lookup q = none)) ∨
      (share.lookup q = none ∧ q <+: f.path ∧ q ≠ f.path ∧
        (exportFile layout disk name source answers share f).lookup q = some .dir) := by
  unfold exportFile
  split
  · exact .inl rfl
  · next hexported =>
    dsimp only
    have hdirs := lookup_mkdirs_cases Entry.dir share []
      ((answers f.path).reached f.path.dropLast) q
    have hbelow := reached_prefix (answers f.path) f.path.dropLast
    generalize (answers f.path).reached f.path.dropLast = rest at hdirs hbelow ⊢
    have hkeep : ∀ {e : Option Entry}, e = (mkdirs .dir share [] rest).lookup q →
        e = share.lookup q ∨
          share.lookup q = none ∧ q <+: f.path ∧ q ≠ f.path ∧ e = some .dir := by
      rintro e rfl
      rcases hdirs with heq | ⟨hnone, hnil, hq, hdir⟩
      · exact .inl heq
      · have hfirst := hq.trans hbelow
        have hq' := hfirst.trans (List.dropLast_prefix _)
        refine .inr ⟨hnone, hq', ne_of_prefix_dropLast ?_ hfirst, hdir⟩
        rintro hempty
        rw [hempty] at hq'
        exact hnil (List.prefix_nil.1 hq')
    split
    · exact (hkeep rfl).imp_right .inr
    · rcases lookup_putLink (answers f.path) (mkdirs .dir share [] rest) f.path
        (linkText layout name source f.path) q with heq | ⟨heq, hlink⟩
      · exact (hkeep heq).imp_right .inr
      · exact .inr (.inl ⟨by simpa using hexported, heq, heq ▸ hlink⟩)

theorem closed_exportFile (hclosed : Closed .dir share) :
    Closed .dir (exportFile layout disk name source answers share f) := by
  unfold exportFile
  split
  · exact hclosed
  · dsimp only
    generalize (answers f.path).reached f.path.dropLast = rest
    have hdirs : Closed .dir (mkdirs .dir share [] rest) :=
      hclosed.mkdirs (fun q hq hnil => absurd (List.prefix_nil.1 hq) hnil) rest
    split
    · exact hdirs
    · next hreach => exact closed_putLink hdirs (by simpa using hreach) _ _

/-- Nothing is in the way of a link. -/
structure Clear (share : Share) (p : Path) : Prop where
  above : ∀ q, q <+: p → q ≠ [] → q ≠ p → share.lookup q = none ∨ share.lookup q = some .dir
  place : share.lookup p ≠ some .dir

/-- All steps for the file succeed. -/
def Answers.Fine (a : Answers) : Prop := a.made = none ∧ a.removed = true ∧ a.linked = true

/-- **One file**, if nothing is in the way: there is the link, and what was
    no directory above it is one. -/
theorem lookup_exportFile_of_clear (hexported : isExported disk f = true) (hne : f.path ≠ [])
    (hanswers : (answers f.path).Fine) (h : Clear share f.path) :
    (exportFile layout disk name source answers share f).lookup f.path =
      some (.link (linkText layout name source f.path)) := by
  obtain ⟨hmade, hremoved, hlinked⟩ := hanswers
  have hway : ∀ q, [] <+: q → q ≠ [] → q <+: [] ++ f.path.dropLast →
      share.lookup q = none ∨ share.lookup q = some .dir := fun q _ hnil hq =>
    h.above q (hq.trans (List.dropLast_prefix _)) hnil (ne_of_prefix_dropLast hne hq)
  have hreach : reachable (mkdirs .dir share [] f.path.dropLast) f.path = true := by
    rw [reachable_iff]
    intro q hq hnil
    exact lookup_mkdirs hway List.nil_prefix hnil hq
  have hplace : (mkdirs .dir share [] f.path.dropLast).lookup f.path ≠ some .dir := by
    rcases lookup_mkdirs_cases Entry.dir share [] f.path.dropLast f.path with heq | ⟨-, -, hq, -⟩
    · rw [heq]
      exact h.place
    · exact absurd rfl (ne_of_prefix_dropLast hne hq)
  unfold exportFile
  have hreached : (answers f.path).reached f.path.dropLast = f.path.dropLast := by
    rw [Answers.reached, hmade]
  rw [if_neg (by simp [hexported])]
  dsimp only
  rw [hreached, if_neg (by simp [hreach])]
  exact lookup_putLink_self hremoved hlinked hplace _

/-- The link of a file is in the way of no other file of its tree. -/
theorem Clear.exportFile (h : Clear share p) (hbelow : f.path <+: p → f.path = p)
    (habove : p <+: f.path → p = f.path) :
    Clear (exportFile layout disk name source answers share f) p where
  above := by
    intro q hq hnil hne
    rcases lookup_exportFile_cases layout disk name source answers share f q with
      heq | ⟨-, heq, -⟩ | ⟨-, -, -, hdir⟩
    · rw [heq]
      exact h.above q hq hnil hne
    · exact absurd (heq.trans (hbelow (heq ▸ hq))) hne
    · exact .inr hdir
  place := by
    rcases lookup_exportFile_cases layout disk name source answers share f p with
      heq | ⟨-, -, hlink | hnone⟩ | ⟨-, hp, hne, -⟩
    · rw [heq]
      exact h.place
    · simp [hlink]
    · simp [hnone]
    · exact absurd (habove hp) hne

/-! ### All files of a source -/

theorem closed_exportEntries (hclosed : Closed .dir share) :
    Closed .dir (exportEntries layout disk name source answers share) := by
  unfold exportEntries
  generalize sourceFiles layout disk source = files
  induction files generalizing share with
  | nil => exact hclosed
  | cons f files ih => exact ih (closed_exportFile hclosed)

/-- There is a file to export at the path. -/
def Offers (layout : Layout) (disk : Disk) (source : Source) (p : Path) : Prop :=
  ∃ f ∈ sourceFiles layout disk source, isExported disk f = true ∧ f.path = p

/-- **Links** after an export are old ones or lead to files of the source. -/
theorem link_exportEntries {text : List Char}
    (h : (exportEntries layout disk name source answers share).lookup p = some (.link text)) :
    share.lookup p = some (.link text) ∨
      Offers layout disk source p ∧ text = linkText layout name source p := by
  unfold exportEntries at h
  have hall : ∀ files ⊆ sourceFiles layout disk source, ∀ share : Share,
      (files.foldl (exportFile layout disk name source answers) share).lookup p =
        some (.link text) → share.lookup p = some (.link text) ∨
          Offers layout disk source p ∧ text = linkText layout name source p := by
    intro files
    induction files with
    | nil => exact fun _ _ hlink => .inl hlink
    | cons f files ih =>
      intro hfiles share hlink
      rw [List.cons_subset] at hfiles
      rcases ih hfiles.2 _ hlink with hold | hnew
      · rcases lookup_exportFile_cases layout disk name source answers share f p with
          heq | ⟨hexported, heq, hlink' | hnone⟩ | ⟨-, -, -, hdir⟩
        · exact .inl (heq ▸ hold)
        · rw [hlink', Option.some.injEq, Entry.link.injEq] at hold
          subst heq
          exact .inr ⟨⟨f, hfiles.1, hexported, rfl⟩, hold.symm⟩
        · rw [hnone] at hold
          cases hold
        · rw [hdir] at hold
          cases hold
      · exact .inr hnew
  exact hall _ (List.Subset.refl _) share h

/-- Files are not below files. -/
theorem leaf_of_offers (h : Offers layout disk source p) (h' : Offers layout disk source q)
    (hbelow : p <+: q) : p = q := by
  obtain ⟨f, hf, hexported, rfl⟩ := h
  obtain ⟨f', hf', -, rfl⟩ := h'
  obtain ⟨path, hpath, hf⟩ := List.mem_flatMap.1 hf
  obtain ⟨path', hpath', hf'⟩ := List.mem_flatMap.1 hf'
  obtain ⟨g, hg, rfl⟩ := List.mem_map.1 hf
  obtain ⟨g', hg', rfl⟩ := List.mem_map.1 hf'
  have hfile : g.isDir = false := by
    simp only [isExported, Bool.and_eq_true, Bool.not_eq_true'] at hexported
    exact hexported.1
  obtain ⟨rfl, hrest⟩ := List.cons_prefix_cons.1 hbelow
  rw [disk.leaves _ g hg g' hg' hfile hrest]

theorem names_of_offers (h : Offers layout disk source p) : ∀ name ∈ p, IsName name := by
  obtain ⟨f, hf, -, rfl⟩ := h
  obtain ⟨path, hpath, hf⟩ := List.mem_flatMap.1 hf
  obtain ⟨g, hg, rfl⟩ := List.mem_map.1 hf
  have hnames : ∀ path ∈ exportPaths, IsName path := by decide
  exact List.forall_mem_cons.2 ⟨hnames path hpath, (disk.names _ g hg).2⟩

theorem ne_nil_of_offers (h : Offers layout disk source p) : p ≠ [] := by
  obtain ⟨f, hf, -, rfl⟩ := h
  obtain ⟨path, -, hf⟩ := List.mem_flatMap.1 hf
  obtain ⟨g, -, rfl⟩ := List.mem_map.1 hf
  exact List.cons_ne_nil _ _

/-- **One file**, as far as links are concerned. -/
theorem link_exportFile_iff (hexported : isExported disk f = true) (hne : f.path ≠ [])
    (hfine : (answers f.path).Fine) (hclear : Clear share f.path) {text : List Char} :
    (exportFile layout disk name source answers share f).lookup p = some (.link text) ↔
      (p = f.path ∧ text = linkText layout name source p) ∨
        (p ≠ f.path ∧ share.lookup p = some (.link text)) := by
  by_cases heq : p = f.path
  · rw [heq, lookup_exportFile_of_clear hexported hne hfine hclear]
    simp [eq_comm]
  · rcases lookup_exportFile_cases layout disk name source answers share f p with
      hsame | ⟨-, hself, -⟩ | ⟨hnone, -, -, hdir⟩
    · rw [hsame]
      simp [heq]
    · exact absurd hself heq
    · rw [hdir, hnone]
      simp [heq]

/-- **All files**, if nothing is in the way: each of them has its link, the
    other links are as before. -/
theorem link_exportEntries_iff (hclear : ∀ p, Offers layout disk source p → Clear share p)
    (hfine : ∀ p, (answers p).Fine) {text : List Char} :
    (exportEntries layout disk name source answers share).lookup p = some (.link text) ↔
      (Offers layout disk source p ∧ text = linkText layout name source p) ∨
        (¬ Offers layout disk source p ∧ share.lookup p = some (.link text)) := by
  have hall : ∀ files ⊆ sourceFiles layout disk source, ∀ share : Share,
      (∀ p, Offers layout disk source p → Clear share p) →
      ((files.foldl (exportFile layout disk name source answers) share).lookup p =
          some (.link text) ↔
        ((∃ f ∈ files, isExported disk f = true ∧ f.path = p) ∧
          text = linkText layout name source p) ∨
        (¬ (∃ f ∈ files, isExported disk f = true ∧ f.path = p) ∧
          share.lookup p = some (.link text))) := by
    intro files
    induction files with
    | nil => simp
    | cons f files ih =>
      intro hfiles share hclear
      rw [List.cons_subset] at hfiles
      rw [List.foldl_cons]
      by_cases hexported : isExported disk f = true
      · have hoffers : Offers layout disk source f.path := ⟨f, hfiles.1, hexported, rfl⟩
        have hclear' : ∀ q, Offers layout disk source q →
            Clear (exportFile layout disk name source answers share f) q := fun q hq =>
          (hclear q hq).exportFile (leaf_of_offers hoffers hq) (leaf_of_offers hq hoffers)
        rw [ih hfiles.2 _ hclear', link_exportFile_iff hexported (ne_nil_of_offers hoffers)
          (hfine f.path) (hclear f.path hoffers)]
        simp only [List.exists_mem_cons_iff, hexported, true_and]
        generalize (∃ g ∈ files, isExported disk g = true ∧ g.path = p) = later
        by_cases heq : f.path = p
        · simp only [heq, true_or, ne_eq, not_true_eq_false, false_and, or_false, true_and]
          tauto
        · simp only [heq, Ne.symm heq, false_or, ne_eq, not_false_eq_true, true_and, false_and]
      · have hskip : exportFile layout disk name source answers share f = share := by
          unfold exportFile
          rw [if_pos (by simpa using hexported)]
        rw [hskip, ih hfiles.2 _ hclear]
        simp [hexported]
  exact hall _ (List.Subset.refl _) share hclear

/-! ## Section 5: An app with two modules -/

/-- There is one desktop file in each `applications`. -/
def menuDisk : Disk where
  iterate dir :=
    if dir.getLast? = some "applications".toList then [⟨["shop.desktop".toList], false, none⟩]
    else []
  fileExists _ := true
  isDir _ := false
  names := by
    intro dir f hf
    split at hf
    · rw [List.mem_singleton.1 hf]
      decide
    · cases hf
  leaves := by
    intro dir f hf f' hf' _ _
    split at hf
    · rw [if_pos (by assumption)] at hf'
      rw [List.mem_singleton.1 hf, List.mem_singleton.1 hf']
    · cases hf
  files := by
    intro dir f hf
    split at hf
    · rw [List.mem_singleton.1 hf]
    · cases hf

/-- The app, and the directory that its modules are merged in. -/
def shopRepo : Repo :=
  let commit := "70446a97d576f24f0b082c5ee4339093a80b04fc0c9581b7d1334ac02c7994c1"
  let id := "e3b0c44298fc1c149afbf4c8996fb92427ae41e4649b934ca495991b7852b855"
  { Repo.ofLayers (.ofCommits []) [⟨commit, none, .onMain "org.shop" "1.0.0.0" "binary", "stable"⟩]
      [] [] with
    merged := some [⟨commit, [commit, "d2"], id, ["binary", "develop"], "org.shop/1.0.0.0/x86_64"⟩]
    mergedDirs := [(id, [commit, "d2"])] }

def rootLayout : Layout := ⟨["linglong".toList], by decide⟩

def shopSource : Source :=
  .merged "e3b0c44298fc1c149afbf4c8996fb92427ae41e4649b934ca495991b7852b855"

def shopRef : Reference := .onMain "org.shop" 0 (by decide)

theorem exportSource_shop : exportSource shopRepo shopRef = .ok shopSource := by decide

/-- The same app, before its modules are merged. -/
def unmergedRepo : Repo := { shopRepo with merged := none, mergedDirs := [] }

def unmergedSource : Source :=
  .layer "70446a97d576f24f0b082c5ee4339093a80b04fc0c9581b7d1334ac02c7994c1"

theorem exportSource_unmerged : exportSource unmergedRepo shopRef = .ok unmergedSource := by decide

/-- Both directories have one file to export. -/
theorem offers_menu {source : Source} (hsource : source ∈ [shopSource, unmergedSource])
    {p : Path} (h : Offers rootLayout menuDisk source p) :
    p = ["applications".toList, "shop.desktop".toList] := by
  have hfiles : ∀ source ∈ [shopSource, unmergedSource],
      ∀ f ∈ sourceFiles rootLayout menuDisk source,
        f.path = ["applications".toList, "shop.desktop".toList] := by decide
  obtain ⟨f, hf, -, rfl⟩ := h
  exact hfiles source hsource f hf

end Linglong.Exports
