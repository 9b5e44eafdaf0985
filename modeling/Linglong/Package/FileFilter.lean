import Linglong.Framework.PathText
import Linglong.Package.UABPackager

/-! # Filtering the Files of a Layer

    `UABPackager::filteringFiles` (`uab_packager.cpp`) reads each pattern as a
    path, asks the file system what is there, and removes the texts of what
    it has found from the texts of all files. So a pattern takes effect only
    if it is spelled like the path of a file or a directory: `/a//b` and
    `/./a` are found, but no file has such a text, and the layer counts as
    minified all the same.

    1. The patterns.
    2. The tree of a layer.
    3. What a pattern names, and what it finds (`finds_iff`).
    4. What is filtered (`mem_filteringFiles`).
    5. When the files are filtered as the patterns say
       (`filtersRight_iff`).
-/

namespace Linglong

open Framework

/-! ## Section 1: The patterns -/

/-- The loop of `exclude` and `include`: what was added before a pattern that
    is not accepted stays. -/
def addPatterns (message : String) (patterns : List String) :
    List String → List String × Except String Unit
  | [] => (patterns, .ok ())
  | file :: rest =>
      if file.toList.head? = some '/' then addPatterns message (patterns.insert file) rest
      else (patterns, .error (message ++ file))

namespace UABPackager

/-- `UABPackager::exclude`. -/
def exclude (packager : UABPackager) (files : List String) : UABPackager × Except String Unit :=
  let (excludeFiles, result) :=
    addPatterns "invalid format, excluding file:" packager.excludeFiles files
  ({ packager with excludeFiles }, result)

/-- `UABPackager::include`. -/
def include' (packager : UABPackager) (files : List String) : UABPackager × Except String Unit :=
  let (includeFiles, result) :=
    addPatterns "invalid format, including file:" packager.includeFiles files
  ({ packager with includeFiles }, result)

/-- All patterns have been accepted. -/
def Accepted (packager : UABPackager) : Prop :=
  ∀ p ∈ packager.excludeFiles ++ packager.includeFiles, p.toList.head? = some '/'

instance (packager : UABPackager) : Decidable packager.Accepted :=
  inferInstanceAs (Decidable (∀ p ∈ packager.excludeFiles ++ packager.includeFiles, _ = _))

end UABPackager

/-- A pattern that is added begins with a slash. -/
theorem mem_addPatterns {message : String} {patterns files : List String} {p : String}
    (h : p ∈ (addPatterns message patterns files).1) :
    p ∈ patterns ∨ p.toList.head? = some '/' := by
  induction files generalizing patterns with
  | nil => exact .inl h
  | cons file rest ih =>
    unfold addPatterns at h
    by_cases hslash : file.toList.head? = some '/'
    · rw [if_pos hslash] at h
      rcases ih h with hmem | hhead
      · rw [List.mem_insert_iff] at hmem
        rcases hmem with rfl | hmem
        · exact .inr hslash
        · exact .inl hmem
      · exact .inr hhead
    · rw [if_neg hslash] at h
      exact .inl h

namespace UABPackager

theorem accepted_exclude {packager : UABPackager} (h : packager.Accepted) (files : List String) :
    (packager.exclude files).1.Accepted := by
  intro p hp
  rcases List.mem_append.1 hp with hexclude | hinclude
  · rcases mem_addPatterns hexclude with hmem | hhead
    · exact h p (List.mem_append_left _ hmem)
    · exact hhead
  · exact h p (List.mem_append_right _ hinclude)

theorem accepted_include {packager : UABPackager} (h : packager.Accepted) (files : List String) :
    (packager.include' files).1.Accepted := by
  intro p hp
  rcases List.mem_append.1 hp with hexclude | hinclude
  · exact h p (List.mem_append_left _ hexclude)
  · rcases mem_addPatterns hinclude with hmem | hhead
    · exact h p (List.mem_append_right _ hmem)
    · exact hhead

end UABPackager

/-! ## Section 2: The tree of a layer -/

/-- The text of a path below a directory, as the directory iterators make
    it: a slash is put in between if there is none. -/
def belowText (dir : List Char) (rest : List (List Char)) : List Char :=
  if dir.getLast? = some '/' then dir ++ (slashed rest).tail else dir ++ slashed rest

/-- The text of an entry: the names on the way to the layer, `files`, and the
    names of the entry. -/
def entryText (base e : List (List Char)) : List Char := slashed (base ++ "files".toList :: e)

/-- The tree of files that the answers of the file system come from. A path is
    the list of names from the directory `files` on. What is at other paths
    than those in the tree is open: links may lead anywhere. -/
structure LayerTree (layer : SourceLayer) where
  base : List (List Char)
  entries : List (List (List Char))
  directory : List (List Char) → Bool
  /-- A regular file, or a link to one. -/
  file : List (List Char) → Bool
  base_names : ∀ name ∈ base, IsName name
  absolutePath : layer.absolutePath.toList = slashed base
  ne_nil : ∀ e ∈ entries, e ≠ []
  names : ∀ e ∈ entries, ∀ name ∈ e, IsName name
  /-- Above an entry there are directories. -/
  parents : ∀ d rest, d ≠ [] → rest ≠ [] → d ++ rest ∈ entries → d ∈ entries ∧ directory d = true
  allFiles : ∀ files, layer.allFiles = .ok files →
    files = entries.map fun e => .ofList (entryText base e)
  status_file : ∀ e ∈ entries,
    layer.status (.ofList (entryText base e)) = .regularFile ↔ file e = true
  /-- A directory is listed with what is below it, also with a slash at the
      end of its text. -/
  status_directory : ∀ d, d = [] ∨ d ∈ entries ∧ directory d = true → ∀ slash ∈ [[], ['/']],
    ∃ files, layer.status (.ofList (entryText base d ++ slash)) = .directory files ∧
      ∀ e ∈ entries, .ofList (entryText base e) ∈ files ↔ ∃ rest, rest ≠ [] ∧ e = d ++ rest
  /-- What is listed is below the directory, and the names are put behind
      its text. -/
  listing : ∀ t files, layer.status t = .directory files → ∀ f ∈ files,
    ∃ rest, rest ≠ [] ∧ (∀ name ∈ rest, IsName name) ∧ f.toList = belowText t.toList rest

namespace LayerTree

variable {layer : SourceLayer} (tree : LayerTree layer) {e : List (List Char)} {p : String}

def text (e : List (List Char)) : String := .ofList (entryText tree.base e)

/-! ## Section 3: What a pattern names, and what it finds -/

/-- The pattern, read as a path from `files` on, is a file (or anything else
    that is no directory), or a directory above the entry. -/
def Named (p : String) (e : List (List Char)) : Prop :=
  ∃ target, resolve p.toList = some target ∧
    (target = e ∧ tree.directory e = false ∧ meansDirectory p.toList = false ∨
      ∃ rest, rest ≠ [] ∧ e = target ++ rest)

/-- What `expandPaths` makes of one pattern. -/
def Finds (layer : SourceLayer) (p f : String) : Prop :=
  match layer.status (layer.entry p) with
  | .regularFile => f = layer.entry p
  | .directory files => f ∈ files
  | _ => False

/-- With two slashes at its beginning a pattern is an absolute path. -/
def isAbsolute (p : String) : Bool := p.toList.tail.head? == some '/'

/-- The pattern is spelled like the path of the entry, which is a file, or
    like that of a directory above the entry, with at most one slash at the
    end. An absolute path finds what is there. -/
def Spelled (p : String) (e : List (List Char)) : Prop :=
  if isAbsolute p then Finds layer p (tree.text e)
  else p.toList = slashed e ∧ tree.file e = true ∨
    ∃ d rest, rest ≠ [] ∧ e = d ++ rest ∧ (p.toList = slashed d ∨ p.toList = slashed d ++ ['/'])

theorem noSlash_of_entry (he : e ∈ tree.entries) :
    ∀ name ∈ tree.base ++ "files".toList :: e, '/' ∉ name := by
  intro name hname
  rcases List.mem_append.1 hname with hbase | hrest
  · exact (tree.base_names name hbase).noSlash
  · rcases List.mem_cons.1 hrest with rfl | hentry
    · decide
    · exact (tree.names e he name hentry).noSlash

theorem text_inj {e' : List (List Char)} (he : e ∈ tree.entries) (he' : e' ∈ tree.entries)
    (h : tree.text e = tree.text e') : e = e' := by
  have hpath := slashed_inj (tree.noSlash_of_entry he) (tree.noSlash_of_entry he')
    (String.ofList_inj.1 h)
  simpa using hpath

theorem entryText_eq (base e : List (List Char)) :
    entryText base e = slashed (base ++ ["files".toList]) ++ slashed e := by
  unfold entryText
  rw [← slashed_append, List.append_assoc]
  rfl

/-- The path that is asked for, if the pattern is not absolute. -/
theorem toList_entry (hp : p.toList.head? = some '/') (habsolute : isAbsolute p = false) :
    (layer.entry p).toList = slashed (tree.base ++ ["files".toList]) ++ p.toList := by
  obtain ⟨cs, hcs⟩ : ∃ cs, p.toList = '/' :: cs := List.head?_eq_some_iff.1 hp
  unfold isAbsolute at habsolute
  unfold SourceLayer.entry SourceLayer.filesDirPath
  rw [hcs, List.tail_cons] at habsolute
  simp only [hcs, List.tail_cons]
  rw [if_neg (by simpa using habsolute)]
  simp only [String.toList_append, tree.absolutePath, String.toList_ofList, slashed_append]
  simp

/-- What is left of a path below another one. -/
theorem rest_of_split {root first rest : List (List Char)} {text : List Char}
    (hsplit : root ++ e = first ++ rest) (htext : slashed root ++ text = slashed first) :
    ∃ d, e = d ++ rest ∧ text = slashed d := by
  rcases List.append_eq_append_iff.1 hsplit with ⟨d, hfirst, he⟩ | ⟨d, hroot, hrest⟩
  · -- the first part goes beyond the root
    rw [hfirst, slashed_append] at htext
    exact ⟨d, he, List.append_cancel_left htext⟩
  · -- nothing is left
    rw [hroot, slashed_append, List.append_assoc] at htext
    obtain ⟨hd, hnil⟩ := List.append_eq_nil_iff.1 (List.append_right_eq_self.1 htext)
    rw [slashed_eq_nil_iff.1 hd] at hrest
    exact ⟨[], hrest.symm, hnil⟩

/-- A directory in whose listing the entry is has the text of a directory
    above it. -/
theorem spelled_of_below (he : e ∈ tree.entries) (hp : p.toList.head? = some '/')
    (habsolute : isAbsolute p = false) {rest : List (List Char)} (hne : rest ≠ [])
    (hnames : ∀ name ∈ rest, IsName name)
    (h : entryText tree.base e = belowText (layer.entry p).toList rest) :
    ∃ d, e = d ++ rest ∧ (p.toList = slashed d ∨ p.toList = slashed d ++ ['/']) := by
  have hslash : ∀ name ∈ rest, '/' ∉ name := fun name hname => (hnames name hname).noSlash
  have hroot : (tree.base ++ ["files".toList]) ++ e = tree.base ++ "files".toList :: e := by simp
  rw [tree.toList_entry hp habsolute] at h
  unfold belowText at h
  by_cases hlast : (slashed (tree.base ++ ["files".toList]) ++ p.toList).getLast? = some '/'
  · rw [if_pos hlast] at h
    have hpne : p.toList ≠ [] := by
      intro hnil
      rw [hnil] at hp
      cases hp
    obtain ⟨front, hfront⟩ : ∃ front, p.toList = front ++ ['/'] := by
      rw [List.getLast?_append_of_ne_nil _ hpne] at hlast
      exact ⟨_, (List.dropLast_append_getLast? _ hlast).symm⟩
    obtain ⟨name, names, rfl⟩ := List.exists_cons_of_ne_nil hne
    -- the slash at the end is the one before the first name
    have hmoved : entryText tree.base e =
        (slashed (tree.base ++ ["files".toList]) ++ front) ++ slashed (name :: names) := by
      rw [h, hfront]
      simp
    obtain ⟨first, hsplit, htext⟩ := slashed_split (tree.noSlash_of_entry he) hslash hmoved
    obtain ⟨d, hd, hdtext⟩ := rest_of_split (hroot.trans hsplit) htext
    exact ⟨d, hd, .inr (by rw [hfront, hdtext])⟩
  · -- the iterator has put in the slash
    rw [if_neg hlast] at h
    obtain ⟨first, hsplit, htext⟩ := slashed_split (tree.noSlash_of_entry he) hslash h
    obtain ⟨d, hd, hdtext⟩ := rest_of_split (hroot.trans hsplit) htext
    exact ⟨d, hd, .inl hdtext⟩

/-- **Patterns**: a pattern finds an entry iff it is spelled like it. -/
theorem finds_iff (he : e ∈ tree.entries) (hp : p.toList.head? = some '/') :
    Finds layer p (tree.text e) ↔ tree.Spelled p e := by
  unfold Spelled
  cases habsolute : isAbsolute p with
  | true => rw [if_pos rfl]
  | false =>
    have hentry := tree.toList_entry hp habsolute
    rw [if_neg (by simp)]
    constructor
    · -- what is there decides which texts are found
      intro hfinds
      unfold Finds at hfinds
      cases hstatus : layer.status (layer.entry p) with
      | regularFile =>
        rw [hstatus] at hfinds
        have htext : tree.text e = layer.entry p := hfinds
        left
        constructor
        · have htoList := congrArg String.toList htext
          rw [hentry, text, String.toList_ofList, entryText_eq] at htoList
          exact (List.append_cancel_left htoList).symm
        · rw [← tree.status_file e he]
          exact (congrArg layer.status htext).trans hstatus
      | directory files =>
        rw [hstatus] at hfinds
        obtain ⟨rest, hne, hnames, hbelow⟩ := tree.listing _ files hstatus _ hfinds
        rw [text, String.toList_ofList] at hbelow
        obtain ⟨d, hd, hspelled⟩ := tree.spelled_of_below he hp habsolute hne hnames hbelow
        exact .inr ⟨d, rest, hne, hd, hspelled⟩
      | missing =>
        rw [hstatus] at hfinds
        cases hfinds
      | other =>
        rw [hstatus] at hfinds
        cases hfinds
      | error message =>
        rw [hstatus] at hfinds
        cases hfinds
    · intro hspelled
      rcases hspelled with ⟨hp', hfile⟩ | ⟨d, rest, hne, hd, hp'⟩
      · have htext : layer.entry p = tree.text e := by
          rw [← String.toList_inj, hentry, hp', ← entryText_eq]
          exact String.toList_ofList.symm
        have hstatus : layer.status (tree.text e) = .regularFile := (tree.status_file e he).2 hfile
        unfold Finds
        rw [htext, hstatus]
      · have hdirectory : d = [] ∨ d ∈ tree.entries ∧ tree.directory d = true := by
          by_cases hnil : d = []
          · exact .inl hnil
          · exact .inr (tree.parents d rest hnil hne (hd ▸ he))
        -- with a slash at the end the same files are listed
        obtain ⟨slash, hslash, hp'⟩ : ∃ slash ∈ [[], ['/']], p.toList = slashed d ++ slash := by
          rcases hp' with hp' | hp'
          · exact ⟨[], by simp, by rw [hp', List.append_nil]⟩
          · exact ⟨['/'], by simp, hp'⟩
        obtain ⟨files, hstatus, hfiles⟩ := tree.status_directory d hdirectory slash hslash
        have htext : layer.entry p = .ofList (entryText tree.base d ++ slash) := by
          rw [← String.toList_inj, hentry, hp', ← List.append_assoc, ← entryText_eq]
          exact String.toList_ofList.symm
        unfold Finds
        rw [htext, hstatus]
        exact (hfiles e he).2 ⟨rest, hne, hd⟩

/-- A regular file is no directory. -/
theorem directory_of_file (he : e ∈ tree.entries) (hfile : tree.file e = true) :
    tree.directory e = false := by
  rw [Bool.eq_false_iff]
  intro hdirectory
  obtain ⟨files, hstatus, -⟩ := tree.status_directory e (.inr ⟨he, hdirectory⟩) [] (by simp)
  rw [List.append_nil, (tree.status_file e he).2 hfile] at hstatus
  cases hstatus

/-- What is spelled like an entry also names it. -/
theorem named_of_spelled (he : e ∈ tree.entries) (habsolute : isAbsolute p = false)
    (h : tree.Spelled p e) : tree.Named p e := by
  unfold Spelled at h
  rw [if_neg (by rw [habsolute]; simp)] at h
  rcases h with ⟨hp, hfile⟩ | ⟨d, rest, hne, hd, hp⟩
  · refine ⟨e, ?_, .inl ⟨rfl, tree.directory_of_file he hfile, ?_⟩⟩
    · rw [hp]
      exact (resolve_slashed (tree.names e he)).1
    · rw [hp]
      exact meansDirectory_slashed (tree.names e he) (tree.ne_nil e he)
  · have hnames : ∀ name ∈ d, IsName name := by
      intro name hname
      refine tree.names e he name ?_
      rw [hd]
      exact List.mem_append_left _ hname
    refine ⟨d, ?_, .inr ⟨rest, hne, hd⟩⟩
    rcases hp with hp | hp
    · rw [hp]
      exact (resolve_slashed hnames).1
    · rw [hp]
      exact (resolve_slashed hnames).2

/-- Some pattern names the entry. -/
def NamedBy (patterns : List String) (e : List (List Char)) : Prop :=
  ∃ p ∈ patterns, tree.Named p e

/-- Some pattern is spelled like the entry. -/
def SpelledBy (patterns : List String) (e : List (List Char)) : Prop :=
  ∃ p ∈ patterns, tree.Spelled p e

/-! ## Section 4: What is filtered -/

theorem mem_expandPaths {patterns found : List String}
    (h : layer.expandPaths patterns = .ok found) {f : String} :
    f ∈ found ↔ ∃ p ∈ patterns, Finds layer p f := by
  induction patterns generalizing found with
  | nil =>
    cases h
    simp
  | cons p rest ih =>
    -- what is found here, and by the other patterns
    have hparts : ∃ here more, layer.expandPaths rest = .ok more ∧ found = here ++ more ∧
        (f ∈ here ↔ Finds layer p f) := by
      unfold SourceLayer.expandPaths at h
      unfold Finds
      cases hstatus : layer.status (layer.entry p) with
      | error message =>
        rw [hstatus] at h
        cases h
      | missing =>
        simp only [hstatus, bind_eq_ok_iff] at h
        obtain ⟨here, hhere, more, hmore, hfound⟩ := h
        cases hhere
        cases hfound
        exact ⟨[], more, hmore, rfl, by simp⟩
      | other =>
        simp only [hstatus, bind_eq_ok_iff] at h
        obtain ⟨here, hhere, more, hmore, hfound⟩ := h
        cases hhere
        cases hfound
        exact ⟨[], more, hmore, rfl, by simp⟩
      | regularFile =>
        simp only [hstatus, bind_eq_ok_iff] at h
        obtain ⟨here, hhere, more, hmore, hfound⟩ := h
        cases hhere
        cases hfound
        exact ⟨_, more, hmore, rfl, by simp⟩
      | directory files =>
        simp only [hstatus, bind_eq_ok_iff] at h
        obtain ⟨here, hhere, more, hmore, hfound⟩ := h
        cases hhere
        cases hfound
        exact ⟨files, more, hmore, rfl, Iff.rfl⟩
    obtain ⟨here, more, hmore, rfl, hhere⟩ := hparts
    rw [List.mem_append, hhere, ih hmore]
    simp

variable {packager : UABPackager} {minified : Bool} {files : List String}

/-- Some pattern finds the text. -/
def FoundBy (layer : SourceLayer) (patterns : List String) (f : String) : Prop :=
  ∃ p ∈ patterns, Finds layer p f

/-- **Filter**: the files that stay, and when the layer counts as minified. -/
theorem filteringFiles_spec (h : packager.filteringFiles layer = .ok (minified, files)) :
    (∀ f, f ∈ files ↔ (∃ e ∈ tree.entries, f = tree.text e) ∧
        ¬ (FoundBy layer packager.excludeFiles f ∧ ¬ FoundBy layer packager.includeFiles f)) ∧
      (minified = true ↔
        ∃ f, FoundBy layer packager.excludeFiles f ∧ ¬ FoundBy layer packager.includeFiles f) := by
  unfold UABPackager.filteringFiles at h
  split at h
  · -- without a directory `files` there is an error
    cases h
  simp only [bind_eq_ok_iff] at h
  obtain ⟨excludes, hexcludes, includes, hincludes, all, hall, hresult⟩ := h
  cases hresult
  -- a pattern of the includes takes a text from the excludes
  have hdropped : ∀ f, f ∈ (excludes.filter fun file => !includes.contains file) ↔
      FoundBy layer packager.excludeFiles f ∧ ¬ FoundBy layer packager.includeFiles f := by
    intro f
    unfold FoundBy
    rw [List.mem_filter, ← mem_expandPaths hexcludes, ← mem_expandPaths hincludes]
    simp
  constructor
  · intro f
    rw [List.mem_filter, tree.allFiles all hall, List.mem_map, ← hdropped]
    simp only [Bool.not_eq_true', List.contains_eq_mem, decide_eq_false_iff_not]
    refine and_congr_left fun _ => ?_
    constructor
    · intro ⟨e, he, htext⟩
      exact ⟨e, he, htext.symm⟩
    · intro ⟨e, he, htext⟩
      exact ⟨e, he, htext.symm⟩
  · rw [Bool.not_eq_true', List.isEmpty_eq_false_iff_exists_mem]
    exact exists_congr hdropped

/-! ## Section 5: When it is as the patterns say -/

/-- What stays are the entries that are not excluded or that are included, and
    the layer is minified iff an entry has been dropped. -/
structure FiltersRight (packager : UABPackager) (minified : Bool) (files : List String) : Prop where
  kept : ∀ f, f ∈ files ↔ ∃ e ∈ tree.entries, f = tree.text e ∧
    (¬ tree.NamedBy packager.excludeFiles e ∨ tree.NamedBy packager.includeFiles e)
  counted : minified = true ↔ ∃ e ∈ tree.entries, tree.text e ∉ files

/-- The patterns that are spelled like an entry drop it iff those that name it
    do. -/
def SpelledRight (packager : UABPackager) : Prop :=
  ∀ e ∈ tree.entries,
    (tree.SpelledBy packager.excludeFiles e ∧ ¬ tree.SpelledBy packager.includeFiles e ↔
      tree.NamedBy packager.excludeFiles e ∧ ¬ tree.NamedBy packager.includeFiles e)

/-- If exclude patterns find something that is not the text of an entry and
    that no include pattern finds, then some entry is dropped as well. -/
def NothingElseFound (packager : UABPackager) : Prop :=
  (∃ f, (∀ e ∈ tree.entries, f ≠ tree.text e) ∧ FoundBy layer packager.excludeFiles f ∧
      ¬ FoundBy layer packager.includeFiles f) →
    ∃ e ∈ tree.entries, tree.SpelledBy packager.excludeFiles e ∧
      ¬ tree.SpelledBy packager.includeFiles e

theorem foundBy_iff (he : e ∈ tree.entries) {patterns : List String}
    (hpatterns : ∀ p ∈ patterns, p.toList.head? = some '/') :
    FoundBy layer patterns (tree.text e) ↔ tree.SpelledBy patterns e := by
  unfold FoundBy SpelledBy
  constructor
  · intro ⟨p, hp, hfinds⟩
    exact ⟨p, hp, (tree.finds_iff he (hpatterns p hp)).1 hfinds⟩
  · intro ⟨p, hp, hspelled⟩
    exact ⟨p, hp, (tree.finds_iff he (hpatterns p hp)).2 hspelled⟩

/-- The text of an entry is found by patterns that drop it iff those that are
    spelled like it do. -/
theorem found_iff (haccepted : packager.Accepted) (he : e ∈ tree.entries) :
    (FoundBy layer packager.excludeFiles (tree.text e) ∧
        ¬ FoundBy layer packager.includeFiles (tree.text e)) ↔
      tree.SpelledBy packager.excludeFiles e ∧ ¬ tree.SpelledBy packager.includeFiles e := by
  have hexclude : FoundBy layer packager.excludeFiles (tree.text e) ↔
      tree.SpelledBy packager.excludeFiles e :=
    tree.foundBy_iff he fun p hp => haccepted p (List.mem_append_left _ hp)
  have hinclude : FoundBy layer packager.includeFiles (tree.text e) ↔
      tree.SpelledBy packager.includeFiles e :=
    tree.foundBy_iff he fun p hp => haccepted p (List.mem_append_right _ hp)
  rw [hexclude, hinclude]

/-- An entry is dropped iff the patterns that are spelled like it drop it. -/
theorem dropped_iff (haccepted : packager.Accepted)
    (h : packager.filteringFiles layer = .ok (minified, files)) (he : e ∈ tree.entries) :
    tree.text e ∉ files ↔
      tree.SpelledBy packager.excludeFiles e ∧ ¬ tree.SpelledBy packager.includeFiles e := by
  have hself : ∃ e' ∈ tree.entries, tree.text e = tree.text e' := ⟨e, he, rfl⟩
  rw [(tree.filteringFiles_spec h).1, tree.found_iff haccepted he]
  simp only [hself, true_and, not_not]

/-- The files that stay are right iff the patterns are spelled right. -/
theorem kept_iff (haccepted : packager.Accepted)
    (h : packager.filteringFiles layer = .ok (minified, files)) :
    (∀ f, f ∈ files ↔ ∃ e ∈ tree.entries, f = tree.text e ∧
      (¬ tree.NamedBy packager.excludeFiles e ∨ tree.NamedBy packager.includeFiles e)) ↔
      tree.SpelledRight packager := by
  have hnamed : ∀ e ∈ tree.entries, ((∃ e' ∈ tree.entries, tree.text e = tree.text e' ∧
      (¬ tree.NamedBy packager.excludeFiles e' ∨ tree.NamedBy packager.includeFiles e')) ↔
      ¬ (tree.NamedBy packager.excludeFiles e ∧ ¬ tree.NamedBy packager.includeFiles e)) := by
    intro e he
    rw [not_and_or, not_not]
    constructor
    · intro ⟨e', he', htext, hkept⟩
      rwa [tree.text_inj he he' htext]
    · intro hkept
      exact ⟨e, he, rfl, hkept⟩
  constructor
  · intro hkept e he
    rw [← tree.dropped_iff haccepted h he, hkept, hnamed e he, not_not]
  · intro hspelled f
    constructor
    · intro hf
      obtain ⟨⟨e, he, rfl⟩, -⟩ := ((tree.filteringFiles_spec h).1 f).1 hf
      rw [hnamed e he, ← hspelled e he, ← tree.dropped_iff haccepted h he, not_not]
      exact hf
    · intro hf
      have hentry := hf
      obtain ⟨e, he, rfl, -⟩ := hentry
      rw [hnamed e he, ← hspelled e he, ← tree.dropped_iff haccepted h he, not_not] at hf
      exact hf

/-- The flag is right iff nothing else is found. -/
theorem counted_iff (haccepted : packager.Accepted)
    (h : packager.filteringFiles layer = .ok (minified, files)) :
    (minified = true ↔ ∃ e ∈ tree.entries, tree.text e ∉ files) ↔
      tree.NothingElseFound packager := by
  have hsome : (∃ e ∈ tree.entries, tree.text e ∉ files) ↔ ∃ e ∈ tree.entries,
      tree.SpelledBy packager.excludeFiles e ∧ ¬ tree.SpelledBy packager.includeFiles e := by
    constructor
    · intro ⟨e, he, hnot⟩
      exact ⟨e, he, (tree.dropped_iff haccepted h he).1 hnot⟩
    · intro ⟨e, he, hspelled⟩
      exact ⟨e, he, (tree.dropped_iff haccepted h he).2 hspelled⟩
  rw [(tree.filteringFiles_spec h).2, hsome]
  constructor
  · intro hiff ⟨f, _, hfound⟩
    exact hiff.1 ⟨f, hfound⟩
  · intro hnothing
    constructor
    · intro ⟨f, hfound⟩
      by_cases hentry : ∃ e ∈ tree.entries, f = tree.text e
      · obtain ⟨e, he, rfl⟩ := hentry
        exact ⟨e, he, (tree.found_iff haccepted he).1 hfound⟩
      · exact hnothing ⟨f, fun e he heq => hentry ⟨e, he, heq⟩, hfound⟩
    · intro ⟨e, he, hspelled⟩
      exact ⟨tree.text e, (tree.found_iff haccepted he).2 hspelled⟩

/-- **The filter is right** iff the patterns are spelled right and nothing
    else is found. -/
theorem filtersRight_iff (haccepted : packager.Accepted)
    (h : packager.filteringFiles layer = .ok (minified, files)) :
    tree.FiltersRight packager minified files ↔
      tree.SpelledRight packager ∧ tree.NothingElseFound packager := by
  rw [← tree.kept_iff haccepted h, ← tree.counted_iff haccepted h]
  constructor
  · intro ⟨hkept, hcount⟩
    exact ⟨hkept, hcount⟩
  · intro ⟨hkept, hcount⟩
    exact ⟨hkept, hcount⟩

/-- A pattern that is spelled like a path of names names what it finds. -/
theorem spelled_iff_named (he : e ∈ tree.entries) {d : List (List Char)} (hp : p.toList = slashed d)
    (hd : ∀ name ∈ d, IsName name) (hfile : e = d → tree.directory e = false → tree.file e = true) :
    tree.Spelled p e ↔ tree.Named p e := by
  have habsolute : isAbsolute p = false := by
    unfold isAbsolute
    rw [hp]
    cases d with
    | nil => rfl
    | cons name d =>
      obtain ⟨c, name', rfl⟩ := List.exists_cons_of_ne_nil (hd name List.mem_cons_self).ne_nil
      have hc : c ≠ '/' := fun heq => (hd _ List.mem_cons_self).noSlash (by simp [heq])
      simpa using hc
  refine ⟨tree.named_of_spelled he habsolute, fun ⟨target, htarget, hnamed⟩ => ?_⟩
  rw [hp, (resolve_slashed hd).1] at htarget
  cases htarget
  unfold Spelled
  rw [if_neg (by rw [habsolute]; simp)]
  rcases hnamed with ⟨rfl, hdirectory, -⟩ | ⟨rest, hrest, rfl⟩
  · exact .inl ⟨hp, hfile rfl hdirectory⟩
  · exact .inr ⟨d, rest, hrest, rfl, .inl hp⟩

/-- A layer with the file `a`, which is also found as `./a`, and a directory
    `d` with two files. -/
def dataLayer : SourceLayer where
  absolutePath := "/l"
  info := .error "no info.json"
  hasFilesDir := true
  status := fun t =>
    if t ∈ ["/l/files/a", "/l/files/./a", "/l/files/d/b", "/l/files/d/c"] then .regularFile
    else if t ∈ ["/l/files", "/l/files/"] then
      .directory ["/l/files/a", "/l/files/d", "/l/files/d/b", "/l/files/d/c"]
    else if t ∈ ["/l/files/d", "/l/files/d/"] then .directory ["/l/files/d/b", "/l/files/d/c"]
    else .missing
  allFiles := .ok ["/l/files/a", "/l/files/d", "/l/files/d/b", "/l/files/d/c"]
  newer := false

theorem status_dataLayer {t : String} {files : List String}
    (h : dataLayer.status t = .directory files) :
    (t ∈ ["/l/files", "/l/files/"] ∧
        files = ["/l/files/a", "/l/files/d", "/l/files/d/b", "/l/files/d/c"]) ∨
      t ∈ ["/l/files/d", "/l/files/d/"] ∧ files = ["/l/files/d/b", "/l/files/d/c"] := by
  unfold dataLayer at h
  simp only at h
  split at h
  · cases h
  split at h
  · cases h
    exact .inl ⟨‹_›, rfl⟩
  split at h
  · cases h
    exact .inr ⟨‹_›, rfl⟩
  · cases h

/-- The directory and the files below it. -/
def dataEntries : List (List (List Char)) := [[['a']], [['d']], [['d'], ['b']], [['d'], ['c']]]

theorem below_iff {d e : List (List Char)} :
    (∃ rest, rest ≠ [] ∧ e = d ++ rest) ↔ d <+: e ∧ d ≠ e := by
  constructor
  · rintro ⟨rest, hrest, rfl⟩
    exact ⟨List.prefix_append _ _, by simpa using hrest⟩
  · rintro ⟨⟨rest, rfl⟩, hne⟩
    exact ⟨rest, by simpa using hne, rfl⟩

def dataTree : LayerTree dataLayer where
  base := [['l']]
  entries := dataEntries
  directory := fun e => e == [['d']]
  file := fun e => e != [['d']]
  base_names := by decide
  absolutePath := by decide
  ne_nil := by decide
  names := by decide
  parents := by
    have hall : ∀ e ∈ dataEntries, ∀ n < e.length, 0 < n →
        e.take n ∈ dataEntries ∧ (e.take n == [['d']]) = true := by decide
    intro d rest hd hrest h
    have hd' := List.length_pos_iff.2 hd
    have hrest' := List.length_pos_iff.2 hrest
    have hparent := hall _ h d.length (by rw [List.length_append]; omega) hd'
    rwa [List.take_left] at hparent
  allFiles := by
    intro files h
    cases h
    decide
  status_file := by decide
  status_directory := by
    intro d hd slash hslash
    simp only [below_iff]
    rcases hd with rfl | ⟨-, hd⟩
    · refine ⟨["/l/files/a", "/l/files/d", "/l/files/d/b", "/l/files/d/c"], ?_, by decide⟩
      revert slash
      decide
    · rw [beq_iff_eq.1 hd]
      refine ⟨["/l/files/d/b", "/l/files/d/c"], ?_, by decide⟩
      revert slash
      decide
  listing := by
    have hbelow : ∀ t ∈ ["/l/files", "/l/files/"],
        ∀ f ∈ ["/l/files/a", "/l/files/d", "/l/files/d/b", "/l/files/d/c"],
        parts '/' (f.toList.drop 8) ≠ [] ∧ (∀ name ∈ parts '/' (f.toList.drop 8), IsName name) ∧
          f.toList = belowText t.toList (parts '/' (f.toList.drop 8)) := by decide
    have hbelow' : ∀ t ∈ ["/l/files/d", "/l/files/d/"], ∀ f ∈ ["/l/files/d/b", "/l/files/d/c"],
        parts '/' (f.toList.drop 10) ≠ [] ∧ (∀ name ∈ parts '/' (f.toList.drop 10), IsName name) ∧
          f.toList = belowText t.toList (parts '/' (f.toList.drop 10)) := by decide
    intro t files h f hf
    rcases status_dataLayer h with ⟨ht, rfl⟩ | ⟨ht, rfl⟩
    · exact ⟨_, hbelow t ht f hf⟩
    · exact ⟨_, hbelow' t ht f hf⟩

/-- The pattern `/d` drops what is in the directory, but for the file that
    `/d/c` includes. -/
theorem filtersRight_dataTree : dataTree.FiltersRight ⟨"", [], ["/d"], ["/d/c"]⟩ true
    ["/l/files/a", "/l/files/d", "/l/files/d/c"] := by
  have hspelled : ∀ e ∈ dataEntries,
      (dataTree.SpelledBy ["/d"] e ↔ dataTree.NamedBy ["/d"] e) ∧
        (dataTree.SpelledBy ["/d/c"] e ↔ dataTree.NamedBy ["/d/c"] e) := by
    intro e he
    unfold SpelledBy NamedBy
    simp only [List.mem_singleton, exists_eq_left]
    constructor
    · exact dataTree.spelled_iff_named he (d := [['d']]) rfl (by decide) (by rintro rfl; decide)
    · exact dataTree.spelled_iff_named he (d := [['d'], ['c']]) rfl (by decide)
        (by rintro rfl; decide)
  refine (dataTree.filtersRight_iff (by decide) (by decide)).2 ⟨fun e he => ?_, fun _ => ?_⟩
  · rw [(hspelled e he).1, (hspelled e he).2]
  · refine ⟨[['d'], ['b']], by decide, ?_, ?_⟩
    · exact ⟨"/d", List.mem_cons_self, .inr ⟨[['d']], [['b']], by decide, rfl, .inl rfl⟩⟩
    · rw [(hspelled _ (by decide)).2]
      rintro ⟨p, hp, target, htarget, hnamed⟩
      have hto : resolve "/d/c".toList = some [['d'], ['c']] := by decide
      rw [List.mem_singleton.1 hp, hto] at htarget
      cases htarget
      rcases hnamed with ⟨heq, -⟩ | ⟨rest, -, heq⟩
      · cases heq
      · cases heq

/-- The pattern `/./a` finds the file `a`, which stays, and the layer counts
    as minified. -/
theorem not_filtersRight :
    ¬ ∀ (layer : SourceLayer) (tree : LayerTree layer) (packager : UABPackager) (minified : Bool)
      (files : List String), packager.Accepted →
      packager.filteringFiles layer = .ok (minified, files) →
      tree.FiltersRight packager minified files := by
  intro h
  have hright := h dataLayer dataTree ⟨"", [], ["/./a"], []⟩ true
    ["/l/files/a", "/l/files/d", "/l/files/d/b", "/l/files/d/c"] (by decide) (by decide)
  have hall : ∀ e ∈ dataEntries, dataTree.text e ∈
      ["/l/files/a", "/l/files/d", "/l/files/d/b", "/l/files/d/c"] := by decide
  obtain ⟨e, he, hdropped⟩ := hright.counted.1 rfl
  exact hdropped (hall e he)

end LayerTree

end Linglong
