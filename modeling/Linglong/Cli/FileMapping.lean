import Linglong.Framework.PathText

/-! # Files and URLs as Arguments

    `ll-cli run --file` and `--url` name files of the host. The command has
    `%%f` or `%%u` where they belong; the application finds them at other
    places in its container, under `/run/host/rootfs` when they are links.

    A path and the URL of the same file are mapped by different operations.
    They lead to the same components. The text after `file://` is made
    relative to the root, though, and begins with the first name.

    1. `std::filesystem::path`, as far as it goes by the text.
    2. `mappingFile`, `mappingUrl` and `filePathMapping`.
    3. Components of a path.
    4. What is mapped to what (`filePathMapping_spec`).
-/

namespace Linglong

open Framework

/-! ## Section 1: Paths -/

namespace FilesystemPath

def isAbsolute (p : List Char) : Bool := p.head? == some '/'

/-- What `begin()` to `end()` goes through: the root directory, the names, and
    an empty name after a slash at the end. -/
def elements (p : List Char) : List (List Char) :=
  (if isAbsolute p then [['/']] else []) ++ parts '/' p ++
    (if parts '/' p ≠ [] ∧ p.getLast? = some '/' then [[]] else [])

/-- `operator/=`. -/
def append (p q : List Char) : List Char :=
  if isAbsolute q ∨ p = [] then q
  else if p.getLast? = some '/' then p ++ q
  else p ++ '/' :: q

/-- `lexically_relative`. -/
def lexicallyRelative (p base : List Char) : List Char :=
  if isAbsolute p ≠ isAbsolute base then []
  else
    -- `std::mismatch`
    let (a, b) := mismatch (elements p) (elements base)
    if a = [] ∧ b = [] then ['.']
    else
      let up := b.countP (· = ['.', '.'])
      let down := b.countP fun name => name ≠ [] ∧ name ≠ ['.'] ∧ name ≠ ['.', '.']
      if down < up then []
      else if down = up ∧ (a = [] ∨ a.head? = some []) then ['.']
      else (List.replicate (down - up) ['.', '.'] ++ a).foldl append []

example : lexicallyRelative "/home//user/".toList "/".toList = "home/user/".toList ∧
    lexicallyRelative "/".toList "/".toList = ['.'] ∧
    lexicallyRelative "home".toList "/".toList = [] := by decide

end FilesystemPath

open FilesystemPath

/-! ## Section 2: The mapping -/

/-- What the file system says of links; nothing where a call fails. -/
structure Links where
  isSymlink : List Char → Option Bool
  realpath : List Char → Option (List Char)

/-- `CliOptions`, as far as the mapping reads it. -/
structure MappedFiles where
  filePaths : List (List Char)
  fileUrls : List (List Char)

variable (links : Links)

/-- `mappingFile`. Where a call fails, it warns and passes the path on. -/
def mappingFile (file : List Char) : List Char :=
  if links.isSymlink file ≠ some true then file
  else
    match links.realpath file with
    | none => file
    | some target => append "/run/host/rootfs".toList (lexicallyRelative target ['/'])

def filePrefix : List Char := "file://".toList

/-- `mappingUrl`. -/
def mappingUrl (url : List Char) : List Char :=
  if ['/'].isPrefixOf url then mappingFile links url
  else if filePrefix.isPrefixOf url then
    let nativePath := url.drop filePrefix.length
    let target := mappingFile links nativePath
    filePrefix ++ lexicallyRelative target ['/']
  else url

/-- The loop of `filePathMapping`. An unknown argument is only warned of. -/
def mapArgs (options : MappedFiles) : List (List Char) → List (List Char) → List (List Char)
  | [], execArgs => execArgs
  | arg :: command, execArgs =>
      if ¬ "%%".toList.isPrefixOf arg then mapArgs options command (execArgs ++ [arg])
      else if arg = "%%f".toList ∨ arg = "%%F".toList then
        mapArgs options command (execArgs ++ options.filePaths.map (mappingFile links))
      else if arg = "%%u".toList ∨ arg = "%%U".toList then
        mapArgs options command (execArgs ++ options.fileUrls.map (mappingUrl links))
      else mapArgs options command execArgs

/-- `filePathMapping`. -/
def filePathMapping (options : MappedFiles) (command : List (List Char)) : List (List Char) :=
  mapArgs links options command []

/-! ## Section 3: Components -/

/-- The components of a path, without those that stay where they are. -/
def components (p : List Char) : List (List Char) := (parts '/' p).filter (· ≠ ['.'])

theorem isAbsolute_eq_true {p : List Char} : isAbsolute p = true ↔ ∃ q, p = '/' :: q := by
  cases p with
  | nil => simp [isAbsolute]
  | cons c p => simp [isAbsolute]

theorem isAbsolute_of_mem_parts {p name : List Char} (h : name ∈ parts '/' p) :
    isAbsolute name = false := by
  rw [Bool.eq_false_iff]
  intro habs
  obtain ⟨q, rfl⟩ := isAbsolute_eq_true.1 habs
  exact (mem_parts h).2 List.mem_cons_self

/-- Appending a relative path appends its names. -/
theorem parts_append {q : List Char} (h : isAbsolute q = false) (p : List Char) :
    parts '/' (append p q) = parts '/' p ++ parts '/' q := by
  unfold append
  by_cases hp : p = []
  · rw [if_pos (.inr hp), hp, parts_nil, List.nil_append]
  · rw [if_neg (by simp [h, hp])]
    by_cases hlast : p.getLast? = some '/'
    · obtain ⟨before, rfl⟩ := List.getLast?_eq_some_iff.1 hlast
      rw [if_pos hlast, List.append_assoc, List.singleton_append, parts_append_cons,
        parts_append_cons, parts_nil, List.append_nil]
    · rw [if_neg hlast, parts_append_cons]

theorem parts_foldl_append {names : List (List Char)} (h : ∀ name ∈ names, isAbsolute name = false)
    (p : List Char) :
    parts '/' (names.foldl append p) = parts '/' p ++ names.flatMap (parts '/') := by
  induction names generalizing p with
  | nil => simp
  | cons name names ih =>
    rw [List.foldl_cons, ih fun n hn => h n (List.mem_cons_of_mem _ hn),
      parts_append (h name List.mem_cons_self), List.flatMap_cons, List.append_assoc]

/-- What is behind the root directory. -/
def behindRoot (p : List Char) : List (List Char) :=
  parts '/' p ++ if parts '/' p ≠ [] ∧ p.getLast? = some '/' then [[]] else []

theorem isAbsolute_of_mem_behindRoot {p name : List Char} (h : name ∈ behindRoot p) :
    isAbsolute name = false := by
  rcases List.mem_append.1 h with hname | hname
  · exact isAbsolute_of_mem_parts hname
  · have hnil := (List.mem_ite_nil_right.1 hname).2
    rw [List.mem_singleton.1 hnil]
    rfl

/-- The names behind the root directory, taken for paths. -/
theorem flatMap_behindRoot (p : List Char) : (behindRoot p).flatMap (parts '/') = parts '/' p := by
  have hnames : ∀ names : List (List Char), (∀ name ∈ names, name ≠ [] ∧ '/' ∉ name) →
      names.flatMap (parts '/') = names := by
    intro names
    induction names with
    | nil => exact fun _ => rfl
    | cons name names ih =>
      intro h
      obtain ⟨hne, hslash⟩ := h name List.mem_cons_self
      rw [List.flatMap_cons, parts_of_not_mem hne hslash,
        ih fun n hn => h n (List.mem_cons_of_mem _ hn)]
      rfl
  rw [behindRoot, List.flatMap_append, hnames _ fun _ => mem_parts]
  split
  · simp
  · simp

/-- Relative to the root is what is behind the root directory. -/
theorem lexicallyRelative_root {p : List Char} (h : isAbsolute p = true) :
    lexicallyRelative p ['/'] =
      if parts '/' p = [] then ['.'] else (behindRoot p).foldl append [] := by
  have hmismatch : mismatch (elements p) (elements ['/']) = (behindRoot p, []) := by
    have hroot : elements ['/'] = [['/']] := by decide
    rw [hroot, elements, if_pos h, List.append_assoc]
    show mismatch (behindRoot p) [] = _
    cases behindRoot p <;> rfl
  unfold lexicallyRelative
  rw [if_neg (by rw [h]; decide), hmismatch]
  dsimp only
  by_cases hparts : parts '/' p = []
  · rw [if_pos hparts, if_pos (by simp [behindRoot, hparts])]
  · obtain ⟨name, names, hname⟩ := List.exists_cons_of_ne_nil hparts
    have hne : name ≠ [] := (mem_parts (hname ▸ List.mem_cons_self : name ∈ parts '/' p)).1
    have hhead : (behindRoot p).head? = some name := by rw [behindRoot, hname]; rfl
    have hbehind : behindRoot p ≠ [] := by
      intro hnil
      rw [hnil] at hhead
      cases hhead
    rw [if_neg hparts, if_neg (by simp [hbehind]), if_neg (by simp),
      if_neg (by simp [hbehind, hhead, hne])]
    rfl

/-- Made relative to the root, an absolute path keeps its components. -/
theorem components_lexicallyRelative {p : List Char} (h : isAbsolute p = true) :
    components (lexicallyRelative p ['/']) = components p := by
  rw [lexicallyRelative_root h]
  by_cases hparts : parts '/' p = []
  · rw [if_pos hparts, components, components, hparts]
    decide
  · rw [if_neg hparts, components, parts_foldl_append fun _ => isAbsolute_of_mem_behindRoot,
      flatMap_behindRoot, parts_nil, List.nil_append, components]

/-! ## Section 4: What is mapped to what -/

theorem isAbsolute_append {p : List Char} (h : isAbsolute p = true) (q : List Char) :
    isAbsolute (append p q) = true := by
  obtain ⟨p, rfl⟩ := isAbsolute_eq_true.1 h
  unfold append
  by_cases hq : isAbsolute q = true
  · rw [if_pos (.inl hq), hq]
  · rw [if_neg (by simp [hq])]
    split
    · rfl
    · rfl

/-- An absolute path is mapped to an absolute path. -/
theorem isAbsolute_mappingFile {p : List Char} (h : isAbsolute p = true) :
    isAbsolute (mappingFile links p) = true := by
  unfold mappingFile
  split
  · exact h
  · split
    · exact h
    · exact isAbsolute_append (by decide) _

/-- **URLs**: the URL of a file has the components of its path. -/
theorem components_mappingUrl (p : List Char) :
    ∃ path, mappingUrl links (filePrefix ++ '/' :: p) = filePrefix ++ path ∧
      components path = components (mappingFile links ('/' :: p)) := by
  have hmapped : isAbsolute (mappingFile links ('/' :: p)) = true :=
    isAbsolute_mappingFile links rfl
  exact ⟨_, rfl, components_lexicallyRelative hmapped⟩

/-- What is mapped for one argument. -/
def mapArg (options : MappedFiles) (arg : List Char) : List (List Char) :=
  if arg = "%%f".toList ∨ arg = "%%F".toList then options.filePaths.map (mappingFile links)
  else if arg = "%%u".toList ∨ arg = "%%U".toList then options.fileUrls.map (mappingUrl links)
  else if "%%".toList <+: arg then []
  else [arg]

theorem mapArgs_cons (options : MappedFiles) (arg : List Char)
    (command execArgs : List (List Char)) :
    mapArgs links options (arg :: command) execArgs =
      mapArgs links options command (execArgs ++ mapArg links options arg) := by
  rw [mapArgs, mapArg]
  by_cases hfile : arg = "%%f".toList ∨ arg = "%%F".toList
  · have hpercent : "%%".toList.isPrefixOf arg = true := by
      rcases hfile with rfl | rfl <;> decide
    rw [if_neg (not_not.2 hpercent), if_pos hfile, if_pos hfile]
  · by_cases hurl : arg = "%%u".toList ∨ arg = "%%U".toList
    · have hpercent : "%%".toList.isPrefixOf arg = true := by
        rcases hurl with rfl | rfl <;> decide
      rw [if_neg (not_not.2 hpercent), if_neg hfile, if_neg hfile, if_pos hurl, if_pos hurl]
    · rw [if_neg hfile, if_neg hfile, if_neg hurl, if_neg hurl]
      by_cases hpercent : "%%".toList <+: arg
      · rw [if_neg (not_not.2 (List.isPrefixOf_iff_prefix.2 hpercent)), if_pos hpercent,
          List.append_nil]
      · rw [if_pos (mt List.isPrefixOf_iff_prefix.1 hpercent), if_neg hpercent]

/-- The loop appends what is mapped for its arguments. -/
theorem mapArgs_eq (options : MappedFiles) (command execArgs : List (List Char)) :
    mapArgs links options command execArgs =
      execArgs ++ command.flatMap (mapArg links options) := by
  induction command generalizing execArgs with
  | nil => rw [mapArgs, List.flatMap_nil, List.append_nil]
  | cons arg command ih => rw [mapArgs_cons, ih, List.flatMap_cons, List.append_assoc]

/-- **Mapping**: the arguments in their order; files and URLs in the places
    of theirs, the others as they are unless they begin like one of these. A
    file that is given as an absolute path or as its URL is mapped to the same
    components. -/
theorem filePathMapping_spec (options : MappedFiles) :
    (∀ command command', filePathMapping links options (command ++ command') =
      filePathMapping links options command ++ filePathMapping links options command') ∧
    (∀ arg, filePathMapping links options [arg] =
      if arg = "%%f".toList ∨ arg = "%%F".toList then options.filePaths.map (mappingFile links)
      else if arg = "%%u".toList ∨ arg = "%%U".toList then options.fileUrls.map (mappingUrl links)
      else if "%%".toList <+: arg then [] else [arg]) ∧
    ∀ p, ∃ path, mappingUrl links (filePrefix ++ '/' :: p) = filePrefix ++ path ∧
      components path = components (mappingFile links ('/' :: p)) := by
  refine ⟨fun command command' => ?_, fun arg => ?_, components_mappingUrl links⟩
  · simp only [filePathMapping, mapArgs_eq, List.flatMap_append, List.nil_append]
  · rw [filePathMapping, mapArgs_eq, List.flatMap_cons, List.flatMap_nil, List.append_nil]
    rfl

/-- Nothing is a link. -/
def noLinks : Links := ⟨fun _ => some false, some⟩

/-- The argument `%%i` is left out, and a URL loses the slash of the root. -/
theorem not_filePathMapping :
    ¬ (∀ (links : Links) (options : MappedFiles) (arg : List Char),
      arg ∉ ["%%f".toList, "%%F".toList, "%%u".toList, "%%U".toList] →
        filePathMapping links options [arg] = [arg]) ∧
    ¬ ∀ (links : Links) (p : List Char),
      mappingUrl links (filePrefix ++ '/' :: p) = filePrefix ++ mappingFile links ('/' :: p) := by
  constructor
  · intro h
    exact absurd (h noLinks ⟨[], []⟩ "%%i".toList (by decide)) (by decide)
  · intro h
    exact absurd (h noLinks "home/photo".toList) (by decide)

end Linglong
