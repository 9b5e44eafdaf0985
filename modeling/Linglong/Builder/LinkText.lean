import Linglong.Framework.MountNamespace
import Linglong.Framework.PathText

/-! # The Texts of Links

    `copyDir` does not copy the text of a link. It asks `QFileInfo` for the
    path that the link means, which is made from the path of the directory
    and the text without looking at the disk, and computes a new text from
    the two paths. The new text often is not the old one: `tool` becomes
    `./tool`, and detours are gone.

    1. The new text (`newTarget`).
    2. Clean paths.
    3. Texts that stay as they are (`Direct.newTarget_eq`, `direct_of_newTarget`).
-/

namespace Linglong.CopyDir

open Framework

/-! ## Section 1: The new text -/

abbrev Name := List Char

abbrev Path := List Name

/-- A name in a path. -/
def step (name : Name) : PathStep Name :=
  if name = [] ∨ name = ['.'] then .stay else if name = ['.', '.'] then .up else .down name

/-- `QDir::cleanPath` of an absolute path: nothing is asked of the disk, and
    above the root stays above the root. -/
def cleanPath : Path → List Name → Path
  | here, [] => here
  | here, name :: rest =>
      match step name with
      | .stay => cleanPath here rest
      | .up =>
          if here = [] ∨ here.getLast? = some ['.', '.'] then cleanPath (here ++ [name]) rest
          else cleanPath here.dropLast rest
      | .down name => cleanPath (here ++ [name]) rest

/-- `QFileInfo::symLinkTarget` of a link in a directory. -/
def symLinkTarget (linkDir : Path) (text : List Char) : Path :=
  if text.head? = some '/' then cleanPath [] (text.splitOn '/')
  else cleanPath linkDir (text.splitOn '/')

/-- The text of an absolute path. -/
def absoluteText (p : Path) : List Char := if p = [] then ['/'] else slashed p

/-- `QDir::relativeFilePath`, between absolute paths. -/
def relativeFilePath (dir file : Path) : List Char :=
  let (dirElts, fileElts) := mismatch dir file
  let result := (dirElts.map fun _ => ['.', '.', '/']).flatten ++ ['/'].intercalate fileElts
  if result = [] then ['.'] else result

/-- The text of the new link. -/
def newTarget (linkDir : Path) (text : List Char) : List Char :=
  let originFile := symLinkTarget linkDir text
  if text.head? = some '/' then absoluteText originFile
  else
    let relativePath := relativeFilePath (cleanPath [] linkDir) originFile.dropLast
    if relativePath.getLast? = some '/' then relativePath ++ originFile.getLastD []
    else relativePath ++ '/' :: originFile.getLastD []

example : newTarget ["src".toList, "bin".toList] "../lib/x".toList = "../lib/x".toList ∧
    newTarget ["src".toList, "bin".toList] "tool".toList = "./tool".toList := by decide

/-! ## Section 2: Clean paths -/

/-- The name of the directory above. -/
abbrev dots : Name := ['.', '.']

/-- So many levels up, and then down by these names. -/
def upThenDown (up : Nat) (names : List Name) : List Name := List.replicate up dots ++ names

section CleanPath

variable {here rest names : List Name} {up : Nat}

theorem step_of_isName {name : Name} (h : IsName name) : step name = .down name := by
  rw [step, if_neg (by simp [h.ne_nil, h.ne_dot]), if_neg h.ne_dots]

theorem isName_of_step {name name' : Name} (h : step name = .down name') (hslash : '/' ∉ name) :
    name' = name ∧ IsName name := by
  unfold step at h
  split at h
  · cases h
  · split at h
    · cases h
    · next hstay hup =>
      cases h
      rw [not_or] at hstay
      exact ⟨rfl, hstay.1, hslash, hstay.2, hup⟩

theorem cleanPath_append (here : Path) (names rest : List Name) :
    cleanPath here (names ++ rest) = cleanPath (cleanPath here names) rest := by
  induction names generalizing here with
  | nil => rfl
  | cons name names ih =>
    rw [List.cons_append, cleanPath, cleanPath]
    cases step name with
    | stay => exact ih here
    | up =>
      dsimp only
      split
      · exact ih _
      · exact ih _
    | down name => exact ih _

/-- Names lead down. -/
theorem cleanPath_names (h : ∀ name ∈ names, IsName name) :
    cleanPath here names = here ++ names := by
  induction names generalizing here with
  | nil => simp [cleanPath]
  | cons name names ih =>
    rw [cleanPath, step_of_isName (h name List.mem_cons_self)]
    dsimp only
    rw [ih fun n hn => h n (List.mem_cons_of_mem _ hn), List.append_assoc]
    rfl

/-- One level up from a path that is clean. -/
theorem cleanPath_up (h : ∀ name ∈ names, IsName name) (m : Nat) :
    cleanPath (upThenDown m names) [dots] =
      if names = [] then upThenDown (m + 1) [] else upThenDown m names.dropLast := by
  have hup : step dots = .up := by decide
  rw [cleanPath, hup]
  dsimp only
  by_cases hnames : names = []
  · have htop : upThenDown m names = [] ∨ (upThenDown m names).getLast? = some dots := by
      rw [hnames, upThenDown, List.append_nil]
      cases m with
      | zero => exact .inl rfl
      | succ m => exact .inr (by simp [List.getLast?_replicate])
    rw [if_pos htop, if_pos hnames, hnames]
    simp [cleanPath, upThenDown, List.replicate_succ']
  · obtain ⟨before, name, rfl⟩ := (List.eq_nil_or_concat' names).resolve_left hnames
    have hname : IsName name := h name (by simp)
    have hbelow : ¬ (upThenDown m (before ++ [name]) = [] ∨
        (upThenDown m (before ++ [name])).getLast? = some dots) := by
      simp [upThenDown, hname.ne_dots]
    rw [if_neg hbelow, if_neg hnames, upThenDown, upThenDown, ← List.append_assoc,
      List.dropLast_concat, List.dropLast_concat, cleanPath]

/-- So many levels up from a path of names: above the root all of them are
    kept. -/
theorem cleanPath_dots (h : ∀ name ∈ here, IsName name) (up : Nat) :
    cleanPath here (List.replicate up dots) =
      upThenDown (up - here.length) (here.take (here.length - up)) := by
  induction up with
  | zero => simp [cleanPath, upThenDown]
  | succ up ih =>
    rw [List.replicate_succ', cleanPath_append, ih,
      cleanPath_up fun name hname => h name (List.mem_of_mem_take hname)]
    by_cases hup : here.length ≤ up
    · have htake : here.length - up = 0 := by omega
      have htake' : here.length - (up + 1) = 0 := by omega
      rw [if_pos (by simp [htake]), htake', Nat.sub_add_comm hup]
      simp
    · have hrest : min (here.length - up) here.length - 1 = here.length - (up + 1) := by omega
      have hbelow : min (here.length - (up + 1)) (here.length - up) =
          here.length - (up + 1) := by omega
      have hzero : up - here.length = up + 1 - here.length := by omega
      rw [if_neg, List.dropLast_eq_take, List.length_take, List.take_take, hrest, hbelow, hzero]
      intro hnil
      have hlength := congrArg List.length hnil
      rw [List.length_take, List.length_nil] at hlength
      omega

/-- What comes out of `cleanPath` is clean. -/
theorem exists_cleanPath (hnames : ∀ name ∈ names, IsName name)
    (hrest : ∀ name ∈ rest, '/' ∉ name) : ∃ up' names', (∀ name ∈ names', IsName name) ∧
      cleanPath (upThenDown up names) rest = upThenDown up' names' := by
  induction rest generalizing up names with
  | nil => exact ⟨up, names, hnames, rfl⟩
  | cons name rest ih =>
    have hmore : ∀ name ∈ rest, '/' ∉ name := fun n hn => hrest n (List.mem_cons_of_mem _ hn)
    have hfirst : cleanPath (upThenDown up names) (name :: rest) =
        cleanPath (cleanPath (upThenDown up names) [name]) rest :=
      cleanPath_append (upThenDown up names) [name] rest
    rw [hfirst]
    cases hstep : step name with
    | stay =>
      rw [cleanPath, hstep]
      exact ih hnames hmore
    | up =>
      have hdots : name = dots := by
        unfold step at hstep
        split at hstep
        · cases hstep
        · split at hstep
          · assumption
          · cases hstep
      rw [hdots, cleanPath_up hnames]
      split
      · exact ih (by simp) hmore
      · exact ih (fun n hn => hnames n ((List.dropLast_sublist names).subset hn)) hmore
    | down name' =>
      obtain ⟨rfl, hname⟩ := isName_of_step hstep (hrest name List.mem_cons_self)
      have hone : cleanPath (upThenDown up names) [name'] = upThenDown up (names ++ [name']) := by
        rw [cleanPath_names (by simpa using hname), upThenDown, List.append_assoc]
        rfl
      rw [hone]
      refine ih (fun n hn => ?_) hmore
      rcases List.mem_append.1 hn with hn | hn
      · exact hnames n hn
      · rwa [List.mem_singleton.1 hn]

end CleanPath

/-! ## Section 3: Texts that stay as they are -/

/-- The shortest text of a relative path, with a directory before the last
    name. -/
def relativeText (up : Nat) (names : List Name) : List Char :=
  ['/'].intercalate (if up = 0 ∧ names.length = 1 then ['.'] :: names else upThenDown up names)

/-- A text without detours: an absolute path without empty components and
    dots, or a relative one that does not go up from a directory to come
    down to it again, with `./` before a single name. -/
def Direct (linkDir : Path) (text : List Char) : Prop :=
  ∃ up names, names ≠ [] ∧ (∀ name ∈ names, IsName name) ∧
    (text = slashed (upThenDown up names) ∨
      text = relativeText up names ∧
        (0 < up → 2 ≤ names.length → linkDir.reverse[up - 1]? ≠ names.head?))

section Direct

variable {linkDir root back names : List Name} {name : Name} {text : List Char} {up : Nat}

/-- The text of a relative path, with its directory and its last name. -/
def partsText (dir : List Name) (name : Name) : List Char :=
  ['/'].intercalate ((if dir = [] then [['.']] else dir) ++ [name])

theorem upThenDown_eq_nil : upThenDown up names = [] ↔ up = 0 ∧ names = [] := by
  simp [upThenDown]

theorem upThenDown_upThenDown (m n : Nat) (names : List Name) :
    upThenDown m (upThenDown n names) = upThenDown (m + n) names := by
  rw [upThenDown, upThenDown, upThenDown, ← List.append_assoc, List.replicate_append_replicate]

theorem relativeText_concat (up : Nat) (names : List Name) (name : Name) :
    relativeText up (names ++ [name]) = partsText (upThenDown up names) name := by
  unfold relativeText partsText
  simp only [List.length_append, List.length_singleton, Nat.add_eq_right,
    List.length_eq_zero_iff, upThenDown_eq_nil]
  by_cases hone : up = 0 ∧ names = []
  · rw [if_pos hone, if_pos hone, hone.2]
    rfl
  · rw [if_neg hone, if_neg hone, upThenDown, upThenDown, List.append_assoc]

/-- Steps up are written before what comes after them. -/
theorem cons_flatten_dots (l : List Name) (text : List Char) :
    '/' :: ((l.map fun _ => ['.', '.', '/']).flatten ++ text) =
      slashed (List.replicate l.length dots) ++ '/' :: text := by
  induction l with
  | nil => rfl
  | cons x l ih =>
    rw [List.length_cons, List.replicate_succ, slashed_cons, List.cons_append, List.append_assoc,
      ← ih]
    rfl

/-- What `relativeFilePath` gives for paths that begin with the same
    directory. -/
theorem relativeFilePath_common (root : Path) (hheads : ∀ a ∈ back.head?, a ∉ names.head?)
    (hnames : ∀ name ∈ names, name ≠ []) :
    relativeFilePath (root ++ back) (root ++ names) =
      if back = [] ∧ names = [] then ['.']
      else (back.map fun _ => ['.', '.', '/']).flatten ++ ['/'].intercalate names := by
  rw [relativeFilePath, mismatch_append root hheads]
  refine if_congr ⟨fun hnil => ?_, ?_⟩ rfl rfl
  · obtain ⟨hup, hdown⟩ := List.append_eq_nil_iff.1 hnil
    constructor
    · cases back with
      | nil => rfl
      | cons x back => simp at hup
    · by_contra hne
      obtain ⟨name, rest, rfl⟩ := List.exists_cons_of_ne_nil hne
      have hlength := congrArg List.length (cons_intercalate hne)
      rw [hdown, slashed_cons] at hlength
      refine hnames name List.mem_cons_self (List.eq_nil_of_length_eq_zero ?_)
      simp only [List.length_cons, List.length_nil, List.length_append] at hlength
      omega
  · rintro ⟨rfl, rfl⟩
    rfl

/-- The text of a link to something else, below a common directory. -/
theorem newTarget_relative (hdir : ∀ name ∈ root ++ back, IsName name)
    (hrel : text.head? ≠ some '/')
    (hfile : cleanPath (root ++ back) (text.splitOn '/') = root ++ names ++ [name])
    (hheads : ∀ a ∈ back.head?, a ∉ names.head?)
    (hnames : ∀ name ∈ names, name ≠ [] ∧ '/' ∉ name) :
    newTarget (root ++ back) text = partsText (upThenDown back.length names) name := by
  have hclean : cleanPath [] (root ++ back) = root ++ back := cleanPath_names hdir
  unfold newTarget symLinkTarget
  dsimp only
  rw [if_neg hrel, if_neg hrel, hfile, List.dropLast_concat, List.getLastD_concat, hclean,
    relativeFilePath_common root hheads fun n hn => (hnames n hn).1]
  -- the text with one more slash before it
  refine (List.cons_inj_right '/').1 ?_
  rw [partsText, cons_intercalate (by simp)]
  simp only [upThenDown_eq_nil, List.length_eq_zero_iff]
  by_cases hhere : back = [] ∧ names = []
  · rw [if_pos hhere, if_pos hhere, if_neg (by decide)]
    simp
  · rw [if_neg hhere, if_neg hhere, slashed_append, slashed_cons, slashed_nil, List.append_nil]
    by_cases hnil : names = []
    · -- it ends with a step up
      obtain ⟨before, last, hlast⟩ :=
        (List.eq_nil_or_concat' back).resolve_left fun heq => hhere ⟨heq, hnil⟩
      have hslash : ((back.map fun _ => ['.', '.', '/']).flatten ++
          ['/'].intercalate names).getLast? = some '/' := by
        rw [hlast, hnil]
        simp
      rw [if_pos hslash, List.append_assoc, cons_flatten_dots, hnil]
      simp [upThenDown]
    · have htext : '/' :: ((back.map fun _ => ['.', '.', '/']).flatten ++
          ['/'].intercalate names) = slashed (upThenDown back.length names) := by
        rw [cons_flatten_dots, cons_intercalate hnil, upThenDown, slashed_append]
      have hall : ∀ n ∈ upThenDown back.length names, n ≠ [] ∧ '/' ∉ n := by
        intro n hn
        rcases List.mem_append.1 hn with hn | hn
        · rw [List.eq_of_mem_replicate hn]
          decide
        · exact hnames n hn
      have hlast := getLast?_slashed hall
      rw [← htext, List.getLast?_cons] at hlast
      rw [if_neg, ← List.cons_append, htext]
      intro heq
      rw [heq] at hlast
      exact hlast rfl

theorem noSlash_upThenDown (up : Nat) (h : ∀ name ∈ names, IsName name) :
    ∀ name ∈ upThenDown up names, name ≠ [] ∧ '/' ∉ name := by
  intro name hname
  rcases List.mem_append.1 hname with hname | hname
  · rw [List.eq_of_mem_replicate hname]
    decide
  · exact (h name hname).ne_nil_noSlash

/-- An absolute text without detours means the path that it names. -/
theorem newTarget_slashed (hnames : ∀ name ∈ names, IsName name) (hne : names ≠ []) :
    newTarget linkDir (slashed (upThenDown up names)) = slashed (upThenDown up names) := by
  have hparts : upThenDown up names ≠ [] := by simp [upThenDown, hne]
  have hhead : (slashed (upThenDown up names)).head? = some '/' := by
    obtain ⟨first, rest, heq⟩ := List.exists_cons_of_ne_nil hparts
    rw [heq, slashed_cons]
    rfl
  have hclean : cleanPath [] ([] :: upThenDown up names) = upThenDown up names := by
    have hup := cleanPath_dots (fun name (hname : name ∈ ([] : Path)) => by cases hname) up
    rw [cleanPath, show step [] = .stay by decide]
    dsimp only
    rw [upThenDown, cleanPath_append, hup, cleanPath_names hnames]
    simp [upThenDown]
  unfold newTarget symLinkTarget
  dsimp only
  rw [if_pos hhead, if_pos hhead,
    splitOn_slashed fun name hname => (noSlash_upThenDown up hnames name hname).2, hclean,
    absoluteText, if_neg hparts]

/-- What a relative text without detours means. -/
theorem cleanPath_relativeText (hdir : ∀ name ∈ linkDir, IsName name)
    (hnames : ∀ name ∈ names, IsName name) (hne : names ≠ []) :
    (relativeText up names).head? ≠ some '/' ∧
      cleanPath linkDir ((relativeText up names).splitOn '/') =
        upThenDown (up - linkDir.length) (linkDir.take (linkDir.length - up)) ++ names := by
  have hparts : ∃ parts, relativeText up names = ['/'].intercalate parts ∧ parts ≠ [] ∧
      (∀ name ∈ parts, name ≠ [] ∧ '/' ∉ name) ∧
      cleanPath linkDir parts =
        upThenDown (up - linkDir.length) (linkDir.take (linkDir.length - up)) ++ names := by
    by_cases hone : up = 0 ∧ names.length = 1
    · refine ⟨['.'] :: names, by rw [relativeText, if_pos hone], by simp, ?_, ?_⟩
      · intro name hname
        rcases List.mem_cons.1 hname with rfl | hname
        · decide
        · exact (hnames name hname).ne_nil_noSlash
      · rw [cleanPath, show step ['.'] = .stay by decide]
        dsimp only
        rw [cleanPath_names hnames, hone.1]
        simp [upThenDown]
    · refine ⟨upThenDown up names, by rw [relativeText, if_neg hone], by simp [upThenDown, hne],
        noSlash_upThenDown up hnames, ?_⟩
      rw [upThenDown, cleanPath_append, cleanPath_dots hdir, cleanPath_names hnames]
  obtain ⟨parts, htext, hparts, hslash, hclean⟩ := hparts
  constructor
  · obtain ⟨first, rest, rfl⟩ := List.exists_cons_of_ne_nil hparts
    obtain ⟨c, first, rfl⟩ := List.exists_cons_of_ne_nil (hslash first List.mem_cons_self).1
    have hc : c ≠ '/' := fun heq =>
      (hslash (c :: first) List.mem_cons_self).2 (by simp [heq])
    have hcons := cons_intercalate hparts
    rw [slashed_cons, List.cons_append, List.cons_inj_right] at hcons
    rw [htext, hcons]
    simpa using hc
  · rw [htext, List.splitOn_intercalate '/' (fun name hname => (hslash name hname).2) hparts,
      hclean]

/-- **Texts without detours** stay as they are. -/
theorem Direct.newTarget_eq (h : Direct linkDir text) (hdir : ∀ name ∈ linkDir, IsName name) :
    newTarget linkDir text = text := by
  obtain ⟨up, names, hne, hnames, rfl | ⟨rfl, hshort⟩⟩ := h
  · exact newTarget_slashed hnames hne
  · obtain ⟨hrel, hfile⟩ := @cleanPath_relativeText linkDir names up hdir hnames hne
    obtain ⟨before, name, rfl⟩ := (List.eq_nil_or_concat' names).resolve_left hne
    have hbefore : ∀ n ∈ before, IsName n := fun n hn => hnames n (by simp [hn])
    have hreal : ∀ n ∈ upThenDown (up - linkDir.length) before, n ≠ [] ∧ '/' ∉ n :=
      noSlash_upThenDown _ hbefore
    rw [relativeText_concat] at hrel hfile ⊢
    by_cases hup : up ≤ linkDir.length
    · -- below the common directory the names differ
      have hzero : up - linkDir.length = 0 := by omega
      generalize hk : linkDir.length - up = k at hfile
      obtain ⟨back, hback⟩ : ∃ back, back = linkDir.drop k := ⟨_, rfl⟩
      have hlength : back.length = up := by
        rw [hback, List.length_drop]
        omega
      have hheads : ∀ a ∈ back.head?, a ∉ before.head? := by
        intro a ha hb
        have hpos : 0 < up := by
          rw [← hlength]
          exact List.length_pos_iff.2 fun hnil => by simp [hnil] at ha
        have htwo : 2 ≤ (before ++ [name]).length := by
          cases before with
          | nil => simp at hb
          | cons b before => simp
        refine hshort hpos htwo ?_
        have hindex : linkDir.length - 1 - (up - 1) = k := by omega
        rw [List.getElem?_reverse (by omega), hindex, List.head?_append_of_ne_nil, hb,
          ← List.head?_drop, ← hback, ha]
        rintro rfl
        simp at hb
      have hsplit : linkDir.take k ++ back = linkDir := by rw [hback, List.take_append_drop]
      rw [hzero] at hfile hreal
      have htarget : newTarget (linkDir.take k ++ back) (partsText (upThenDown up before) name) =
          partsText (upThenDown back.length before) name := by
        refine newTarget_relative (by rwa [hsplit]) hrel ?_ hheads hreal
        rw [hsplit, hfile]
        simp [upThenDown]
      rwa [hsplit, hlength] at htarget
    · -- above the root
      have hk : linkDir.length - up = 0 := by omega
      have hpos : 0 < up - linkDir.length := by omega
      have hall : upThenDown linkDir.length (upThenDown (up - linkDir.length) before) =
          upThenDown up before := by
        rw [upThenDown_upThenDown, Nat.add_sub_of_le (by omega)]
      have hheads : ∀ a ∈ linkDir.head?, a ∉ (upThenDown (up - linkDir.length) before).head? := by
        intro a ha hb
        obtain ⟨m, hm⟩ := Nat.exists_eq_add_one_of_ne_zero hpos.ne'
        have hdots : a = dots := by simpa [hm, upThenDown, List.replicate_succ, eq_comm] using hb
        exact (hdir a (List.mem_of_mem_head? ha)).ne_dots hdots
      rw [hk, List.take_zero] at hfile
      have htarget : newTarget ([] ++ linkDir) (partsText (upThenDown up before) name) =
          partsText (upThenDown linkDir.length (upThenDown (up - linkDir.length) before)) name := by
        refine newTarget_relative hdir hrel ?_ hheads hreal
        rw [List.nil_append, hfile]
        simp [upThenDown]
      rwa [hall] at htarget

/-- What is below a part of a path of names and of a clean path. -/
theorem upThenDown_of_append {rest : List Name} (hroot : ∀ name ∈ root, IsName name)
    (hnames : ∀ name ∈ names, IsName name) (h : upThenDown up names = root ++ rest) :
    ∃ up' names', rest = upThenDown up' names' ∧ (∀ name ∈ names', IsName name) ∧
      (root = [] ∨ up' = 0) := by
  cases root with
  | nil => exact ⟨up, names, h.symm, hnames, .inl rfl⟩
  | cons name root =>
    cases up with
    | succ up =>
      -- a name is not the directory above
      have hfirst := (List.cons.inj h).1
      exact absurd hfirst.symm (hroot name List.mem_cons_self).ne_dots
    | zero =>
      have hall : names = name :: root ++ rest := h
      exact ⟨0, rest, rfl, fun n hn => hnames n (by simp [hall, hn]), .inr rfl⟩

/-- **Only these**: a text that stays as it is and ends with a name has no
    detours. -/
theorem direct_of_newTarget (hdir : ∀ name ∈ linkDir, IsName name)
    (h : newTarget linkDir text = text) {before : List Name}
    (hlast : text.splitOn '/' = before ++ [name]) (hname : IsName name) :
    Direct linkDir text := by
  have hbefore : ∀ n ∈ before, '/' ∉ n := by
    intro n hn
    exact not_mem_splitOn (by rw [hlast]; exact List.mem_append_left _ hn)
  have hclean : ∀ here, cleanPath here (text.splitOn '/') = cleanPath here before ++ [name] := by
    intro here
    rw [hlast, cleanPath_append, cleanPath_names (by simpa using hname)]
  have hand : ∀ {names : List Name}, (∀ n ∈ names, IsName n) → ∀ n ∈ names ++ [name], IsName n := by
    intro names hnames n hn
    rcases List.mem_append.1 hn with hn | hn
    · exact hnames n hn
    · rwa [List.mem_singleton.1 hn]
  by_cases hhead : text.head? = some '/'
  · obtain ⟨up, names, hnames, hto⟩ := @exists_cleanPath before [] 0 (by simp) hbefore
    refine ⟨up, names ++ [name], by simp, hand hnames, .inl ?_⟩
    have hfile : cleanPath [] (text.splitOn '/') = upThenDown up (names ++ [name]) := by
      have hempty : cleanPath [] before = upThenDown up names := hto
      rw [hclean, hempty, upThenDown, upThenDown, List.append_assoc]
    unfold newTarget symLinkTarget at h
    dsimp only at h
    rw [if_pos hhead, if_pos hhead, hfile, absoluteText, if_neg (by simp [upThenDown])] at h
    exact h.symm
  · obtain ⟨up, names, hnames, hto⟩ := @exists_cleanPath before linkDir 0 hdir hbefore
    have hto' : cleanPath linkDir before = upThenDown up names := hto
    obtain ⟨root, back, rest, hback, hrest, hheads⟩ := exists_common linkDir (upThenDown up names)
    have hroot : ∀ n ∈ root, IsName n := fun n hn => hdir n (by simp [hback, hn])
    have hslash : ∀ n ∈ rest, n ≠ [] ∧ '/' ∉ n := fun n hn =>
      noSlash_upThenDown up hnames n (by simp [hrest, hn])
    obtain ⟨up', names', hrest', hnames', htop⟩ := upThenDown_of_append hroot hnames hrest
    have htarget : newTarget (root ++ back) text = partsText (upThenDown back.length rest) name := by
      refine newTarget_relative (by rwa [← hback]) hhead ?_ hheads hslash
      rw [← hback, hclean, hto', hrest]
    refine ⟨back.length + up', names' ++ [name], by simp, hand hnames', .inr ⟨?_, ?_⟩⟩
    · rw [relativeText_concat, ← upThenDown_upThenDown, ← hrest', ← htarget, ← hback, h]
    · intro hpos htwo
      have hne : names' ≠ [] := by
        rintro rfl
        simp at htwo
      rw [List.head?_append_of_ne_nil _ hne]
      obtain ⟨first, more, hfirst⟩ := List.exists_cons_of_ne_nil hne
      cases up' with
      | succ up' =>
        -- above the root
        have hnil : root = [] := htop.resolve_right (by simp)
        rw [hnil, List.nil_append] at hback
        rw [hback, List.getElem?_eq_none (by simp), hfirst]
        simp
      | zero =>
        have hsame : rest = names' := hrest'
        obtain ⟨b, back', hcons⟩ := List.exists_cons_of_length_pos hpos
        intro heq
        rw [hback, hcons, List.reverse_append] at heq
        refine hheads b (by rw [hcons]; rfl) ?_
        rw [hsame, ← heq]
        simp

end Direct

end Linglong.CopyDir
