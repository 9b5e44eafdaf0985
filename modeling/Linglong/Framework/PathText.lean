import Linglong.Framework.Separator

/-! # Paths and their Texts

    A path is a list of names; its text has a slash before each name. A text
    with empty components, dots or a slash at the end may mean a path that
    has another text.

    * `slashed`: the text of a path.
    * `slashed_inj`: a path is determined by its text.
    * `slashed_split`: a text that ends with the text of a path.
    * `resolve`: the path that a text means, without asking a file system.
    * `resolve_slashed`: the text of a path means this path.
    * `mismatch`: what is left of two paths after their common beginning.
    * `Tidy.slashed_parts`: a text without empty components is the text of a
      path.
-/

namespace Framework

/-- A name of a file. -/
structure IsName (name : List Char) : Prop where
  ne_nil : name ≠ []
  noSlash : '/' ∉ name
  ne_dot : name ≠ ['.']
  ne_dots : name ≠ ['.', '.']

instance : DecidablePred IsName := fun name =>
  decidable_of_iff (name ≠ [] ∧ '/' ∉ name ∧ name ≠ ['.'] ∧ name ≠ ['.', '.'])
    ⟨fun ⟨hne, hslash, hdot, hdots⟩ => ⟨hne, hslash, hdot, hdots⟩,
      fun ⟨hne, hslash, hdot, hdots⟩ => ⟨hne, hslash, hdot, hdots⟩⟩

theorem IsName.ne_nil_noSlash {name : List Char} (h : IsName name) : name ≠ [] ∧ '/' ∉ name :=
  ⟨h.ne_nil, h.noSlash⟩

/-- The text of an absolute path. -/
def slashed (path : List (List Char)) : List Char := path.flatMap fun name => '/' :: name

@[simp] theorem slashed_nil : slashed [] = [] := rfl

@[simp] theorem slashed_cons (name : List Char) (path : List (List Char)) :
    slashed (name :: path) = '/' :: (name ++ slashed path) := rfl

@[simp] theorem slashed_append (path path' : List (List Char)) :
    slashed (path ++ path') = slashed path ++ slashed path' := List.flatMap_append

/-- Without the first slash, the text of a path joins the names. -/
theorem cons_intercalate {path : List (List Char)} (h : path ≠ []) :
    '/' :: ['/'].intercalate path = slashed path := by
  induction path with
  | nil => exact absurd rfl h
  | cons name path ih =>
    cases path with
    | nil => simp
    | cons next path =>
      rw [List.intercalate_cons_cons, slashed_cons, ← ih (List.cons_ne_nil _ _)]
      simp

/-- The text of a path of names does not end in a slash. -/
theorem getLast?_slashed {path : List (List Char)} (h : ∀ name ∈ path, name ≠ [] ∧ '/' ∉ name) :
    (slashed path).getLast? ≠ some '/' := by
  rcases List.eq_nil_or_concat' path with rfl | ⟨first, name, rfl⟩
  · simp
  · obtain ⟨hne, hslash⟩ := h name (by simp)
    have hlast : (slashed (first ++ [name])).getLast? = name.getLast? := by
      rw [slashed_append, slashed_cons, slashed_nil, List.append_nil,
        List.getLast?_append_of_ne_nil _ (List.cons_ne_nil _ _), List.getLast?_cons]
      simp [List.getLast?_eq_some_getLast hne]
    rw [hlast]
    exact fun hmem => hslash (List.mem_of_getLast? hmem)

theorem slashed_eq_nil_iff {path : List (List Char)} : slashed path = [] ↔ path = [] := by
  cases path with
  | nil => simp
  | cons name path => simp

/-- After a name comes the end or a slash. -/
theorem name_append_inj {name name' : List Char} (h : '/' ∉ name) (h' : '/' ∉ name')
    {path path' : List (List Char)} (heq : name ++ slashed path = name' ++ slashed path') :
    name = name' ∧ slashed path = slashed path' := by
  have hstop : ∀ {name : List Char}, '/' ∉ name → ∀ path,
      (name ++ slashed path).takeWhile (· ≠ '/') = name := by
    intro name hname path
    cases path with
    | nil =>
      rw [slashed_nil, List.append_nil]
      exact takeWhile_of_not_mem hname
    | cons next path =>
      rw [slashed_cons]
      exact takeWhile_append_of_not_mem hname _
  have hname : name = name' := by
    rw [← hstop h path, heq, hstop h' path']
  rw [hname] at heq
  exact ⟨hname, List.append_cancel_left heq⟩

/-- **Texts**: the text determines the path. -/
theorem slashed_inj {path path' : List (List Char)} (h : ∀ name ∈ path, '/' ∉ name)
    (h' : ∀ name ∈ path', '/' ∉ name) (heq : slashed path = slashed path') : path = path' := by
  induction path generalizing path' with
  | nil => exact (slashed_eq_nil_iff.1 heq.symm).symm
  | cons name path ih =>
    cases path' with
    | nil => exact absurd heq (by simp)
    | cons name' path' =>
      rw [slashed_cons, slashed_cons, List.cons_inj_right] at heq
      obtain ⟨hname, hrest⟩ := name_append_inj (h name List.mem_cons_self)
        (h' name' List.mem_cons_self) heq
      rw [hname, ih (fun n hn => h n (List.mem_cons_of_mem _ hn))
        (fun n hn => h' n (List.mem_cons_of_mem _ hn)) hrest]

/-- **Ends**: what is before the text of the last names is the text of the
    others. -/
theorem slashed_split {path last : List (List Char)} (h : ∀ name ∈ path, '/' ∉ name)
    (h' : ∀ name ∈ last, '/' ∉ name) {text : List Char} (heq : slashed path = text ++ slashed last) :
    ∃ first, path = first ++ last ∧ text = slashed first := by
  induction path generalizing text with
  | nil =>
    obtain ⟨htext, hlast⟩ := List.append_eq_nil_iff.1 heq.symm
    rw [slashed_eq_nil_iff] at hlast
    exact ⟨[], by rw [hlast]; rfl, htext⟩
  | cons name path ih =>
    have hpath : ∀ n ∈ path, '/' ∉ n := fun n hn => h n (List.mem_cons_of_mem _ hn)
    cases text with
    | nil =>
      -- there is nothing before the last names
      exact ⟨[], slashed_inj h h' heq, rfl⟩
    | cons c text =>
      rw [slashed_cons, List.cons_append, List.cons.injEq] at heq
      obtain ⟨rfl, heq⟩ := heq
      rcases List.append_eq_append_iff.1 heq with ⟨more, htext, hrest⟩ | ⟨more, hname, hlast⟩
      · -- the text goes beyond the first name
        obtain ⟨first, hfirst, hmore⟩ := ih hpath hrest
        refine ⟨name :: first, by rw [hfirst]; rfl, ?_⟩
        rw [htext, hmore, slashed_cons]
      · cases more with
        | nil =>
          rw [List.append_nil] at hname
          refine ⟨[name], ?_, ?_⟩
          · rw [← slashed_inj h' hpath hlast]
            rfl
          · rw [hname]
            simp
        | cons d more =>
          -- a name would have a slash in it
          exfalso
          refine h name List.mem_cons_self ?_
          cases last with
          | nil => cases hlast
          | cons next last =>
            rw [slashed_cons, List.cons_append, List.cons.injEq] at hlast
            rw [hname, ← hlast.1]
            simp

/-! ## What a text means -/

/-- From some directory on, name by name. Above the first directory there is
    nothing. -/
def walk (here : List (List Char)) : List (List Char) → Option (List (List Char))
  | [] => some here
  | name :: rest =>
      if name = [] ∨ name = ['.'] then walk here rest
      else if name = ['.', '.'] then
        if here = [] then none else walk here.dropLast rest
      else walk (here ++ [name]) rest

/-- The path that a text means. -/
def resolve (text : List Char) : Option (List (List Char)) := walk [] (text.splitOn '/')

/-- What is left of two lists after their common beginning. -/
def mismatch {α : Type} [DecidableEq α] : List α → List α → List α × List α
  | a :: as, b :: bs => if a = b then mismatch as bs else (a :: as, b :: bs)
  | as, bs => (as, bs)

/-- Below a common beginning two lists begin differently. -/
theorem mismatch_append {α : Type} [DecidableEq α] (root : List α) {as bs : List α}
    (h : ∀ a ∈ as.head?, a ∉ bs.head?) : mismatch (root ++ as) (root ++ bs) = (as, bs) := by
  induction root with
  | nil =>
    cases as with
    | nil => rfl
    | cons a as =>
      cases bs with
      | nil => rfl
      | cons b bs =>
        rw [List.nil_append, List.nil_append, mismatch, if_neg]
        rintro rfl
        exact h a rfl rfl
  | cons x root ih =>
    rw [List.cons_append, List.cons_append, mismatch, if_pos rfl, ih]

theorem exists_common {α : Type} (as bs : List α) : ∃ root as' bs', as = root ++ as' ∧
    bs = root ++ bs' ∧ ∀ a ∈ as'.head?, a ∉ bs'.head? := by
  induction as generalizing bs with
  | nil => exact ⟨[], [], bs, rfl, rfl, by simp⟩
  | cons a as ih =>
    cases bs with
    | nil => exact ⟨[], a :: as, [], rfl, rfl, by simp⟩
    | cons b bs =>
      by_cases hab : a = b
      · obtain ⟨root, as', bs', has, hbs, hheads⟩ := ih bs
        exact ⟨a :: root, as', bs', by rw [has]; rfl, by rw [hbs, hab]; rfl, hheads⟩
      · exact ⟨[], a :: as, b :: bs, rfl, rfl, by simpa using fun heq => hab heq.symm⟩

/-- The text can only mean a directory. -/
def meansDirectory (text : List Char) : Bool :=
  [[], ['.'], ['.', '.']].contains ((text.splitOn '/').getLastD [])

example : resolve "/a//b/./c/../d/".toList = some [['a'], ['b'], ['d']] := by decide

theorem walk_append {here path : List (List Char)} (h : ∀ name ∈ path, IsName name)
    (rest : List (List Char)) : walk here (path ++ rest) = walk (here ++ path) rest := by
  induction path generalizing here with
  | nil => simp
  | cons name path ih =>
    obtain ⟨hne, -, hdot, hdots⟩ := h name List.mem_cons_self
    rw [List.cons_append, walk, if_neg (by simp [hne, hdot]), if_neg hdots,
      ih fun n hn => h n (List.mem_cons_of_mem _ hn)]
    simp

/-- The components of a text that begins with a slash. -/
theorem splitOn_slashed {path : List (List Char)} (h : ∀ name ∈ path, '/' ∉ name) :
    (slashed path).splitOn '/' = [] :: path := by
  -- the first component is general: it is empty at the beginning, and a name later on
  have hmore : ∀ (path : List (List Char)) (name : List Char), '/' ∉ name →
      (∀ n ∈ path, '/' ∉ n) → (name ++ slashed path).splitOn '/' = name :: path := by
    intro path
    induction path with
    | nil =>
      intro name hname _
      rw [slashed_nil, List.append_nil]
      exact List.splitOn_eq_singleton hname
    | cons next path ih =>
      intro name hname hpath
      rw [slashed_cons, List.splitOn_append_cons_self_of_not_mem hname,
        ih next (hpath next List.mem_cons_self) fun n hn => hpath n (List.mem_cons_of_mem _ hn)]
  exact hmore path [] (by simp) h

/-- **Meaning**: the text of a path means the path, also with a slash at its
    end. -/
theorem resolve_slashed {path : List (List Char)} (h : ∀ name ∈ path, IsName name) :
    resolve (slashed path) = some path ∧ resolve (slashed path ++ ['/']) = some path := by
  have hslash : ∀ name ∈ path, '/' ∉ name := fun name hname => (h name hname).noSlash
  have hlast : slashed path ++ ['/'] = slashed (path ++ [[]]) := by simp
  have hall : ∀ name ∈ path ++ [[]], '/' ∉ name := by
    intro name hname
    rcases List.mem_append.1 hname with hname | hname
    · exact hslash name hname
    · rw [List.mem_singleton.1 hname]
      simp
  unfold resolve
  rw [hlast, splitOn_slashed hslash, splitOn_slashed hall]
  constructor
  · have hwalk : walk [] (path ++ []) = some path := walk_append h []
    rw [List.append_nil] at hwalk
    exact hwalk
  · exact walk_append h [[]]

/-- The text of a path can mean something else than a directory. -/
theorem meansDirectory_slashed {path : List (List Char)} (h : ∀ name ∈ path, IsName name)
    (hne : path ≠ []) : meansDirectory (slashed path) = false := by
  rcases List.eq_nil_or_concat' path with hnil | ⟨first, name, hpath⟩
  · exact absurd hnil hne
  · have hlast : ([] :: path).getLastD [] = name := by
      rw [hpath, ← List.cons_append, List.getLastD_concat]
    have hname : IsName name := by
      refine h name ?_
      rw [hpath]
      simp
    unfold meansDirectory
    rw [splitOn_slashed fun n hn => (h n hn).noSlash, hlast]
    simp [hname.ne_nil, hname.ne_dot, hname.ne_dots]

/-! ## Tidy texts -/

/-- After each slash comes a name. -/
def Tidy : List Char → Prop
  | [] => True
  | c :: text => (c = '/' → ∃ d rest, text = d :: rest ∧ d ≠ '/') ∧ Tidy text

theorem Tidy.append {text text' : List Char} (h : Tidy text) (h' : Tidy text') :
    Tidy (text ++ text') := by
  induction text with
  | nil => exact h'
  | cons c text ih =>
    refine ⟨fun hc => ?_, ih h.2⟩
    obtain ⟨d, rest, htext, hd⟩ := h.1 hc
    exact ⟨d, rest ++ text', by rw [htext]; rfl, hd⟩

theorem tidy_of_not_mem {text : List Char} (h : '/' ∉ text) : Tidy text := by
  induction text with
  | nil => trivial
  | cons c text ih =>
    rw [List.mem_cons, not_or] at h
    exact ⟨fun hc => absurd hc.symm h.1, ih h.2⟩

/-- Paths have tidy texts, -/
theorem tidy_slashed {path : List (List Char)} (h : ∀ name ∈ path, name ≠ [] ∧ '/' ∉ name) :
    Tidy (slashed path) := by
  induction path with
  | nil => trivial
  | cons name path ih =>
    obtain ⟨hne, hslash⟩ := h name List.mem_cons_self
    obtain ⟨d, rest, rfl⟩ := List.exists_cons_of_ne_nil hne
    refine ⟨fun _ => ⟨d, rest ++ slashed path, rfl, fun hd => hslash (by simp [hd])⟩, ?_⟩
    exact (tidy_of_not_mem hslash).append (ih fun n hn => h n (List.mem_cons_of_mem _ hn))

/-- and a tidy text is the text of a path, after the rest of a name. -/
theorem Tidy.exists_slashed {text : List Char} (h : Tidy text) :
    ∃ name path, text = name ++ slashed path ∧ '/' ∉ name ∧ ∀ n ∈ path, n ≠ [] ∧ '/' ∉ n := by
  induction text with
  | nil => exact ⟨[], [], rfl, by simp, by simp⟩
  | cons c text ih =>
    obtain ⟨name, path, htext, hname, hpath⟩ := ih h.2
    by_cases hc : c = '/'
    · -- a new name has ended here, and it is not empty
      obtain ⟨d, rest, hd, hne⟩ := h.1 hc
      have hnil : name ≠ [] := by
        rintro rfl
        rw [hd] at htext
        cases path with
        | nil => cases htext
        | cons n path =>
          rw [List.nil_append, slashed_cons, List.cons.injEq] at htext
          exact hne htext.1
      refine ⟨[], name :: path, by rw [hc, htext]; rfl, by simp, fun n hn => ?_⟩
      rcases List.mem_cons.1 hn with rfl | hn
      · exact ⟨hnil, hname⟩
      · exact hpath n hn
    · refine ⟨c :: name, path, by rw [htext]; rfl, ?_, hpath⟩
      rw [List.mem_cons, not_or]
      exact ⟨Ne.symm hc, hname⟩

/-- The parts of a text are the names of its path. -/
theorem parts_slashed {path : List (List Char)} (h : ∀ name ∈ path, name ≠ [] ∧ '/' ∉ name) :
    parts '/' (slashed path) = path := by
  rw [parts, splitOn_slashed fun name hname => (h name hname).2, List.filter_cons_of_neg (by simp)]
  exact List.filter_eq_self.2 fun name hname => by simpa using (h name hname).1

/-- **Tidy texts**: joining the parts gives the text again. -/
theorem Tidy.slashed_parts {text : List Char} (h : Tidy text)
    (hhead : ∀ c rest, text = c :: rest → c = '/') : slashed (parts '/' text) = text := by
  obtain ⟨name, path, htext, hname, hpath⟩ := h.exists_slashed
  have hnil : name = [] := by
    cases name with
    | nil => rfl
    | cons c name => exact absurd (by simp [hhead c _ htext]) hname
  rw [hnil, List.nil_append] at htext
  rw [htext, parts_slashed hpath]

end Framework
