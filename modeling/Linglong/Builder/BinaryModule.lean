import Linglong.Builder.InstallModule

/-! # The Binary Module

    `Builder::build` installs the module `binary` last, with the paths of all
    that is left in the output as its rules. Each of them is meant to name
    its own entry.

    1. The run over the rules.
    2. The condition is enough, and it is necessary (`installs_iff`).
    3. Names without unusual blanks (`allNamed_plain`).
-/

namespace Linglong.InstallModule

open Framework

variable (host : Host) (src dest : Path)

/-! ## Section 1: The run over the rules -/

/-- The trees after the rules of some entries. -/
def stateAfter (tree done : Tree) : Trees :=
  installModule host src dest (binaryRules done) ⟨tree, []⟩

/-- The module has the entries that were in the output, and no others. -/
def Installed (tree : Tree) (t : Trees) : Prop := ∀ p, t.dest.lookup p = tree.lookup p

/-- **The condition**, on the rules as they are read and on links when it is
    their turn. -/
structure AllNamed (tree : Tree) : Prop where
  /-- For a directory it is enough that something below it is named. -/
  dirs : ∀ p, tree.lookup p = some .dir → ∃ q ∈ tree, ∃ r x, reads src q.1 = some r ∧ p <+: r ∧
    tree.lookup r = some x ∧ (x = .dir ∨ meansDirectory (ruleText q.1) = false)
  files : ∀ p object, tree.lookup p = some (.file object) →
    ∃ q ∈ tree, reads src q.1 = some p ∧ meansDirectory (ruleText q.1) = false
  /-- A link is named at some time, and then it leads to something. -/
  links : ∀ p target, tree.lookup p = some (.link target) → ∃ done q rest,
    tree = done ++ q :: rest ∧ reads src q.1 = some p ∧ meansDirectory (ruleText q.1) = false ∧
    isDir host (stateAfter host src dest tree done) p (.link target) = false ∧
    canRename host (mkpath (stateAfter host src dest tree done) p.dropLast) p (.link target) = true
  /-- It never leads to a directory when it is named. -/
  turns : ∀ done q rest p target, tree = done ++ q :: rest → reads src q.1 = some p →
    (stateAfter host src dest tree done).src.lookup p = some (.link target) →
    isDir host (stateAfter host src dest tree done) p (.link target) = false

section Runs

variable {host : Host} {src dest : Path} {tree : Tree}

theorem stateAfter_concat (done : Tree) (q : Path × Entry) :
    stateAfter host src dest tree (done ++ [q]) =
      installRule host src dest (stateAfter host src dest tree done) (slashed q.1) := by
  simp only [stateAfter, installModule, binaryRules, List.map_append, List.foldl_append]
  rfl

/-- What is assumed of the directories and the tree. -/
structure Setting (src dest : Path) (tree : Tree) : Prop where
  src_ne : src ≠ []
  names : ∀ name ∈ dest, IsName name
  isTree : IsTree tree
  straight : Straight src tree

variable (host) in
/-- **Run**: the invariant holds after some of the rules. -/
theorem inv_run (h : Setting src dest tree) (done : Tree) :
    ∀ rest, tree = done ++ rest → Inv tree (stateAfter host src dest tree done) := by
  induction done using List.reverseRecOn with
  | nil => exact fun _ _ => inv_start
  | append_singleton done q ih =>
    intro rest htree
    rw [List.append_assoc] at htree
    have hinv := ih _ htree
    have hmem : q ∈ tree := by
      rw [htree]
      simp
    rw [stateAfter_concat]
    exact hinv.step h.isTree (outcome_installRule h.src_ne h.names h.isTree h.straight hinv hmem)

variable (host) in
/-- One step of the run. -/
theorem outcome_run (h : Setting src dest tree) {done rest : Tree} {q : Path × Entry}
    (htree : tree = done ++ q :: rest) :
    Outcome host src (stateAfter host src dest tree done) q.1
      (stateAfter host src dest tree (done ++ [q])) := by
  have hmem : q ∈ tree := by
    rw [htree]
    simp
  rw [stateAfter_concat]
  exact outcome_installRule h.src_ne h.names h.isTree h.straight (inv_run host h done _ htree) hmem

/-- **Run**: what is in the module stays to the end. -/
theorem keeps_run (h : Setting src dest tree) {p : Path} {e : Entry} (rest : Tree) :
    ∀ done, tree = done ++ rest → (stateAfter host src dest tree done).dest.lookup p = some e →
      (stateAfter host src dest tree tree).dest.lookup p = some e := by
  induction rest with
  | nil =>
    intro done htree he
    rw [List.append_nil] at htree
    rwa [← htree] at he
  | cons q rest ih =>
    intro done htree he
    exact ih (done ++ [q]) (by rw [htree, List.append_assoc]; rfl)
      ((outcome_run host h htree).keeps he)

/-- **Run**: what is in the module has been put there by some step. -/
theorem puts_run (h : Setting src dest tree) {p : Path} (done : Tree) :
    ∀ rest e, tree = done ++ rest → (stateAfter host src dest tree done).dest.lookup p = some e →
      ∃ done' q rest', tree = done' ++ q :: rest' ∧
        Puts host src (stateAfter host src dest tree done') q.1 p e := by
  induction done using List.reverseRecOn with
  | nil =>
    intro _ e _ he
    cases he
  | append_singleton done q ih =>
    intro rest e htree he
    rw [List.append_assoc] at htree
    have hstep := outcome_run host h htree
    cases hold : (stateAfter host src dest tree done).dest.lookup p with
    | none => exact ⟨done, q, rest, htree, hstep.puts hold he⟩
    | some e' =>
      cases (hstep.keeps hold).symm.trans he
      exact ih _ e htree hold

/-! ## Section 2: The condition -/

/-- If no link counts as a directory, the directories of the module are those
    of the output. -/
theorem dir_sub (h : Setting src dest tree) (hnamed : AllNamed host src dest tree) {p : Path}
    (hp : (stateAfter host src dest tree tree).dest.lookup p = some .dir) :
    tree.lookup p = some .dir := by
  have hnil : p ≠ [] := by
    rintro rfl
    rw [(inv_run host h tree [] (List.append_nil tree).symm).nil] at hp
    cases hp
  obtain ⟨done, q, rest, htree, hputs⟩ := puts_run h tree [] .dir (List.append_nil tree).symm hp
  have hinv := inv_run host h done _ htree
  cases hputs with
  | @dir r x hreads hat hdir hp =>
    have hthere := hinv.entryAt_src hat
    by_cases hne : p = r
    · subst hne
      rw [entryAt_of_ne_nil hnil] at hat hthere
      cases x with
      | dir => exact hthere
      | file object => cases hdir
      | link target =>
        rw [hnamed.turns done q rest p target htree hreads hat] at hdir
        cases hdir
    · exact h.isTree.above hthere hp hnil hne
  | above hreads hat hdir htext hp hne =>
    exact h.isTree.above (hinv.entryAt_src hat) hp hnil hne
  | moved hreads hat hdir => cases hdir

/-- At its turn, a file or a link is in the module or is moved there. -/
theorem moved_run (h : Setting src dest tree) (hnamed : AllNamed host src dest tree) {p : Path}
    {e : Entry} (he : tree.lookup p = some e) {done rest : Tree} {q : Path × Entry}
    (htree : tree = done ++ q :: rest) (hreads : reads src q.1 = some p)
    (htext : meansDirectory (ruleText q.1) = false)
    (hdir : isDir host (stateAfter host src dest tree done) p e = false)
    (hrename : canRename host (mkpath (stateAfter host src dest tree done) p.dropLast) p e = true) :
    (stateAfter host src dest tree tree).dest.lookup p = some e := by
  have hinv := inv_run host h done _ htree
  have hnil := h.isTree.ne_nil he
  rcases hinv.kept he with hsrc | hdest
  · have hat : entryAt .dir (stateAfter host src dest tree done).src p = some e := by
      rw [entryAt_of_ne_nil hnil, hsrc]
    have hnone : (stateAfter host src dest tree done).dest.lookup p = none := by
      rcases hinv.free h.isTree hat List.prefix_rfl hnil with hnone | hthere
      · exact hnone
      · have hbad := dir_sub h hnamed (keeps_run h _ done htree hthere)
        exact absurd (Option.some.inj (he.symm.trans hbad)) (ne_dir_of_isDir hdir)
    refine keeps_run h rest (done ++ [q]) (by rw [htree, List.append_assoc]; rfl) ?_
    exact (outcome_run host h htree).arrives hreads hat hdir htext hrename hnone
  · exact keeps_run h _ done htree hdest

/-- A directory at or above a path that is named is in the module. -/
theorem made_run (h : Setting src dest tree) {p r : Path} (he : tree.lookup p = some .dir)
    (hp : p <+: r) {x : Entry} (hr : tree.lookup r = some x) {done rest : Tree} {q : Path × Entry}
    (htree : tree = done ++ q :: rest) (hreads : reads src q.1 = some r)
    (hfound : x = .dir ∨ meansDirectory (ruleText q.1) = false) :
    (stateAfter host src dest tree tree).dest.lookup p = some .dir := by
  have hinv := inv_run host h done _ htree
  have hnil := h.isTree.ne_nil he
  rcases hinv.kept hr with hsrc | hdest
  · have hat : entryAt .dir (stateAfter host src dest tree done).src r = some x := by
      rw [entryAt_of_ne_nil (h.isTree.ne_nil hr), hsrc]
    refine keeps_run h rest (done ++ [q]) (by rw [htree, List.append_assoc]; rfl) ?_
    refine (outcome_run host h htree).makes h.isTree hinv hreads hat ?_ hp hnil ?_
    · refine hfound.imp_left fun hx => ?_
      rw [hx]
      rfl
    · by_cases hne : p = r
      · rw [← hne, he] at hr
        cases hr
        exact .inr rfl
      · exact .inl hne
  · refine keeps_run h _ done htree ?_
    by_cases hne : p = r
    · rw [hne, hdest, ← hr, ← hne, he]
    · exact hinv.closed r x hdest p hp hnil hne

/-- **Enough**: under the condition all entries get to the module. -/
theorem installed_of_allNamed (h : Setting src dest tree) (hnamed : AllNamed host src dest tree) :
    Installed tree (stateAfter host src dest tree tree) := by
  have hinv := inv_run host h tree [] (List.append_nil tree).symm
  -- no entry of the output is missing
  have hall : ∀ p e, tree.lookup p = some e →
      (stateAfter host src dest tree tree).dest.lookup p = some e := by
    intro p e he
    cases e with
    | file object =>
      obtain ⟨q, hq, hreads, htext⟩ := hnamed.files p object he
      obtain ⟨done, rest, htree⟩ := List.append_of_mem hq
      exact moved_run h hnamed he htree hreads htext rfl rfl
    | link target =>
      obtain ⟨done, q, rest, htree, hreads, htext, hdir, hrename⟩ := hnamed.links p target he
      exact moved_run h hnamed he htree hreads htext hdir hrename
    | dir =>
      obtain ⟨q, hq, r, x, hreads, hp, hr, hfound⟩ := hnamed.dirs p he
      obtain ⟨done, rest, htree⟩ := List.append_of_mem hq
      exact made_run h he hp hr htree hreads hfound
  intro p
  cases he : tree.lookup p with
  | some e => exact hall p e he
  | none =>
    cases hdest : (stateAfter host src dest tree tree).dest.lookup p with
    | none => rfl
    | some e =>
      by_cases hdir : e = .dir
      · subst hdir
        rw [dir_sub h hnamed hdest] at he
        cases he
      · rw [(hinv.moved hdest hdir).1] at he
        cases he

/-- A link that counts as a directory at its turn would become one for good. -/
theorem turns_of_installed (h : Setting src dest tree)
    (hinstalled : Installed tree (stateAfter host src dest tree tree)) {done rest : Tree}
    {q : Path × Entry} {p : Path} {target : Name} (htree : tree = done ++ q :: rest)
    (hreads : reads src q.1 = some p)
    (hsrc : (stateAfter host src dest tree done).src.lookup p = some (.link target)) :
    isDir host (stateAfter host src dest tree done) p (.link target) = false := by
  by_contra hdir
  have hinv := inv_run host h done _ htree
  have hthere := hinv.src_sub hsrc
  have hnil := h.isTree.ne_nil hthere
  have hat : entryAt .dir (stateAfter host src dest tree done).src p = some (.link target) := by
    rw [entryAt_of_ne_nil hnil, hsrc]
  have hmade := (outcome_run host h htree).makes h.isTree hinv hreads hat (.inl (by simpa using hdir))
    List.prefix_rfl hnil (.inr (by simpa using hdir))
  have hend := keeps_run h rest (done ++ [q]) (by rw [htree, List.append_assoc]; rfl) hmade
  rw [hinstalled p, hthere] at hend
  cases hend

/-- **Necessary**: if they do, the condition holds. -/
theorem allNamed_of_installed (h : Setting src dest tree)
    (hinstalled : Installed tree (stateAfter host src dest tree tree)) :
    AllNamed host src dest tree := by
  have hfound : ∀ p e, tree.lookup p = some e → ∃ done q rest,
      tree = done ++ q :: rest ∧ Puts host src (stateAfter host src dest tree done) q.1 p e :=
    fun p e he => puts_run h tree [] e (List.append_nil tree).symm ((hinstalled p).trans he)
  refine ⟨fun p he => ?_, fun p object he => ?_, fun p target he => ?_,
    fun _ _ _ _ _ => turns_of_installed h hinstalled⟩
  · obtain ⟨done, q, rest, htree, hputs⟩ := hfound p .dir he
    have hinv := inv_run host h done _ htree
    have hmem : q ∈ tree := by
      rw [htree]
      simp
    have hr : ∀ {r : Path}, p <+: r → r ≠ [] := by
      rintro r hp rfl
      exact h.isTree.ne_nil he (List.prefix_nil.1 hp)
    cases hputs with
    | @dir r x hreads hat hdir hp =>
      refine ⟨q, hmem, r, x, hreads, hp, ?_, .inl ?_⟩
      · exact (entryAt_of_ne_nil (hr hp)).symm.trans (hinv.entryAt_src hat)
      · rw [entryAt_of_ne_nil (hr hp)] at hat
        cases x with
        | dir => rfl
        | file object => cases hdir
        | link target =>
          rw [turns_of_installed h hinstalled htree hreads hat] at hdir
          cases hdir
    | @above r x hreads hat hdir htext hp hne =>
      refine ⟨q, hmem, r, x, hreads, hp, ?_, .inr htext⟩
      exact (entryAt_of_ne_nil (hr hp)).symm.trans (hinv.entryAt_src hat)
    | moved hreads hat hdir => cases hdir
  · obtain ⟨done, q, rest, htree, hputs⟩ := hfound p _ he
    cases hputs with
    | moved hreads hat hdir htext =>
      refine ⟨q, ?_, hreads, htext⟩
      rw [htree]
      simp
  · obtain ⟨done, q, rest, htree, hputs⟩ := hfound p _ he
    cases hputs with
    | moved hreads hat hdir htext hrename =>
      exact ⟨done, q, rest, htree, hreads, htext, hdir, hrename⟩

/-- **The binary module** has exactly the entries of the output iff each of
    them is named. -/
theorem installs_iff (host : Host) (h : Setting src dest tree) :
    Installed tree (installModule host src dest (binaryRules tree) ⟨tree, []⟩) ↔
      AllNamed host src dest tree :=
  ⟨allNamed_of_installed h, installed_of_allNamed h⟩

/-! ## Section 3: Names without unusual blanks -/

/-- A path whose text is read as it is. -/
def Plain (p : Path) : Prop := ruleText p = slashed p

theorem reads_plain (hsrc : ∀ name ∈ src, IsName name) {p : Path} (hp : ∀ name ∈ p, IsName name)
    (hplain : Plain p) : reads src p = some p := by
  have htext : slashed src ++ '/' :: slashed p = slashed (src ++ [] :: p) := by
    rw [slashed_append, slashed_cons, List.nil_append]
  have hall : ∀ name ∈ src ++ [] :: p, '/' ∉ name := by
    intro name hname
    rcases List.mem_append.1 hname with hname | hname
    · exact (hsrc name hname).noSlash
    · rcases List.mem_cons.1 hname with rfl | hname
      · simp
      · exact (hp name hname).noSlash
  have hresolve : resolve (slashed src ++ '/' :: slashed p) = some (src ++ p) := by
    unfold resolve
    rw [htext, splitOn_slashed hall, walk, if_pos (.inl rfl), walk_append hsrc, List.nil_append,
      walk, if_pos (.inl rfl)]
    have hwalk : walk src (p ++ []) = walk (src ++ p) [] := walk_append hp []
    rwa [List.append_nil, walk] at hwalk
  rw [reads, hplain, meant, hresolve, Option.bind_some, if_pos (isPrefixOf_append src p),
    List.drop_left]

/-- Plain paths go through no link. -/
theorem straight_plain (hsrc : ∀ name ∈ src, IsName name) (htree : IsTree tree)
    (hplain : ∀ e ∈ tree, Plain e.1) (hnoSrc : ∀ e ∈ tree, ¬ slashed src <:+: slashed e.1) :
    Straight src tree := by
  refine ⟨hnoSrc, fun e he p hreads => ?_⟩
  rw [reads_plain hsrc (htree.names e he).2 (hplain e he)] at hreads
  cases hreads
  refine not_passesLink_iff.2 fun q hq hne => ?_
  by_cases hnil : q = []
  · rw [hnil, htree.lookup_nil]
    rfl
  · rw [htree.closed e.1 e.2 (htree.lookup_of_mem he) q hq hnil hne]
    rfl

/-- **Plain names**: of a tree with such paths, only links can be lost. Each
    has its own turn. -/
theorem allNamed_plain (h : Setting src dest tree) (hsrc : ∀ name ∈ src, IsName name)
    (hplain : ∀ e ∈ tree, Plain e.1)
    (hlinks : ∀ done p target rest, tree = done ++ (p, .link target) :: rest →
      isDir host (stateAfter host src dest tree done) p (.link target) = false ∧
        canRename host (mkpath (stateAfter host src dest tree done) p.dropLast) p
          (.link target) = true) :
    AllNamed host src dest tree := by
  have hreads : ∀ e ∈ tree, reads src e.1 = some e.1 ∧ meansDirectory (ruleText e.1) = false := by
    intro e he
    obtain ⟨hne, hnames⟩ := h.isTree.names e he
    refine ⟨reads_plain hsrc hnames (hplain e he), ?_⟩
    rw [hplain e he]
    exact meansDirectory_slashed hnames hne
  refine ⟨fun p he => ?_, fun p object he => ?_, fun p target he => ?_,
    fun done q rest p target hsplit hq hlookup => ?_⟩
  · have hmem := mem_of_lookup he
    exact ⟨_, hmem, p, .dir, (hreads _ hmem).1, List.prefix_rfl, he, .inl rfl⟩
  · have hmem := mem_of_lookup he
    exact ⟨_, hmem, hreads _ hmem⟩
  · have hmem := mem_of_lookup he
    obtain ⟨done, rest, hsplit⟩ := List.append_of_mem hmem
    exact ⟨done, _, rest, hsplit, (hreads _ hmem).1, (hreads _ hmem).2,
      hlinks done p target rest hsplit⟩
  · have hmem : q ∈ tree := by
      rw [hsplit]
      simp
    rw [(hreads q hmem).1] at hq
    cases hq
    -- what is still in the output is the entry itself
    have hthere := (inv_run host h done _ hsplit).src_sub hlookup
    rw [h.isTree.lookup_of_mem hmem] at hthere
    obtain ⟨p, e⟩ := q
    cases hthere
    exact (hlinks done p target rest hsplit).1

end Runs

/-- A system in which links lead to other entries of the same directory, and
    which does not rename a link that leads nowhere. -/
def siblings : Host where
  follow t p :=
    match t.src.lookup p with
    | some (.link target) => (t.src.lookup (p.dropLast ++ [target])).map (· = .dir)
    | _ => none
  throughLink t _ := t
  renamesDangling := false
  hasMatch _ _ := false

/-- `linglong/output/_build` and `linglong/output/binary/files` of a project. -/
def buildDir : Path := ["linglong".toList, "output".toList, "_build".toList]

def binaryDir : Path := ["linglong".toList, "output".toList, "binary".toList, "files".toList]

/-- A tree without directories below its first one. -/
theorem isTree_of_names {tree : Tree} (hnodup : (tree.map Prod.fst).Nodup)
    (h : ∀ e ∈ tree, e.1.length = 1 ∧ ∀ name ∈ e.1, IsName name) : IsTree tree where
  nodup := hnodup
  names e he := ⟨List.length_pos_iff.1 (by rw [(h e he).1]; decide), (h e he).2⟩
  closed := by
    intro p e he q hq hnil hne
    have hlen : p.length = 1 := (h _ (mem_of_lookup he)).1
    have hpos := List.length_pos_iff.2 hnil
    exact absurd (hq.eq_of_length_le (by omega)) hne

theorem isName_buildDir : ∀ name ∈ buildDir ++ binaryDir, IsName name := by decide

/-- A link before the file it leads to. -/
def linkFirst : Tree := [(["sh".toList], .link "bash".toList), (["bash".toList], .file 1)]

theorem isTree_linkFirst : IsTree linkFirst := isTree_of_names (by decide) (by decide)

theorem plain_linkFirst : ∀ e ∈ linkFirst, Plain e.1 := by
  unfold Plain
  decide

theorem setting_linkFirst : Setting buildDir binaryDir linkFirst where
  src_ne := by decide
  names name hname := isName_buildDir name (List.mem_append_right _ hname)
  isTree := isTree_linkFirst
  straight := straight_plain (fun name hname => isName_buildDir name (List.mem_append_left _ hname))
    isTree_linkFirst plain_linkFirst (by decide)

/-- Both get to the module, and the link is a link. -/
theorem installs_linkFirst :
    Installed linkFirst (installModule siblings buildDir binaryDir (binaryRules linkFirst)
      ⟨linkFirst, []⟩) := by
  refine (installs_iff siblings setting_linkFirst).2 (allNamed_plain setting_linkFirst
    (fun name hname => isName_buildDir name (List.mem_append_left _ hname)) plain_linkFirst ?_)
  intro done p target rest hsplit
  cases done with
  | nil =>
    -- the file is still there when it is the turn of the link
    cases hsplit
    exact ⟨by decide, by decide⟩
  | cons e done =>
    cases done with
    | nil => cases hsplit
    | cons e done =>
      have hlen := congrArg List.length hsplit
      simp [linkFirst] at hlen

/-- A link to a directory. -/
def linkToDir : Tree := [(["lib".toList], .dir), (["lib64".toList], .link "lib".toList)]

theorem isTree_linkToDir : IsTree linkToDir := isTree_of_names (by decide) (by decide)

/-- The link becomes an empty directory. -/
theorem not_installs : ¬ ∀ (host : Host) (src dest : Path) (tree : Tree), src ≠ [] →
    (∀ name ∈ src ++ dest, IsName name) → IsTree tree →
      Installed tree (installModule host src dest (binaryRules tree) ⟨tree, []⟩) := by
  intro h
  have hlink := h siblings buildDir binaryDir linkToDir (by decide) isName_buildDir
    isTree_linkToDir ["lib64".toList]
  have hdir : (installModule siblings buildDir binaryDir (binaryRules linkToDir)
      ⟨linkToDir, []⟩).dest.lookup ["lib64".toList] = some .dir := by decide
  rw [hdir] at hlink
  cases hlink

end Linglong.InstallModule
