import Linglong.Runtime.MountView
import Linglong.Runtime.TmpfsPaths

/-! # The Mounts that are Inserted

    `fixMount` inserts the entries of the old root, and for each directory
    that becomes a `tmpfs` the `tmpfs` and the entries of the directory. The
    last of these directories at or above a path decides what is at the path.

    1. Files and names.
    2. The deepest existing ancestor (`tmpfsFor_eq_some_iff`).
    3. The mounts, by the paths (`inserted_eq`).
    4. The last directory at or above a path.
-/

namespace Linglong.FixMount

open Framework
open Generators (OciMount)

/-! ## Section 1: Files and names -/

/-- The last element with a property. -/
theorem exists_last {α : Type} {P : α → Prop} {l : List α} (h : ∃ a ∈ l, P a) :
    ∃ pre a post, l = pre ++ a :: post ∧ P a ∧ ∀ b ∈ post, ¬ P b := by
  induction l with
  | nil =>
    obtain ⟨a, ha, -⟩ := h
    cases ha
  | cons a l ih =>
    by_cases hl : ∃ b ∈ l, P b
    · obtain ⟨pre, b, post, heq, hb, hpost⟩ := ih hl
      exact ⟨a :: pre, b, post, by rw [heq]; rfl, hb, hpost⟩
    · obtain ⟨b, hb, hP⟩ := h
      rcases List.mem_cons.1 hb with rfl | hb
      · exact ⟨[], b, l, rfl, hP, fun c hc hPc => hl ⟨c, hc, hPc⟩⟩
      · exact absurd ⟨b, hb, hP⟩ hl

/-- What is above a file is there. -/
theorem Host.files_above (host : Host) {p q : Path} (hp : (host.files p).isSome = true)
    (hq : q <+: p) (hne : q ≠ []) : (host.files q).isSome = true := by
  induction p using List.reverseRecOn with
  | nil => exact absurd (List.prefix_nil.1 hq) hne
  | append_singleton p n ih =>
    rcases List.prefix_concat_iff.1 hq with rfl | hq
    · exact hp
    · rcases host.parent hp with rfl | hdir
      · exact absurd (List.prefix_nil.1 hq) hne
      · exact ih (by rw [hdir]; rfl) hq

/-- Where a path leads, there is something. -/
theorem Host.node_of_place (host : Host) {p q : Path} (h : host.place p = some q) :
    (host.tree.node q).isSome = true := by
  have hup : ∀ p, (host.tree.node p).isSome = true → (host.tree.node p.dropLast).isSome = true := by
    intro p hp
    by_cases hnil : p.dropLast = []
    · rw [hnil]
      rfl
    · have hne : p ≠ [] := fun h => hnil (by rw [h]; rfl)
      rw [FileTree.node, if_neg (by simpa using hne)] at hp
      rw [FileTree.node, if_neg (by simpa using hnil)]
      exact host.files_above hp (List.dropLast_prefix p) hnil
  unfold Host.place at h
  cases hwalk : host.tree.walk true Generators.maxSymlinks [] (p.map .down) with
  | error e =>
    rw [hwalk] at h
    cases h
  | ok place =>
    rw [hwalk] at h
    cases h
    exact FileTree.walk_node hup rfl hwalk

/-- The next name on the way to a path. -/
theorem exists_next {t x : Path} (h : t <+: x) (hne : x ≠ t) : ∃ n, t ++ [n] <+: x := by
  obtain ⟨rest, rfl⟩ := h
  cases rest with
  | nil => exact absurd (List.append_nil t) hne
  | cons n rest => exact ⟨n, rest, by rw [List.append_assoc]; rfl⟩

theorem Host.mem_names_of_next (host : Host) {place t x : Path} {n : Name}
    (hx : (host.files (place ++ x)).isSome = true) (h : t ++ [n] <+: x) :
    n ∈ host.names (place ++ t) := by
  rw [host.mem_names, List.append_assoc]
  exact host.files_above hx ((List.prefix_append_right_inj place).2 h) (by simp)

theorem Host.isName_of_files (host : Host) {p : Path} (hp : (host.files p).isSome = true) :
    ∀ name ∈ p, IsName name := by
  induction p using List.reverseRecOn with
  | nil => exact fun name hname => by cases hname
  | append_singleton p n ih =>
    intro name hname
    rcases List.mem_append.1 hname with hname | hname
    · have hne : p ≠ [] := List.ne_nil_of_mem hname
      exact ih (host.files_above hp (List.prefix_append p [n]) hne) name hname
    · rw [List.mem_singleton.1 hname]
      exact host.isName (host.mem_names.2 hp)

theorem isName_cleanPath {rest : List Name} : ∀ {here : Path}, (∀ n ∈ rest, '/' ∉ n) →
    (∀ n ∈ here, IsName n) → ∀ n ∈ cleanPath here rest, IsName n := by
  induction rest with
  | nil => exact fun _ hhere => hhere
  | cons n rest ih =>
    intro here hrest hhere
    have htail := fun m hm => hrest m (List.mem_cons_of_mem _ hm)
    rw [cleanPath]
    split
    · exact ih htail hhere
    · next hstay =>
      rw [not_or] at hstay
      split
      · exact ih htail fun m hm => hhere m ((List.dropLast_prefix here).subset hm)
      · next hup =>
        refine ih htail fun m hm => ?_
        rcases List.mem_append.1 hm with hm | hm
        · exact hhere m hm
        · rw [List.mem_singleton.1 hm]
          exact ⟨hstay.1, hrest n List.mem_cons_self, hstay.2, hup⟩

theorem isName_pathOf (text : List Char) : ∀ name ∈ pathOf text, IsName name :=
  isName_cleanPath (fun _ hn => not_mem_splitOn hn) fun _ hn => by cases hn

/-! ## Section 2: The deepest existing ancestor -/

/-- The destination of a mount is missing below the root, and its deepest
    existing ancestor lies strictly below the root. -/
structure Missing (host : Host) (root : Path) (m : OciMount) (p : Path) : Prop where
  absolute : m.destination.toList.head? = some '/'
  missing : host.exists' (hostSource root m.destination.toList) = false
  above : p <+: hostSource root m.destination.toList
  found : host.exists' p = true
  deepest : ∀ q, q <+: hostSource root m.destination.toList → host.exists' q = true → q <+: p
  below : root <+: p
  ne_root : p ≠ root

/-- The loop over the components finds the deepest existing ancestor. -/
theorem existsPath_spec (host : Host) (rev : List Name) :
    (∀ p, existsPath host rev = some p → p ≠ [] ∧ p <+: rev.reverse ∧ host.exists' p = true ∧
      ∀ q, q <+: rev.reverse → host.exists' q = true → q <+: p) ∧
    (existsPath host rev = none → ∀ q, q <+: rev.reverse → host.exists' q = true → q = []) := by
  induction rev with
  | nil =>
    refine ⟨fun p hp => ?_, fun _ q hq _ => List.prefix_nil.1 hq⟩
    cases hp
  | cons n rev ih =>
    rw [existsPath]
    by_cases hn : host.exists' (n :: rev).reverse = true
    · rw [if_pos hn]
      constructor
      · intro p hp
        obtain rfl := Option.some.inj hp
        exact ⟨by simp, List.prefix_rfl, hn, fun q hq _ => hq⟩
      · intro hnone
        cases hnone
    · rw [if_neg hn]
      -- a longer ancestor would be the path itself
      have hless : ∀ q, q <+: (n :: rev).reverse → host.exists' q = true → q <+: rev.reverse := by
        intro q hq hex
        rw [List.reverse_cons] at hq
        rcases List.prefix_concat_iff.1 hq with rfl | hq
        · rw [← List.reverse_cons] at hex
          exact absurd hex hn
        · exact hq
      refine ⟨fun p hp => ?_, fun hnone q hq hex => ih.2 hnone q (hless q hq hex) hex⟩
      obtain ⟨hne, hprefix, hex, hdeepest⟩ := ih.1 p hp
      refine ⟨hne, hprefix.trans ?_, hex, fun q hq hex => hdeepest q (hless q hq hex) hex⟩
      rw [List.reverse_cons]
      exact List.prefix_append _ _

/-- The ancestor that the code goes on with. -/
theorem tmpfsFor_eq_some_iff {host : Host} {root p : Path} {m : OciMount} (hbelow : root <+: p) :
    tmpfsFor host root m = some p ↔ Missing host root m p := by
  have hlt : ¬ slashed p ≤ slashed root ↔ p ≠ root := by
    obtain ⟨rest, rfl⟩ := hbelow
    rw [not_le, slashed_append, lt_append_iff, ne_eq, slashed_eq_nil_iff]
    simp
  obtain ⟨hsome, hnone⟩ := existsPath_spec host (hostSource root m.destination.toList).reverse
  rw [List.reverse_reverse] at hsome hnone
  unfold tmpfsFor
  dsimp only
  constructor
  · intro h
    split at h
    · cases h
    next habsolute =>
    split at h
    · cases h
    next hmissing =>
    obtain ⟨hpath, hskip⟩ := Option.filter_eq_some_iff.1 h
    obtain ⟨-, habove, hfound, hdeepest⟩ := hsome p hpath
    exact ⟨not_not.1 habsolute, by simpa using hmissing, habove, hfound, hdeepest, hbelow,
      hlt.1 (of_decide_eq_true hskip)⟩
  · intro h
    rw [if_neg (not_not.2 h.absolute), if_neg (by simp [h.missing])]
    have hne : p ≠ [] := by
      rintro rfl
      exact h.ne_root (List.prefix_nil.1 h.below).symm
    obtain ⟨p', hp'⟩ :
        ∃ p', existsPath host (hostSource root m.destination.toList).reverse = some p' := by
      cases hpath : existsPath host (hostSource root m.destination.toList).reverse with
      | none => exact absurd (hnone hpath p h.above h.found) hne
      | some p' => exact ⟨p', rfl⟩
    obtain ⟨-, habove, hfound, hdeepest⟩ := hsome p' hp'
    have heq : p' = p := by
      have hle := h.deepest p' habove hfound
      exact hle.eq_of_length (le_antisymm hle.length_le (hdeepest p h.above h.found).length_le)
    rw [hp', heq]
    exact Option.filter_eq_some_iff.2 ⟨rfl, decide_eq_true (hlt.2 h.ne_root)⟩

/-! ## Section 3: The mounts, by the paths -/

section Plan

variable (host : Host) (root rootPlace : Path) (mounts : List OciMount)

/-- The deepest existing ancestors of the missing destinations, below the
    root. -/
def ancestors : List Path :=
  (mounts.filterMap (tmpfsFor host root)).map fun p => p.drop root.length

/-- What is assumed. The ancestors lie below the root, and no link leads to
    them. -/
structure Setting : Prop where
  place : host.place root = some rootPlace
  below : ∀ p ∈ mounts.filterMap (tmpfsFor host root), root <+: p
  noLink : ∀ e ∈ ancestors host root mounts, ∀ t, t <+: e →
    host.place (root ++ t) = some (rootPlace ++ t)

/-- The names that are listed in a directory. -/
def listed (dir : Path) : List Name := (host.names dir).filter fun n => n.head? ≠ some '.'

/-- The bind mounts of the entries of a directory below the root. -/
def binds (t : Path) : List OciMount :=
  (listed host (rootPlace ++ t)).map fun n =>
    bindMount (slashed root) (slashed (root ++ (t ++ [n])))
      (Host.isLink (host.files (rootPlace ++ t ++ [n])))

/-- What is inserted for a directory: a `tmpfs`, but not for the root, and the
    bind mounts of its entries. -/
def layer (t : Path) : List OciMount :=
  (if t = [] then [] else [tmpfsMount (slashed root) (slashed (root ++ t))]) ++
    binds host root rootPlace t

/-- The mounts that are inserted for some paths. -/
def insertedOf (ts : List Path) : List OciMount := ([] :: ts).flatMap (layer host root rootPlace)

/-- The mounts that `fixMount` returns. -/
def planOf : List OciMount :=
  left (insertedOf host root rootPlace (tmpfsOf (ancestors host root mounts)) ++ mounts)

end Plan

/-- A bind mount of what is at the same path of the old root. -/
structure IsBind (root : Path) (m : OciMount) (q : Path) : Prop where
  target : target m = q
  type : m.type = "bind"
  source : pathOf m.source.toList = root ++ q

section Inserted

variable {host : Host} {root rootPlace : Path} {mounts : List OciMount}

theorem target_tmpfsMount {t : Path} (ht : ∀ name ∈ t, IsName name) :
    target (tmpfsMount (slashed root) (slashed (root ++ t))) = t := by
  rw [target, tmpfsMount, String.toList_ofList, slashed_append, List.drop_left,
    (pathOf_slashed ht).1]

theorem isName_listed {t : Path} (ht : ∀ name ∈ t, IsName name) {n : Name}
    (hn : n ∈ listed host (rootPlace ++ t)) : ∀ name ∈ t ++ [n], IsName name := by
  intro name hname
  rcases List.mem_append.1 hname with hname | hname
  · exact ht name hname
  · rw [List.mem_singleton.1 hname]
    exact host.isName (List.mem_of_mem_filter hn)

theorem ancestors_ne_nil (h : Setting host root rootPlace mounts) :
    ∀ e ∈ ancestors host root mounts, e ≠ [] := by
  intro e he hnil
  obtain ⟨p, hp, rfl⟩ := List.mem_map.1 he
  -- an ancestor that is the root itself is skipped
  obtain ⟨rest, hrest⟩ := h.below p hp
  rw [← hrest, List.drop_left] at hnil
  rw [hnil, List.append_nil] at hrest
  obtain ⟨m, -, hm⟩ := List.mem_filterMap.1 hp
  exact ((tmpfsFor_eq_some_iff (h.below p hp)).1 hm).ne_root hrest.symm

/-- The ancestors are in the tree of the old root. -/
theorem Setting.inTree (h : Setting host root rootPlace mounts) :
    ∀ e ∈ ancestors host root mounts, (host.files (rootPlace ++ e)).isSome = true := by
  intro e he
  have hnode := host.node_of_place (h.noLink e he e List.prefix_rfl)
  rwa [FileTree.node, if_neg (by simp [ancestors_ne_nil h e he])] at hnode

theorem belowRoot_ancestors (h : Setting host root rootPlace mounts) :
    ∀ e ∈ ancestors host root mounts, BelowRoot e := by
  intro e he
  have hnames := host.isName_of_files (h.inTree e he)
  exact ⟨ancestors_ne_nil h e he, fun name hname => hnames name (List.mem_append_right _ hname)⟩

variable (hroot : ∀ name ∈ root, IsName name)
include hroot

theorem isName_append {t : Path} (ht : ∀ name ∈ t, IsName name) :
    ∀ name ∈ root ++ t, IsName name := by
  intro name hname
  rcases List.mem_append.1 hname with hname | hname
  · exact hroot name hname
  · exact ht name hname

theorem isBind_bindMount {q : Path} (hq : ∀ name ∈ q, IsName name) (isSymLink : Bool) :
    IsBind root (bindMount (slashed root) (slashed (root ++ q)) isSymLink) q := by
  refine ⟨?_, rfl, ?_⟩
  · rw [target, bindMount, String.toList_ofList, slashed_append, List.drop_left,
      (pathOf_slashed hq).1]
  · rw [bindMount, String.toList_ofList, (pathOf_slashed (isName_append hroot hq)).1]

theorem isBind_of_mem {t : Path} (ht : ∀ name ∈ t, IsName name) {m : OciMount}
    (hm : m ∈ binds host root rootPlace t) :
    ∃ n ∈ listed host (rootPlace ++ t), IsBind root m (t ++ [n]) := by
  obtain ⟨n, hn, rfl⟩ := List.mem_map.1 hm
  exact ⟨n, hn, isBind_bindMount hroot (isName_listed ht hn) _⟩

theorem exists_bind {t : Path} (ht : ∀ name ∈ t, IsName name) {n : Name}
    (hn : n ∈ listed host (rootPlace ++ t)) :
    ∃ m ∈ binds host root rootPlace t, IsBind root m (t ++ [n]) :=
  ⟨_, List.mem_map_of_mem hn, isBind_bindMount hroot (isName_listed ht hn) _⟩

theorem entryBinds_eq {t : Path} (ht : ∀ name ∈ t, IsName name)
    (hplace : host.place (root ++ t) = some (rootPlace ++ t)) :
    entryBinds host root (slashed (root ++ t)) = binds host root rootPlace t := by
  unfold entryBinds Host.entryInfoList
  rw [(pathOf_slashed (isName_append hroot ht)).1, hplace]
  dsimp only
  rw [List.map_map, binds]
  refine List.map_congr_left fun n _ => ?_
  have htext : slashed (root ++ t) ++ '/' :: n = slashed (root ++ (t ++ [n])) := by simp
  rw [Function.comp_apply, htext]

/-- The texts of the paths that become a `tmpfs`. -/
theorem tmpfsPaths_eq (h : Setting host root rootPlace mounts) :
    tmpfsPaths host root mounts =
      (tmpfsOf (ancestors host root mounts)).map fun t => slashed (root ++ t) := by
  have htexts : (mounts.filterMap (tmpfsFor host root)).map slashed =
      (ancestors host root mounts).map fun e => slashed (root ++ e) := by
    rw [ancestors, List.map_map]
    refine List.map_congr_left fun p hp => ?_
    obtain ⟨rest, hrest⟩ := h.below p hp
    rw [Function.comp_apply, ← hrest, List.drop_left]
  rw [tmpfsPaths, htexts]
  exact foldl_addTmpfs hroot _ [] (belowRoot_ancestors h) fun t ht => by cases ht

/-- **What is inserted**, by the paths. -/
theorem inserted_eq (h : Setting host root rootPlace mounts) :
    inserted host root mounts =
      insertedOf host root rootPlace (tmpfsOf (ancestors host root mounts)) := by
  have hbelow := belowRoot_ancestors h
  have hnil : entryBinds host root (slashed root) = binds host root rootPlace [] := by
    have hplace : host.place (root ++ []) = some (rootPlace ++ []) := by
      rw [List.append_nil, List.append_nil, h.place]
    have heq := entryBinds_eq hroot (fun name hname => by cases hname) hplace
    rwa [List.append_nil] at heq
  rw [inserted, insertedOf, tmpfsPaths_eq hroot h, hnil, List.flatMap_cons, List.flatMap_map, layer,
    if_pos rfl, List.nil_append]
  refine congrArg _ (List.flatMap_congr fun t ht => ?_)
  obtain ⟨hbelow, e, he, hte⟩ := tmpfsOf_above hbelow t ht
  rw [layer, if_neg hbelow.ne_nil, entryBinds_eq hroot hbelow.names (h.noLink e he t hte)]
  rfl

/-! ## Section 4: The last directory at or above a path -/

/-- The last directory at or above a path, of the root and those that become a
    `tmpfs`, and those after it. -/
structure LastDir (ts : List Path) (x t : Path) (post : List Path) : Prop where
  split : ∃ pre, [] :: ts = pre ++ t :: post
  above : t <+: x
  last : ∀ t' ∈ post, ¬ t' <+: x

omit hroot in
theorem exists_lastDir (ts : List Path) (x : Path) : ∃ t post, LastDir ts x t post := by
  obtain ⟨pre, t, post, hsplit, ht, hpost⟩ :=
    exists_last (P := fun t : Path => t <+: x) ⟨[], List.mem_cons_self, List.nil_prefix⟩
  exact ⟨t, post, ⟨pre, hsplit⟩, ht, hpost⟩

omit hroot in
theorem LastDir.names {ts post : List Path} {x t : Path} (hd : LastDir ts x t post)
    (hts : ∀ t ∈ ts, BelowRoot t) : ∀ t' ∈ t :: post, ∀ name ∈ t', IsName name := by
  obtain ⟨pre, hsplit⟩ := hd.split
  intro t' ht'
  have hmem : t' ∈ [] :: ts := by
    rw [hsplit]
    exact List.mem_append_right _ ht'
  rcases List.mem_cons.1 hmem with rfl | hmem
  · exact fun name hname => by cases hname
  · exact (hts t' hmem).names

theorem not_covers_binds {t x : Path} (ht : ∀ name ∈ t, IsName name)
    (h : ∀ n ∈ listed host (rootPlace ++ t), ¬ t ++ [n] <+: x) :
    ∀ m ∈ binds host root rootPlace t, ¬ target m <+: x := by
  intro m hm
  obtain ⟨n, hn, hbind⟩ := isBind_of_mem hroot ht hm
  rw [hbind.target]
  exact h n hn

/-- The mounts of a directory go to it or below it. -/
theorem mem_layer {t : Path} (ht : ∀ name ∈ t, IsName name) {m : OciMount}
    (hm : m ∈ layer host root rootPlace t) :
    target m = t ∨ ∃ n ∈ listed host (rootPlace ++ t), target m = t ++ [n] := by
  rcases List.mem_append.1 hm with hm | hm
  · split at hm
    · cases hm
    · rw [List.mem_singleton.1 hm]
      exact .inl (target_tmpfsMount ht)
  · obtain ⟨n, hn, hbind⟩ := isBind_of_mem hroot ht hm
    exact .inr ⟨n, hn, hbind.target⟩

theorem not_covers_layers {post : List Path} {x : Path}
    (hnames : ∀ t ∈ post, ∀ name ∈ t, IsName name) (h : ∀ t ∈ post, ¬ t <+: x) :
    ∀ m ∈ post.flatMap (layer host root rootPlace), ¬ target m <+: x := by
  intro m hm hx
  obtain ⟨t, ht, hm⟩ := List.mem_flatMap.1 hm
  rcases mem_layer hroot (hnames t ht) hm with heq | ⟨n, -, heq⟩
  · exact h t ht (heq ▸ hx)
  · rw [heq] at hx
    exact h t ht ((List.prefix_append t [n]).trans hx)

/-- The mounts that come after the `tmpfs` of the last directory. -/
def later (host : Host) (root rootPlace : Path) (mounts : List OciMount) (t : Path)
    (post : List Path) : List OciMount :=
  binds host root rootPlace t ++ (post.flatMap (layer host root rootPlace) ++ mounts)

variable (host root rootPlace mounts) in
omit hroot in
theorem LastDir.plan {ts post : List Path} {x t : Path} (hd : LastDir ts x t post) :
    ∃ pre, insertedOf host root rootPlace ts ++ mounts =
      pre ++ ((if t = [] then [] else [tmpfsMount (slashed root) (slashed (root ++ t))]) ++
        later host root rootPlace mounts t post) := by
  obtain ⟨pre, hsplit⟩ := hd.split
  refine ⟨pre.flatMap (layer host root rootPlace), ?_⟩
  rw [insertedOf, hsplit, List.flatMap_append, List.flatMap_cons, later]
  simp [layer]

omit hroot in
theorem LastDir.plan_root {ts post : List Path} {x t : Path} (hd : LastDir ts x t post)
    (hts : ∀ t ∈ ts, BelowRoot t) (ht : t = []) :
    insertedOf host root rootPlace ts ++ mounts = later host root rootPlace mounts t post := by
  obtain ⟨pre, hsplit⟩ := hd.split
  subst ht
  cases pre with
  | nil =>
    obtain ⟨-, rfl⟩ := List.cons.inj hsplit
    simp [insertedOf, later, layer]
  | cons t₁ pre =>
    -- none of the others is the root
    have hmem : ([] : Path) ∈ ts := by
      rw [(List.cons.inj hsplit).2]
      simp
    exact absurd rfl (hts [] hmem).ne_nil

section Last

variable {ts post : List Path} {x t : Path} (hts : ∀ t ∈ ts, BelowRoot t) (hd : LastDir ts x t post)
  (hmounts : ∀ m ∈ mounts, ¬ target m <+: x)
include hts hd hmounts

/-- A path is on the bind mount of an entry of the last directory, if one is
    there, -/
theorem seen_bind {n : Name} (hn : n ∈ listed host (rootPlace ++ t)) (hx : t ++ [n] <+: x) :
    (mountAll (left (insertedOf host root rootPlace ts ++ mounts))).shown x = .host (root ++ x) ∧
      ∃ m, (mountAll (left (insertedOf host root rootPlace ts ++ mounts))).on x = some m ∧
        m.type = "bind" := by
  have hnames := hd.names hts
  have ht := hnames t List.mem_cons_self
  obtain ⟨m, hm, hbind⟩ := exists_bind hroot ht hn
  obtain ⟨pre, m', post', heq, hcovers, hpost'⟩ :=
    exists_last (P := fun m => target m <+: x) ⟨m, hm, by rwa [hbind.target]⟩
  have hm' : m' ∈ binds host root rootPlace t := by
    rw [heq]
    simp
  obtain ⟨n', -, hbind'⟩ := isBind_of_mem hroot ht hm'
  obtain ⟨before, hplan⟩ := hd.plan host root rootPlace mounts
  have hlast : ∀ m ∈ post' ++ (post.flatMap (layer host root rootPlace) ++ mounts),
      ¬ target m <+: x := by
    intro m hm
    rcases List.mem_append.1 hm with hm | hm
    · exact hpost' m hm
    rcases List.mem_append.1 hm with hm | hm
    · exact not_covers_layers hroot (fun t ht => hnames t (List.mem_cons_of_mem _ ht)) hd.last m hm
    · exact hmounts m hm
  have hwhole : insertedOf host root rootPlace ts ++ mounts =
      (before ++ ((if t = [] then [] else [tmpfsMount (slashed root) (slashed (root ++ t))]) ++ pre)) ++
        m' :: (post' ++ (post.flatMap (layer host root rootPlace) ++ mounts)) := by
    rw [hplan, later, heq]
    simp
  rw [hwhole]
  refine ⟨?_, m', on_left hcovers hlast, hbind'.type⟩
  obtain ⟨rest, hrest⟩ := hcovers
  have hcontent : content m' (x.drop (target m').length) = .host (root ++ x) := by
    rw [content, if_neg (by rw [hbind'.type]; decide), if_pos hbind'.type, ← hrest, List.drop_left,
      hbind'.source, hbind'.target, List.append_assoc]
  rw [shown_left ⟨rest, hrest⟩ hlast, hcontent, if_neg (by simp)]

variable (hnot : ∀ n ∈ listed host (rootPlace ++ t), ¬ t ++ [n] <+: x)
include hnot

theorem not_covers_later : ∀ m ∈ later host root rootPlace mounts t post, ¬ target m <+: x := by
  have hnames := hd.names hts
  intro m hm
  rcases List.mem_append.1 hm with hm | hm
  · exact not_covers_binds hroot (hnames t List.mem_cons_self) hnot m hm
  rcases List.mem_append.1 hm with hm | hm
  · exact not_covers_layers hroot (fun t ht => hnames t (List.mem_cons_of_mem _ ht)) hd.last m hm
  · exact hmounts m hm

/-- or on the new root. -/
theorem on_root (ht : t = []) :
    (mountAll (left (insertedOf host root rootPlace ts ++ mounts))).on x = none := by
  rw [hd.plan_root hts ht]
  exact on_left_of_none (not_covers_later hroot hts hd hmounts hnot)

/-- A directory is made for a path that is not on a bind mount where a mount
    comes later, and for the `tmpfs` itself. -/
theorem shown_lost (hx : x ≠ []) :
    (mountAll (left (insertedOf host root rootPlace ts ++ mounts))).shown x =
      if x = t ∨ ∃ m ∈ later host root rootPlace mounts t post, x <+: target m then .made
      else .nothing := by
  have hlast := not_covers_later hroot hts hd hmounts hnot
  by_cases ht : t = []
  · rw [hd.plan_root hts ht, shown_left_of_none hlast hx, ht]
    simp [hx]
  · obtain ⟨pre, hplan⟩ := hd.plan host root rootPlace mounts
    have htarget : target (tmpfsMount (slashed root) (slashed (root ++ t))) = t :=
      target_tmpfsMount (hd.names hts t List.mem_cons_self)
    rw [if_neg ht, List.singleton_append] at hplan
    rw [hplan, shown_left (by rw [htarget]; exact hd.above) hlast, htarget, content,
      if_pos (show (tmpfsMount (slashed root) (slashed (root ++ t))).type = "tmpfs" from rfl)]
    have hrest : x.drop t.length = [] ↔ x = t := by
      obtain ⟨rest, rfl⟩ := hd.above
      simp
    by_cases heq : x = t
    · rw [if_pos (hrest.2 heq), if_neg (by simp), if_pos (.inl heq)]
    · rw [if_neg fun h => heq (hrest.1 h)]
      simp [heq]

/-- The mounts that come later below a path. -/
theorem exists_later (hne : x ≠ t) :
    (∃ m ∈ later host root rootPlace mounts t post, x <+: target m) ↔
      (∃ t' ∈ post, x <+: t') ∨ ∃ m ∈ mounts, x <+: target m := by
  have hnames := hd.names hts
  constructor
  · rintro ⟨m, hm, hx⟩
    rcases List.mem_append.1 hm with hm | hm
    · -- an entry of the directory that is below the path would be the path
      obtain ⟨n, hn, hbind⟩ := isBind_of_mem hroot (hnames t List.mem_cons_self) hm
      rw [hbind.target] at hx
      rcases List.prefix_concat_iff.1 hx with rfl | hx
      · exact absurd List.prefix_rfl (hnot n hn)
      · exact absurd (hx.eq_of_length (le_antisymm hx.length_le hd.above.length_le)) hne
    rcases List.mem_append.1 hm with hm | hm
    · obtain ⟨t', ht', hm⟩ := List.mem_flatMap.1 hm
      refine .inl ⟨t', ht', ?_⟩
      rcases mem_layer hroot (hnames t' (List.mem_cons_of_mem _ ht')) hm with heq | ⟨n, -, heq⟩
      · rwa [heq] at hx
      · rw [heq] at hx
        rcases List.prefix_concat_iff.1 hx with rfl | hx
        · exact absurd (List.prefix_append t' [n]) (hd.last t' ht')
        · exact hx
    · exact .inr ⟨m, hm, hx⟩
  · rintro (⟨t', ht', hx⟩ | ⟨m, hm, hx⟩)
    · have hne' : t' ≠ [] := by
        rintro rfl
        exact hd.last [] ht' List.nil_prefix
      refine ⟨tmpfsMount (slashed root) (slashed (root ++ t')), ?_, ?_⟩
      · refine List.mem_append_right _ (List.mem_append_left _ (List.mem_flatMap.2 ⟨t', ht', ?_⟩))
        rw [layer, if_neg hne']
        simp
      · rwa [target_tmpfsMount (hnames t' (List.mem_cons_of_mem _ ht'))]
    · exact ⟨m, List.mem_append_right _ (List.mem_append_right _ hm), hx⟩

end Last

end Inserted

end Linglong.FixMount
