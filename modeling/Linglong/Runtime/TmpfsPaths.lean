import Linglong.Runtime.FixMount
import Mathlib.Data.List.Induction

/-! # The Paths that Become a `tmpfs`

    `fixMount` compares and merges paths as texts, character by character.
    The texts are those of paths below the root, and on paths this is what it
    does: two paths that are more than one name below the root, with the same
    first name, are replaced by what they have in common above them.

    1. Texts that are cut off.
    2. The common parent (`commonParent_slashed`).
    3. Merging paths (`foldl_addTmpfs`).
    4. The paths that are left.
-/

namespace Linglong.FixMount

open Framework

/-! ## Section 1: Texts that are cut off -/

/-- **Chopping** finds the longest beginning that is wanted. -/
theorem chopUntil_spec (wanted : List Char → Bool) (rev : List Char) :
    chopUntil wanted rev <+: rev.reverse ∧
      (chopUntil wanted rev ≠ [] → wanted (chopUntil wanted rev) = true) ∧
      ∀ q, q <+: rev.reverse → q ≠ [] → wanted q = true → q <+: chopUntil wanted rev := by
  induction rev with
  | nil => exact ⟨List.prefix_rfl, fun h => absurd rfl h, fun q hq hne _ =>
      absurd (List.prefix_nil.1 hq) hne⟩
  | cons c cs ih =>
    rw [chopUntil]
    by_cases hwanted : wanted (c :: cs).reverse = true
    · rw [if_pos hwanted]
      exact ⟨List.prefix_rfl, fun _ => hwanted, fun q hq _ _ => hq⟩
    · rw [if_neg hwanted, List.reverse_cons]
      refine ⟨ih.1.trans (List.prefix_append _ _), ih.2.1, fun q hq hne hq' => ?_⟩
      rcases List.prefix_concat_iff.1 hq with heq | hq
      · rw [heq, ← List.reverse_cons] at hq'
        exact absurd hq' hwanted
      · exact ih.2.2 q hq hne hq'

/-- A text that begins with a slash. -/
theorem slash_cons (text : List Char) : '/' :: text = slashed (text.splitOn '/') := by
  induction text with
  | nil => rfl
  | cons c text ih =>
    rw [List.splitOn_cons_eq_if_modifyHead]
    obtain ⟨name, names, hsplit⟩ := List.exists_cons_of_ne_nil (List.splitOn_ne_nil '/' text)
    by_cases hc : c = '/'
    · rw [if_pos (by simp [hc]), slashed_cons, List.nil_append, ← ih, hc]
    · rw [hsplit, slashed_cons, List.cons.injEq] at ih
      rw [if_neg (by simpa using hc), hsplit, List.modifyHead_cons, slashed_cons, ih.2,
        List.cons_append]

/-- A beginning of a path's text that ends with a slash. -/
theorem prefix_slashed {a : Path} (ha : ∀ name ∈ a, '/' ∉ name) {text : List Char}
    (h : text ++ ['/'] <+: slashed a) : ∃ q, q <+: a ∧ q ≠ a ∧ text = slashed q := by
  obtain ⟨rest, hrest⟩ := h
  rw [List.append_assoc, List.singleton_append, slash_cons] at hrest
  obtain ⟨q, hsplit, htext⟩ := slashed_split ha (fun name hname => not_mem_splitOn hname) hrest.symm
  refine ⟨q, ⟨_, hsplit.symm⟩, fun heq => List.splitOn_ne_nil '/' rest ?_, htext⟩
  rw [heq] at hsplit
  exact List.append_right_eq_self.1 hsplit.symm

theorem slashed_above {q a : Path} (h : q <+: a) (hne : q ≠ a) :
    slashed q ++ ['/'] <+: slashed a := by
  obtain ⟨rest, rfl⟩ := h
  cases rest with
  | nil => exact absurd (List.append_nil q).symm hne
  | cons name rest => exact ⟨name ++ slashed rest, by simp⟩

theorem cleanPath_append {here p : Path} (h : ∀ name ∈ p, IsName name) (rest : List Name) :
    cleanPath here (p ++ rest) = cleanPath (here ++ p) rest := by
  induction p generalizing here with
  | nil => simp
  | cons name p ih =>
    obtain ⟨hne, -, hdot, hdots⟩ := h name List.mem_cons_self
    rw [List.cons_append, cleanPath, if_neg (by simp [hne, hdot]), if_neg hdots,
      ih fun n hn => h n (List.mem_cons_of_mem _ hn)]
    simp

/-- The path of the text of a path, also with a slash at its end. -/
theorem pathOf_slashed {p : Path} (h : ∀ name ∈ p, IsName name) :
    pathOf (slashed p) = p ∧ pathOf (slashed p ++ ['/']) = p := by
  have hslash : ∀ name ∈ p, '/' ∉ name := fun name hname => (h name hname).noSlash
  have hlast : slashed p ++ ['/'] = slashed (p ++ [[]]) := by simp
  have hall : ∀ name ∈ p ++ [[]], '/' ∉ name := by
    intro name hname
    rcases List.mem_append.1 hname with hname | hname
    · exact hslash name hname
    · rw [List.mem_singleton.1 hname]
      simp
  unfold pathOf
  rw [hlast, splitOn_slashed hslash, splitOn_slashed hall]
  constructor
  · have hclean : cleanPath [] (p ++ []) = p := cleanPath_append h []
    rw [List.append_nil] at hclean
    exact hclean
  · exact cleanPath_append h [[]]

/-! ## Section 2: The common parent -/

/-- The names that two paths have in common before their last ones. -/
def properCommon : Path → Path → Path
  | x :: y :: a, x' :: y' :: b => if x = x' then x :: properCommon (y :: a) (y' :: b) else []
  | _, _ => []

theorem properCommon_above {a b : Path} (ha : a ≠ []) (hb : b ≠ []) :
    (properCommon a b <+: a ∧ properCommon a b ≠ a) ∧
      properCommon a b <+: b ∧ properCommon a b ≠ b := by
  fun_induction properCommon a b with
  | case1 y a x y' b ih =>
    obtain ⟨⟨hpa, hna⟩, hpb, hnb⟩ := ih (by simp) (by simp)
    exact ⟨⟨(List.prefix_cons_inj x).2 hpa, by simpa using hna⟩,
      (List.prefix_cons_inj x).2 hpb, by simpa using hnb⟩
  | case2 => exact ⟨⟨List.nil_prefix, by simp⟩, List.nil_prefix, by simp⟩
  | case3 => exact ⟨⟨List.nil_prefix, ha.symm⟩, List.nil_prefix, hb.symm⟩

/-- It is the longest such path. -/
theorem prefix_properCommon {a b q : Path} (ha : q <+: a) (hna : q ≠ a) (hb : q <+: b)
    (hnb : q ≠ b) : q <+: properCommon a b := by
  induction q generalizing a b with
  | nil => exact List.nil_prefix
  | cons n q ih =>
    cases a with
    | nil => cases List.prefix_nil.1 ha
    | cons x a =>
      cases b with
      | nil => cases List.prefix_nil.1 hb
      | cons x' b =>
        obtain ⟨rfl, hqa⟩ := List.cons_prefix_cons.1 ha
        obtain ⟨rfl, hqb⟩ := List.cons_prefix_cons.1 hb
        have hna' : q ≠ a := fun heq => hna (by rw [heq])
        have hnb' : q ≠ b := fun heq => hnb (by rw [heq])
        have hrest := ih hqa hna' hqb hnb'
        cases a with
        | nil => exact absurd (List.prefix_nil.1 hqa) hna'
        | cons y a =>
          cases b with
          | nil => exact absurd (List.prefix_nil.1 hqb) hnb'
          | cons y' b =>
            rw [properCommon, if_pos rfl]
            exact (List.prefix_cons_inj n).2 hrest

/-- **The common parent** of two texts of paths. -/
theorem commonParent_slashed {a b : Path} (ha : ∀ name ∈ a, IsName name)
    (hb : ∀ name ∈ b, IsName name) (hna : a ≠ []) (hnb : b ≠ []) :
    commonParent (slashed a) (slashed b) = slashed (properCommon a b) := by
  obtain ⟨⟨hpa, hna'⟩, hpb, hnb'⟩ := properCommon_above hna hnb
  have hslashA : ∀ name ∈ a, '/' ∉ name := fun name hname => (ha name hname).noSlash
  have hslashB : ∀ name ∈ b, '/' ∉ name := fun name hname => (hb name hname).noSlash
  -- the longest beginning that both texts have
  obtain ⟨ret, hret⟩ : ∃ ret, ret =
      chopUntil (fun ret => ret.isPrefixOf (slashed a)) (slashed b).reverse := ⟨_, rfl⟩
  have hspec := chopUntil_spec (fun ret => ret.isPrefixOf (slashed a)) (slashed b).reverse
  rw [← hret, List.reverse_reverse] at hspec
  obtain ⟨hretB, hretA, hlongest⟩ := hspec
  have hcommon : slashed (properCommon a b) ++ ['/'] <+: ret := by
    refine hlongest _ (slashed_above hpb hnb') (by simp) ?_
    exact List.isPrefixOf_iff_prefix.2 (slashed_above hpa hna')
  have hne : ret ≠ [] := by
    rintro rfl
    exact absurd (List.prefix_nil.1 hcommon) (by simp)
  -- and the longest that ends with a slash
  obtain ⟨cut, hcut⟩ : ∃ cut, cut =
      chopUntil (fun ret => ret.getLast? = some '/') ret.reverse := ⟨_, rfl⟩
  have hspec := chopUntil_spec (fun ret => ret.getLast? = some '/') ret.reverse
  rw [← hcut, List.reverse_reverse] at hspec
  obtain ⟨hcutRet, hcutLast, hlongest'⟩ := hspec
  have hcommon' : slashed (properCommon a b) ++ ['/'] <+: cut :=
    hlongest' _ hcommon (by simp) (by simp)
  have hcutNe : cut ≠ [] := by
    rintro rfl
    exact absurd (List.prefix_nil.1 hcommon') (by simp)
  obtain ⟨text, htext⟩ : ∃ text, cut = text ++ ['/'] := by
    have hlast : cut.getLast? = some '/' := by simpa using hcutLast hcutNe
    exact List.getLast?_eq_some_iff.1 hlast
  -- it is the text of a path that both have in common
  obtain ⟨q, hqb, hqnb, hq⟩ := prefix_slashed hslashB (htext ▸ hcutRet.trans hretB)
  have hretA' : ret <+: slashed a := List.isPrefixOf_iff_prefix.1 (hretA hne)
  obtain ⟨q', hqa, hqna, hq'⟩ := prefix_slashed hslashA (htext ▸ hcutRet.trans hretA')
  have hsame : q' = q := slashed_inj (fun name hname => hslashA name (hqa.subset hname))
    (fun name hname => hslashB name (hqb.subset hname)) (hq'.symm.trans hq)
  subst hsame
  have hlen : slashed q' <+: slashed (properCommon a b) := by
    obtain ⟨rest, hrest⟩ := prefix_properCommon hqa hqna hqb hqnb
    exact ⟨slashed rest, by rw [← hrest, slashed_append]⟩
  have hcutEq : cut = slashed (properCommon a b) ++ ['/'] := by
    refine (hcommon'.eq_of_length_le ?_).symm
    have hlength := hlen.length_le
    rw [htext, hq, List.length_append, List.length_append]
    omega
  have hnames : ∀ name ∈ properCommon a b, IsName name := fun name hname =>
    ha name (hpa.subset hname)
  rw [commonParent, ← hret, if_neg hne, ← hcut, hcutEq, (pathOf_slashed hnames).2]

/-! ## Section 3: Merging paths -/

/-- `mergeTmpfs` on the paths below the root. -/
def mergePaths (e : Path) : List Path → List Path × Bool
  | [] => ([], true)
  | t :: ts =>
      if e = t then (t :: (mergePaths e ts).1, false)
      else if properCommon e t ≠ [] then (properCommon e t :: ts, false)
      else (t :: (mergePaths e ts).1, (mergePaths e ts).2)

/-- `addTmpfs` on the paths below the root. -/
def addPath (ts : List Path) (e : Path) : List Path :=
  if (mergePaths e ts).2 then (mergePaths e ts).1 ++ [e] else (mergePaths e ts).1

/-- A path below the root. -/
structure BelowRoot (p : Path) : Prop where
  ne_nil : p ≠ []
  names : ∀ name ∈ p, IsName name

theorem properCommon_append (root : Path) {a b : Path} (ha : a ≠ []) (hb : b ≠ []) :
    properCommon (root ++ a) (root ++ b) = root ++ properCommon a b := by
  induction root with
  | nil => rfl
  | cons n root ih =>
    obtain ⟨x, more, hx⟩ := List.exists_cons_of_ne_nil (List.append_ne_nil_of_right_ne_nil root ha)
    obtain ⟨y, more', hy⟩ := List.exists_cons_of_ne_nil (List.append_ne_nil_of_right_ne_nil root hb)
    rw [List.cons_append, List.cons_append, hx, hy, properCommon, if_pos rfl, ← hx, ← hy, ih,
      List.cons_append]

theorem lt_append_iff (l m : List Char) : l < l ++ m ↔ m ≠ [] := by
  induction l with
  | nil =>
    cases m with
    | nil => simp
    | cons c m => simp
  | cons c l ih =>
    rw [List.cons_append, List.cons_lt_cons_iff]
    simp [ih]

section Texts

variable {root : Path} (hroot : ∀ name ∈ root, IsName name)
include hroot

theorem belowRoot_names {p : Path} (hp : BelowRoot p) : ∀ name ∈ root ++ p, IsName name := by
  intro name hname
  rcases List.mem_append.1 hname with hname | hname
  · exact hroot name hname
  · exact hp.names name hname

theorem text_inj {a b : Path} (ha : BelowRoot a) (hb : BelowRoot b) :
    slashed (root ++ a) = slashed (root ++ b) ↔ a = b := by
  constructor
  · intro h
    exact List.append_cancel_left (slashed_inj
      (fun name hname => (belowRoot_names hroot ha name hname).noSlash)
      (fun name hname => (belowRoot_names hroot hb name hname).noSlash) h)
  · rintro rfl
    rfl

/-- The loop over `tmpfsPath` merges the paths. -/
theorem mergeTmpfs_eq {e : Path} (he : BelowRoot e) {ts : List Path} (hts : ∀ t ∈ ts, BelowRoot t) :
    mergeTmpfs (slashed root) (slashed (root ++ e)) (ts.map fun t => slashed (root ++ t)) =
      ((mergePaths e ts).1.map fun t => slashed (root ++ t), (mergePaths e ts).2) := by
  induction ts with
  | nil => rfl
  | cons t ts ih =>
    have ht := hts t List.mem_cons_self
    have hrest := ih fun t ht => hts t (List.mem_cons_of_mem _ ht)
    have hcommon : commonParent (slashed (root ++ e)) (slashed (root ++ t)) =
        slashed (root ++ properCommon e t) := by
      rw [commonParent_slashed (belowRoot_names hroot he) (belowRoot_names hroot ht)
        (List.append_ne_nil_of_right_ne_nil root he.ne_nil)
        (List.append_ne_nil_of_right_ne_nil root ht.ne_nil),
        properCommon_append root he.ne_nil ht.ne_nil]
    have hlt : slashed root < slashed (root ++ properCommon e t) ↔ properCommon e t ≠ [] := by
      rw [slashed_append, lt_append_iff, ne_eq, slashed_eq_nil_iff]
    rw [List.map_cons, mergeTmpfs, mergePaths, hcommon, hrest]
    by_cases heq : e = t
    · rw [if_pos ((text_inj hroot he ht).2 heq), if_pos heq]
      rfl
    · rw [if_neg fun h => heq ((text_inj hroot he ht).1 h), if_neg heq]
      by_cases hne : properCommon e t ≠ []
      · rw [if_pos (hlt.2 hne), if_pos hne]
        rfl
      · rw [if_neg fun h => hne (hlt.1 h), if_neg hne]
        rfl

end Texts

/-- What the loop over the paths does. -/
theorem mergePaths_cases (ts : List Path) (e : Path) :
    (mergePaths e ts = (ts, true) ∧ ∀ t ∈ ts, e ≠ t ∧ properCommon e t = []) ∨
      (mergePaths e ts = (ts, false) ∧ e ∈ ts) ∨
      ∃ pre t post, ts = pre ++ t :: post ∧ e ≠ t ∧ properCommon e t ≠ [] ∧
        mergePaths e ts = (pre ++ properCommon e t :: post, false) := by
  induction ts with
  | nil => exact .inl ⟨rfl, fun t ht => by cases ht⟩
  | cons t ts ih =>
    rw [mergePaths]
    by_cases heq : e = t
    · rw [if_pos heq]
      rcases ih with ⟨hmerge, -⟩ | ⟨hmerge, -⟩ | ⟨pre, t₁, post, rfl, hne, hcommon, hmerge⟩
      · rw [hmerge]
        exact .inr (.inl ⟨rfl, by simp [heq]⟩)
      · rw [hmerge]
        exact .inr (.inl ⟨rfl, by simp [heq]⟩)
      · rw [hmerge]
        exact .inr (.inr ⟨t :: pre, t₁, post, rfl, hne, hcommon, rfl⟩)
    · rw [if_neg heq]
      by_cases hcommon : properCommon e t ≠ []
      · rw [if_pos hcommon]
        exact .inr (.inr ⟨[], t, ts, rfl, heq, hcommon, rfl⟩)
      · rw [if_neg hcommon]
        rcases ih with ⟨hmerge, hall⟩ | ⟨hmerge, hmem⟩ |
          ⟨pre, t₁, post, rfl, hne, hcommon', hmerge⟩
        · rw [hmerge]
          refine .inl ⟨rfl, fun t' ht' => ?_⟩
          rcases List.mem_cons.1 ht' with rfl | ht'
          · exact ⟨heq, by simpa using hcommon⟩
          · exact hall t' ht'
        · rw [hmerge]
          exact .inr (.inl ⟨rfl, List.mem_cons_of_mem _ hmem⟩)
        · rw [hmerge]
          exact .inr (.inr ⟨t :: pre, t₁, post, rfl, hne, hcommon', rfl⟩)

/-- **Cases of a merge**: the path is added, it is there already, or it and
    another one are replaced by what they have in common. -/
theorem addPath_cases (ts : List Path) (e : Path) :
    (addPath ts e = ts ++ [e] ∧ ∀ t ∈ ts, e ≠ t ∧ properCommon e t = []) ∨
      (addPath ts e = ts ∧ e ∈ ts) ∨
      ∃ pre t post, ts = pre ++ t :: post ∧ e ≠ t ∧ properCommon e t ≠ [] ∧
        addPath ts e = pre ++ properCommon e t :: post := by
  unfold addPath
  rcases mergePaths_cases ts e with
     ⟨hmerge, hall⟩ | ⟨hmerge, hmem⟩ | ⟨pre, t, post, hts, hne, hcommon, hmerge⟩
  · rw [hmerge, if_pos rfl]
    exact .inl ⟨rfl, hall⟩
  · rw [hmerge, if_neg (by simp)]
    exact .inr (.inl ⟨rfl, hmem⟩)
  · rw [hmerge, if_neg (by simp)]
    exact .inr (.inr ⟨pre, t, post, hts, hne, hcommon, rfl⟩)

theorem belowRoot_addPath {e : Path} (he : BelowRoot e) {ts : List Path}
    (hts : ∀ t ∈ ts, BelowRoot t) : ∀ t ∈ addPath ts e, BelowRoot t := by
  intro t' ht'
  rcases addPath_cases ts e with ⟨heq, -⟩ | ⟨heq, -⟩ | ⟨pre, t, post, rfl, -, hne, heq⟩
  · rw [heq] at ht'
    rcases List.mem_append.1 ht' with ht' | ht'
    · exact hts t' ht'
    · rw [List.mem_singleton.1 ht']
      exact he
  · rw [heq] at ht'
    exact hts t' ht'
  · rw [heq] at ht'
    have ht : t ≠ [] := (hts t (by simp)).ne_nil
    rcases List.mem_append.1 ht' with ht' | ht'
    · exact hts t' (List.mem_append_left _ ht')
    · rcases List.mem_cons.1 ht' with rfl | ht'
      · have habove := (properCommon_above he.ne_nil ht).1.1
        exact ⟨hne, fun name hname => he.names name (habove.subset hname)⟩
      · exact hts t' (List.mem_append_right _ (List.mem_cons_of_mem _ ht'))

/-- **Merging**: the loop over the mounts merges the paths. -/
theorem foldl_addTmpfs {root : Path} (hroot : ∀ name ∈ root, IsName name) (es : List Path) :
    ∀ (ts : List Path), (∀ e ∈ es, BelowRoot e) → (∀ t ∈ ts, BelowRoot t) →
      (es.map fun e => slashed (root ++ e)).foldl (addTmpfs (slashed root))
          (ts.map fun t => slashed (root ++ t)) =
        (es.foldl addPath ts).map fun t => slashed (root ++ t) := by
  induction es with
  | nil => exact fun _ _ _ => rfl
  | cons e es ih =>
    intro ts hes hts
    have he := hes e List.mem_cons_self
    have hadd : addTmpfs (slashed root) (ts.map fun t => slashed (root ++ t)) (slashed (root ++ e)) =
        (addPath ts e).map fun t => slashed (root ++ t) := by
      rw [addTmpfs, mergeTmpfs_eq hroot he hts, addPath]
      dsimp only
      split <;> simp
    rw [List.map_cons, List.foldl_cons, hadd, List.foldl_cons]
    exact ih _ (fun e he => hes e (List.mem_cons_of_mem _ he)) (belowRoot_addPath he hts)

/-! ## Section 4: The paths that are left -/

/-- The paths that become a `tmpfs`, for the deepest existing ancestors in the
    order of the mounts. -/
def tmpfsOf (es : List Path) : List Path := es.foldl addPath []

/-- Different paths have nothing in common above them but the root: only one
    of them is below a directory that lies directly in the root. -/
def Separate (es : List Path) : Prop := ∀ a ∈ es, ∀ b ∈ es, a = b ∨ properCommon a b = []

/-- A path comes later than the paths above it. -/
def Ordered (es : List Path) : Prop :=
  ∀ done d rest, es = done ++ d :: rest → ∀ c ∈ es, c <+: d → c ≠ d → c ∈ done

/-- Two paths have something in common if paths at or above them do. -/
theorem properCommon_mono {a b c : Path} (h : properCommon c b ≠ []) (hc : c <+: a) :
    properCommon a b ≠ [] := by
  fun_induction properCommon c b with
  | case1 y c x y' b ih =>
    obtain ⟨more, rfl⟩ := hc
    simp [properCommon]
  | case2 => exact absurd rfl h
  | case3 => exact absurd rfl h

theorem properCommon_comm (a b : Path) : properCommon a b = properCommon b a := by
  fun_induction properCommon a b with
  | case1 y a x y' b ih => rw [properCommon, if_pos rfl, ih]
  | case2 x y a x' y' b hne => rw [properCommon, if_neg (Ne.symm hne)]
  | case3 a b h =>
    -- one of them has less than two names
    rcases b with _ | ⟨x', _ | ⟨y', b⟩⟩
    · rfl
    · rfl
    · rcases a with _ | ⟨x, _ | ⟨y, a⟩⟩
      · rfl
      · rfl
      · exact (h x y a x' y' b rfl rfl).elim

/-- Without anything to merge, a new path comes to the end. -/
theorem addPath_of_separate {e : Path} {ts : List Path}
    (h : ∀ t ∈ ts, e = t ∨ properCommon e t = []) :
    addPath ts e = if e ∈ ts then ts else ts ++ [e] := by
  rcases addPath_cases ts e with ⟨heq, hall⟩ | ⟨heq, hmem⟩ | ⟨pre, t, post, rfl, hne, hcommon, -⟩
  · rw [heq, if_neg fun hmem => (hall e hmem).1 rfl]
  · rw [heq, if_pos hmem]
  · exact absurd ((h t (by simp)).resolve_left hne) hcommon

/-- **Step**: the paths have nothing in common with each other. -/
theorem pairwise_addPath {ts : List Path} (h : ts.Pairwise fun a b => properCommon a b = [])
    (hts : ∀ t ∈ ts, t ≠ []) {e : Path} (he : e ≠ []) :
    (addPath ts e).Pairwise fun a b => properCommon a b = [] := by
  rcases addPath_cases ts e with ⟨heq, hall⟩ | ⟨heq, -⟩ | ⟨pre, t, post, rfl, -, -, heq⟩
  · rw [heq, List.pairwise_append]
    refine ⟨h, List.pairwise_singleton _ _, fun a ha b hb => ?_⟩
    rw [List.mem_singleton.1 hb, properCommon_comm]
    exact (hall a ha).2
  · rw [heq]
    exact h
  · -- what replaces a path has less in common with the others
    have hkeep : ∀ {b}, properCommon t b = [] → properCommon (properCommon e t) b = [] := by
      intro b hb
      by_contra hne
      exact properCommon_mono hne (properCommon_above he (hts t (by simp))).2.1 hb
    rw [heq]
    obtain ⟨hpre, htail, hacross⟩ := List.pairwise_append.1 h
    obtain ⟨hfirst, hpost⟩ := List.pairwise_cons.1 htail
    refine List.pairwise_append.2 ⟨hpre, List.pairwise_cons.2 ⟨fun b hb => hkeep (hfirst b hb),
      hpost⟩, fun a ha b hb => ?_⟩
    rcases List.mem_cons.1 hb with rfl | hb
    · rw [properCommon_comm]
      refine hkeep ?_
      rw [properCommon_comm]
      exact hacross a ha t List.mem_cons_self
    · exact hacross a ha b (List.mem_cons_of_mem _ hb)

/-- **Run**: the paths that are left have nothing in common with each other. -/
theorem pairwise_foldl (es : List Path) : ∀ {ts : List Path},
    ts.Pairwise (fun a b => properCommon a b = []) → (∀ t ∈ ts, BelowRoot t) →
      (∀ e ∈ es, BelowRoot e) → (es.foldl addPath ts).Pairwise fun a b => properCommon a b = [] := by
  induction es with
  | nil => exact fun h _ _ => h
  | cons e es ih =>
    intro ts h hts hes
    have he := hes e List.mem_cons_self
    exact ih (pairwise_addPath h (fun t ht => (hts t ht).ne_nil) he.ne_nil)
      (belowRoot_addPath he hts) fun e he => hes e (List.mem_cons_of_mem _ he)

/-- **Run**: what is left is at or above one of the paths. -/
theorem tmpfsOf_above {es : List Path} (hes : ∀ e ∈ es, BelowRoot e) :
    ∀ t ∈ tmpfsOf es, BelowRoot t ∧ ∃ e ∈ es, t <+: e := by
  have hrun : ∀ (todo ts : List Path), (∀ e ∈ todo, e ∈ es) →
      (∀ t ∈ ts, BelowRoot t ∧ ∃ e ∈ es, t <+: e) →
      ∀ t ∈ todo.foldl addPath ts, BelowRoot t ∧ ∃ e ∈ es, t <+: e := by
    intro todo
    induction todo with
    | nil => exact fun _ _ hts => hts
    | cons e todo ih =>
      intro ts htodo hts
      have he := htodo e List.mem_cons_self
      refine ih _ (fun e' he' => htodo e' (List.mem_cons_of_mem _ he')) fun t' ht' => ?_
      refine ⟨belowRoot_addPath (hes e he) (fun t ht => (hts t ht).1) t' ht', ?_⟩
      rcases addPath_cases ts e with ⟨heq, -⟩ | ⟨heq, -⟩ | ⟨pre, t, post, rfl, -, -, heq⟩
      · rw [heq] at ht'
        rcases List.mem_append.1 ht' with ht' | ht'
        · exact (hts t' ht').2
        · exact ⟨e, he, (List.mem_singleton.1 ht') ▸ List.prefix_rfl⟩
      · rw [heq] at ht'
        exact (hts t' ht').2
      · rw [heq] at ht'
        have ht : t ≠ [] := (hts t (by simp)).1.ne_nil
        rcases List.mem_append.1 ht' with ht' | ht'
        · exact (hts t' (List.mem_append_left _ ht')).2
        · rcases List.mem_cons.1 ht' with rfl | ht'
          · exact ⟨e, he, (properCommon_above (hes e he).ne_nil ht).1.1⟩
          · exact (hts t' (List.mem_append_right _ (List.mem_cons_of_mem _ ht'))).2
  exact hrun es [] (fun _ he => he) fun t ht => by cases ht

theorem tmpfsOf_concat (done : List Path) (e : Path) :
    tmpfsOf (done ++ [e]) = addPath (tmpfsOf done) e := by
  rw [tmpfsOf, List.foldl_append]
  rfl

/-- **Run**: separate paths are all left, once each. -/
theorem tmpfsOf_separate {es : List Path} (h : Separate es) (done : List Path) :
    ∀ todo, es = done ++ todo → (∀ t, t ∈ tmpfsOf done ↔ t ∈ done) ∧ (tmpfsOf done).Nodup := by
  induction done using List.reverseRecOn with
  | nil => exact fun _ _ => ⟨fun t => Iff.rfl, List.nodup_nil⟩
  | append_singleton done e ih =>
    intro todo htodo
    rw [List.append_assoc] at htodo
    obtain ⟨hmem, hnodup⟩ := ih _ htodo
    have hseparate : ∀ t ∈ tmpfsOf done, e = t ∨ properCommon e t = [] := by
      intro t ht
      refine h e ?_ t ?_
      · rw [htodo]
        simp
      · rw [htodo]
        exact List.mem_append_left _ ((hmem t).1 ht)
    rw [tmpfsOf_concat, addPath_of_separate hseparate]
    by_cases he : e ∈ tmpfsOf done
    · rw [if_pos he]
      refine ⟨fun t => ?_, hnodup⟩
      rw [hmem, List.mem_append, List.mem_singleton]
      refine ⟨.inl, fun ht => ht.elim id ?_⟩
      rintro rfl
      exact (hmem t).1 he
    · rw [if_neg he]
      refine ⟨fun t => ?_, List.nodup_append.2 ⟨hnodup, by simp, fun a ha b hb heq => he ?_⟩⟩
      · rw [List.mem_append, List.mem_append, hmem]
      · rw [List.mem_singleton.1 hb] at heq
        rwa [← heq]

/-- Later paths come to the end. -/
theorem tmpfsOf_begins {es : List Path} (h : Separate es) (todo : List Path) :
    ∀ done, es = done ++ todo → tmpfsOf done <+: tmpfsOf es := by
  induction todo with
  | nil =>
    intro done hdone
    rw [List.append_nil] at hdone
    exact hdone ▸ List.prefix_rfl
  | cons e todo ih =>
    intro done hdone
    have hsplit : es = (done ++ [e]) ++ todo := by rw [hdone, List.append_assoc]; rfl
    refine List.IsPrefix.trans ?_ (ih _ hsplit)
    have hmem := (tmpfsOf_separate h done _ hdone).1
    rw [tmpfsOf_concat, addPath_of_separate fun t ht => ?_]
    · split
      · exact List.prefix_rfl
      · exact List.prefix_append _ _
    · refine h e ?_ t ?_
      · rw [hdone]
        simp
      · rw [hdone]
        exact List.mem_append_left _ ((hmem t).1 ht)

/-- **Run**: separate and ordered paths are left in an order in which none
    comes after one below it. -/
theorem pairwise_tmpfsOf {es : List Path} (h : Separate es) (hordered : Ordered es)
    (done : List Path) : ∀ todo, es = done ++ todo →
      (tmpfsOf done).Pairwise fun a b => ¬ b <+: a := by
  induction done using List.reverseRecOn with
  | nil => exact fun _ _ => List.Pairwise.nil
  | append_singleton done e ih =>
    intro todo htodo
    rw [List.append_assoc] at htodo
    have hpair := ih _ htodo
    have hmem := (tmpfsOf_separate h done _ htodo).1
    have hin : e ∈ es := by
      rw [htodo]
      simp
    have hin' : ∀ t ∈ tmpfsOf done, t ∈ es := by
      intro t ht
      rw [htodo]
      exact List.mem_append_left _ ((hmem t).1 ht)
    rw [tmpfsOf_concat, addPath_of_separate fun t ht => h e hin t (hin' t ht)]
    by_cases he : e ∈ tmpfsOf done
    · rw [if_pos he]
      exact hpair
    · rw [if_neg he]
      refine List.pairwise_append.2 ⟨hpair, List.pairwise_singleton _ _, fun a ha b hb hba => ?_⟩
      -- a path above an earlier one has been there before
      rw [List.mem_singleton.1 hb] at hba
      obtain ⟨before, after, hsplit⟩ := List.append_of_mem ((hmem a).1 ha)
      have hne : e ≠ a := by
        rintro rfl
        exact he ha
      have hbefore := hordered before a (after ++ [e] ++ todo)
        (by rw [htodo, hsplit]; simp) e hin hba hne
      refine he ((hmem e).2 ?_)
      rw [hsplit]
      exact List.mem_append_left _ hbefore

/-- Of paths that are all left, none has something in common with another. -/
theorem separate_of_left {es : List Path} (hes : ∀ e ∈ es, BelowRoot e)
    (hleft : ∀ e ∈ es, e ∈ tmpfsOf es) : Separate es := by
  intro a ha b hb
  by_cases heq : a = b
  · exact .inl heq
  · have hpair := pairwise_foldl es List.Pairwise.nil (fun t ht => by cases ht) hes
    have hsymm : Std.Symm fun a b : Path => properCommon a b = [] :=
      ⟨fun a b hab => by rw [properCommon_comm, hab]⟩
    exact .inr (hpair.forall (hleft a ha) (hleft b hb) heq)

/-- A path that was added first comes after the paths that were there. -/
theorem mem_post_of_later {es : List Path} (hseparate : Separate es) {done rest : List Path}
    {c d : Path} (hsplit : es = done ++ d :: rest) (hc : c ∈ es) (hdone : c ∉ done) (hne : c ≠ d)
    {pre post : List Path} (heq : tmpfsOf es = pre ++ d :: post) : c ∈ post := by
  have hsplit' : es = (done ++ [d]) ++ rest := by rw [hsplit, List.append_assoc]; rfl
  obtain ⟨hmem, -⟩ := tmpfsOf_separate hseparate (done ++ [d]) rest hsplit'
  obtain ⟨hmemAll, hnodup⟩ := tmpfsOf_separate hseparate es [] (List.append_nil es).symm
  obtain ⟨more, hmore⟩ := tmpfsOf_begins hseparate rest (done ++ [d]) hsplit'
  obtain ⟨l₁, l₂, hd⟩ := List.append_of_mem ((hmem d).2 (by simp))
  have hlater : c ∈ more := by
    have hleft := (hmemAll c).2 hc
    rw [← hmore] at hleft
    rcases List.mem_append.1 hleft with hc' | hc'
    · rcases List.mem_append.1 ((hmem c).1 hc') with hc'' | hc''
      · exact absurd hc'' hdone
      · exact absurd (List.mem_singleton.1 hc'') hne
    · exact hc'
  have htail : post = l₂ ++ more := by
    rw [hd, List.append_assoc, List.cons_append] at hmore
    rw [heq] at hmore hnodup
    have hnotPre : d ∉ pre := fun hmem =>
      (List.nodup_append.1 hnodup).2.2 d hmem d List.mem_cons_self rfl
    have hnotPost : d ∉ post := (List.nodup_cons.1 (List.nodup_append.1 hnodup).2.1).1
    exact ((List.append_cons_inj_of_notMem hnotPre hnotPost).1 hmore.symm).2.2
  rw [htail]
  exact List.mem_append_right _ hlater

/-- **The paths that are left**: each path is left, and none above it comes
    later, iff the paths are separate and ordered. -/
theorem lastCover_iff {es : List Path} (hes : ∀ e ∈ es, BelowRoot e) :
    (∀ e ∈ es, ∃ pre post, tmpfsOf es = pre ++ e :: post ∧ ∀ t ∈ post, ¬ t <+: e) ↔
      Separate es ∧ Ordered es := by
  constructor
  · intro h
    have hseparate : Separate es := by
      refine separate_of_left hes fun e he => ?_
      obtain ⟨pre, post, heq, -⟩ := h e he
      rw [heq]
      simp
    refine ⟨hseparate, fun done d rest hsplit c hc hcd hne => ?_⟩
    by_contra hdone
    obtain ⟨pre, post, heq, hpost⟩ := h d (by rw [hsplit]; simp)
    exact hpost c (mem_post_of_later hseparate hsplit hc hdone hne heq) hcd
  · rintro ⟨hseparate, hordered⟩ e he
    obtain ⟨hmem, -⟩ := tmpfsOf_separate hseparate es [] (List.append_nil es).symm
    obtain ⟨pre, post, heq⟩ := List.append_of_mem ((hmem e).2 he)
    have hpair := pairwise_tmpfsOf hseparate hordered es [] (List.append_nil es).symm
    rw [heq] at hpair
    exact ⟨pre, post, heq, (List.pairwise_cons.1 (List.pairwise_append.1 hpair).2.1).1⟩

end Linglong.FixMount
