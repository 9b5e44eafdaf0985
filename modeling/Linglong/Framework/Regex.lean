import Mathlib.Data.List.Basic
import Mathlib.Data.List.TakeWhile

/-! # Regular Expressions with Groups

    Expressions as a backtracking matcher reads them. `ways` lists all ways
    to match at the beginning of a text, the preferred one first: a greedy
    repetition tries the longest text first, an alternative its left side.
    A match is the first way, at the leftmost place where there is one.

    Repetition is of a class of characters only. The end of the text is
    asked for as `$` does it: one final newline may be left.

    * `ways_seq_assoc`, `first_opt_seq`: how sequences and options combine.
    * `first_group_many_seq`, `first_group_plus_seq`: a repetition followed by
      something that cannot start inside of it takes all it can.
    * `search_atStart_seq`, `search_eq_findSome?`: where a match is.
-/

namespace Framework

universe u v

/-- Expressions over the characters `α`, with groups named by `ν`. -/
inductive Regex (α : Type u) (ν : Type v) where
  | empty
  | one (p : α → Bool)
  | many (p : α → Bool)
  | seq (r s : Regex α ν)
  | alt (r s : Regex α ν)
  | group (name : ν) (r : Regex α ν)
  | atStart
  | atEnd (newline : α)

namespace Regex

variable {α : Type u} {ν : Type v}

/-! ## Section 1: Ways to match -/

/-- A way to match: the text it takes, what the groups captured, what is
    left. -/
@[ext] structure Way (α : Type u) (ν : Type v) where
  text : List α
  groups : List (ν × List α)
  rest : List α

/-- One way after another. -/
def Way.andThen (v w : Way α ν) : Way α ν := ⟨v.text ++ w.text, v.groups ++ w.groups, w.rest⟩

/-- Take nothing. -/
def Way.still (cs : List α) : Way α ν := ⟨[], [], cs⟩

/-- Take one more character. -/
def Way.cons (c : α) (w : Way α ν) : Way α ν := ⟨c :: w.text, w.groups, w.rest⟩

def Way.capture (name : ν) (w : Way α ν) : Way α ν :=
  ⟨w.text, (name, w.text) :: w.groups, w.rest⟩

/-- A greedy repetition, the longest text first. -/
def splits (p : α → Bool) : List α → List (Way α ν)
  | [] => [.still []]
  | c :: cs => if p c then (splits p cs).map (.cons c) ++ [.still (c :: cs)] else [.still (c :: cs)]

/-- All ways to match at the beginning of a text. The flag says whether this
    is where the whole text starts. -/
def ways [DecidableEq α] : Regex α ν → Bool → List α → List (Way α ν)
  | .empty, _, cs => [.still cs]
  | .one _, _, [] => []
  | .one p, _, c :: cs => if p c then [.cons c (.still cs)] else []
  | .many p, _, cs => splits p cs
  | .seq r s, start, cs =>
      (ways r start cs).flatMap fun v =>
        (ways s (start && v.text.isEmpty) v.rest).map v.andThen
  | .alt r s, start, cs => ways r start cs ++ ways s start cs
  | .group name r, start, cs => (ways r start cs).map (.capture name)
  | .atStart, start, cs => if start then [.still cs] else []
  | .atEnd newline, _, cs => if cs = [] ∨ cs = [newline] then [.still cs] else []

/-- The preferred way. -/
def first [DecidableEq α] (r : Regex α ν) (start : Bool) (cs : List α) : Option (Way α ν) :=
  (r.ways start cs).head?

/-- A match from some place on. -/
def searchFrom [DecidableEq α] (r : Regex α ν) (start : Bool) : List α → Option (Way α ν)
  | [] => r.first start []
  | c :: cs =>
      match r.first start (c :: cs) with
      | some w => some w
      | none => searchFrom r false cs

/-- The leftmost match. -/
def search [DecidableEq α] (r : Regex α ν) (cs : List α) : Option (Way α ν) :=
  r.searchFrom true cs

/-- At least one character of a class. -/
def plus (p : α → Bool) : Regex α ν := .seq (.one p) (.many p)

/-- An optional part, taken if possible. -/
def opt (r : Regex α ν) : Regex α ν := .alt r .empty

/-! ## Section 2: Laws -/

@[simp] theorem still_andThen (cs : List α) (w : Way α ν) : (Way.still cs).andThen w = w := by
  simp [Way.still, Way.andThen]

theorem cons_andThen (c : α) (v w : Way α ν) : (v.cons c).andThen w = (v.andThen w).cons c := by
  simp [Way.cons, Way.andThen]

theorem andThen_assoc (u v w : Way α ν) : (u.andThen v).andThen w = u.andThen (v.andThen w) := by
  simp [Way.andThen, List.append_assoc]

/-- A repetition takes characters of its class and captures nothing. -/
theorem mem_splits {p : α → Bool} {cs : List α} {w : Way α ν} :
    w ∈ splits p cs ↔ w.groups = [] ∧ w.text ++ w.rest = cs ∧ ∀ c ∈ w.text, p c = true := by
  obtain ⟨text, groups, rest⟩ := w
  induction cs generalizing text with
  | nil => simp [splits, Way.still]; grind
  | cons c cs ih =>
    by_cases hc : p c = true
    · rw [splits, if_pos hc, List.mem_append, List.mem_map, List.mem_singleton]
      constructor
      · -- the character is taken, or the repetition ends before it
        rintro (⟨⟨text', groups', rest'⟩, hmem, heq⟩ | heq)
        · simp only [Way.cons, Way.mk.injEq] at heq
          obtain ⟨rfl, rfl, rfl⟩ := heq
          obtain ⟨hgroups, htext, hall⟩ := (ih text').1 hmem
          exact ⟨hgroups, by simpa using htext, by simpa [hc] using hall⟩
        · simp only [Way.still, Way.mk.injEq] at heq
          obtain ⟨rfl, rfl, rfl⟩ := heq
          simp
      · rintro ⟨hgroups, htext, hall⟩
        cases text with
        | nil => exact .inr (by simpa [Way.still] using ⟨hgroups, htext⟩)
        | cons d text =>
          simp only [List.cons_append, List.cons.injEq] at htext
          obtain ⟨rfl, htext⟩ := htext
          refine .inl ⟨⟨text, groups, rest⟩, (ih text).2 ⟨hgroups, htext, ?_⟩, rfl⟩
          exact fun e he => hall e (List.mem_cons_of_mem _ he)
    · rw [splits, if_neg hc, List.mem_singleton]
      constructor
      · intro heq
        simp only [Way.still, Way.mk.injEq] at heq
        obtain ⟨rfl, rfl, rfl⟩ := heq
        simp
      · rintro ⟨hgroups, htext, hall⟩
        cases text with
        | nil => simpa [Way.still] using ⟨hgroups, htext⟩
        | cons d text =>
          simp only [List.cons_append, List.cons.injEq] at htext
          -- the first character would have to be of the class
          exact absurd (htext.1 ▸ hall d (by simp)) hc

/-- The first way takes all it can, the others leave a character of the
    class. -/
theorem splits_eq (p : α → Bool) (cs : List α) :
    ∃ others : List (Way α ν), splits p cs = ⟨cs.takeWhile p, [], cs.dropWhile p⟩ :: others ∧
      ∀ v ∈ others, ∃ c cs', p c = true ∧ v.rest = c :: cs' ∧
        cs'.dropWhile p = cs.dropWhile p := by
  induction cs with
  | nil => exact ⟨[], rfl, by simp⟩
  | cons c cs ih =>
    by_cases hc : p c = true
    · obtain ⟨others, heq, hothers⟩ := ih
      refine ⟨others.map (Way.cons c) ++ [Way.still (c :: cs)], ?_, fun v hv => ?_⟩
      · rw [splits, if_pos hc, heq, List.takeWhile_cons_of_pos hc, List.dropWhile_cons_of_pos hc]
        rfl
      · rw [List.dropWhile_cons_of_pos hc]
        rcases List.mem_append.1 hv with hv | hv
        · obtain ⟨w, hw, rfl⟩ := List.mem_map.1 hv
          exact hothers w hw
        · rw [List.mem_singleton.1 hv]
          exact ⟨c, cs, hc, rfl, rfl⟩
    · refine ⟨[], ?_, by simp⟩
      rw [splits, if_neg hc, List.takeWhile_cons_of_neg hc, List.dropWhile_cons_of_neg hc]
      rfl

section Ways

variable [DecidableEq α]

@[simp] theorem ways_empty (start : Bool) (cs : List α) :
    (empty : Regex α ν).ways start cs = [.still cs] := rfl

@[simp] theorem ways_one_nil (p : α → Bool) (start : Bool) :
    (one p : Regex α ν).ways start [] = [] := rfl

@[simp] theorem ways_one_cons (p : α → Bool) (start : Bool) (c : α) (cs : List α) :
    (one p : Regex α ν).ways start (c :: cs) = if p c then [.cons c (.still cs)] else [] := rfl

@[simp] theorem ways_many (p : α → Bool) (start : Bool) (cs : List α) :
    (many p : Regex α ν).ways start cs = splits p cs := rfl

@[simp] theorem ways_seq (r s : Regex α ν) (start : Bool) (cs : List α) :
    (seq r s).ways start cs = (r.ways start cs).flatMap fun v =>
      (s.ways (start && v.text.isEmpty) v.rest).map v.andThen := rfl

@[simp] theorem ways_alt (r s : Regex α ν) (start : Bool) (cs : List α) :
    (alt r s).ways start cs = r.ways start cs ++ s.ways start cs := rfl

@[simp] theorem ways_group (name : ν) (r : Regex α ν) (start : Bool) (cs : List α) :
    (group name r).ways start cs = (r.ways start cs).map (.capture name) := rfl

@[simp] theorem ways_atStart (start : Bool) (cs : List α) :
    (atStart : Regex α ν).ways start cs = if start then [.still cs] else [] := rfl

@[simp] theorem ways_atEnd (newline : α) (start : Bool) (cs : List α) :
    (atEnd newline : Regex α ν).ways start cs =
      if cs = [] ∨ cs = [newline] then [.still cs] else [] := rfl

theorem mem_ways_one {p : α → Bool} {start : Bool} {cs : List α} {w : Way α ν} :
    w ∈ (one p).ways start cs ↔ ∃ c cs', p c = true ∧ cs = c :: cs' ∧ w = ⟨[c], [], cs'⟩ := by
  cases cs with
  | nil => simp
  | cons c cs =>
    by_cases hc : p c = true
    · simp only [ways_one_cons, if_pos hc, List.mem_singleton, List.cons.injEq]
      constructor
      · intro h
        exact ⟨c, cs, hc, ⟨rfl, rfl⟩, h⟩
      · rintro ⟨c', cs', -, ⟨rfl, rfl⟩, h⟩
        exact h
    · simp only [ways_one_cons, if_neg hc, List.not_mem_nil, List.cons.injEq, false_iff]
      rintro ⟨c', cs', hc', ⟨rfl, rfl⟩, -⟩
      exact hc hc'

theorem mem_ways_alt {r s : Regex α ν} {start : Bool} {cs : List α} {w : Way α ν} :
    w ∈ (alt r s).ways start cs ↔ w ∈ r.ways start cs ∨ w ∈ s.ways start cs := by
  rw [ways_alt, List.mem_append]

theorem mem_ways_group {name : ν} {r : Regex α ν} {start : Bool} {cs : List α} {w : Way α ν} :
    w ∈ (group name r).ways start cs ↔ ∃ v ∈ r.ways start cs, v.capture name = w := by
  rw [ways_group, List.mem_map]

theorem mem_ways_atEnd {newline : α} {start : Bool} {cs : List α} {w : Way α ν} :
    w ∈ (atEnd newline).ways start cs ↔ (cs = [] ∨ cs = [newline]) ∧ w = .still cs := by
  rw [ways_atEnd]
  split
  · next h => simp [h]
  · next h => simp [h]

theorem mem_ways_seq {r s : Regex α ν} {start : Bool} {cs : List α} {w : Way α ν} :
    w ∈ (seq r s).ways start cs ↔ ∃ v ∈ r.ways start cs,
      ∃ v' ∈ s.ways (start && v.text.isEmpty) v.rest, v.andThen v' = w := by
  simp only [ways_seq, List.mem_flatMap, List.mem_map]

/-! ### Sequences -/

theorem ways_seq_assoc (r s t : Regex α ν) (start : Bool) (cs : List α) :
    (seq (seq r s) t).ways start cs = (seq r (seq s t)).ways start cs := by
  simp only [ways_seq, List.flatMap_assoc, List.flatMap_map, List.map_flatMap, List.map_map]
  refine List.flatMap_congr fun v _ => List.flatMap_congr fun w _ => ?_
  have hflag : (start && (v.andThen w).text.isEmpty) =
      (start && v.text.isEmpty && w.text.isEmpty) := by
    rw [Bool.and_assoc, Way.andThen]
    cases v.text <;> simp
  rw [hflag]
  exact List.map_congr_left fun x _ => andThen_assoc v w x

theorem first_seq_assoc (r s t : Regex α ν) (start : Bool) (cs : List α) :
    (seq (seq r s) t).first start cs = (seq r (seq s t)).first start cs :=
  congrArg List.head? (ways_seq_assoc r s t start cs)

theorem ways_alt_seq (r s t : Regex α ν) (start : Bool) (cs : List α) :
    (seq (alt r s) t).ways start cs = (seq r t).ways start cs ++ (seq s t).ways start cs := by
  simp only [ways_seq, ways_alt, List.flatMap_append]

theorem ways_empty_seq (t : Regex α ν) (start : Bool) (cs : List α) :
    (seq empty t).ways start cs = t.ways start cs := by
  have hid : (Way.still cs : Way α ν).andThen = id := funext fun w => still_andThen cs w
  show ([Way.still cs].flatMap fun v =>
    (t.ways (start && v.text.isEmpty) v.rest).map v.andThen) = _
  rw [List.flatMap_singleton, hid, List.map_id]
  simp [Way.still]

/-- An optional part before something else. -/
theorem first_opt_seq (r t : Regex α ν) (start : Bool) (cs : List α) :
    (seq (opt r) t).first start cs = ((seq r t).first start cs).or (t.first start cs) := by
  rw [first, opt, ways_alt_seq, ways_empty_seq, List.head?_append]
  rfl

theorem first_one_seq (p : α → Bool) (t : Regex α ν) (start : Bool) (c : α) (cs : List α) :
    (seq (one p) t).first start (c :: cs) =
      if p c then (t.first false cs).map (.cons c) else none := by
  unfold first
  by_cases hc : p c = true
  · have hcons : (Way.cons c (Way.still cs) : Way α ν).andThen = Way.cons c :=
      funext fun w => by rw [cons_andThen, still_andThen]
    simp only [ways_seq, ways_one_cons, if_pos hc, List.flatMap_singleton, hcons, List.head?_map]
    simp [Way.cons, Way.still]
  · simp [hc]

@[simp] theorem ways_one_seq_nil (p : α → Bool) (t : Regex α ν) (start : Bool) :
    (seq (one p) t).ways start [] = [] := rfl

/-! ### Greedy repetition -/

/-- What follows a repetition does not match before a character of its class,
    unless the rest is of the class and it also matches at the end. -/
def Stops (p : α → Bool) (r : Regex α ν) : Prop :=
  ∀ c cs, p c = true → r.ways false (c :: cs) ≠ [] →
    (∀ d ∈ cs, p d = true) ∧ r.ways false [] ≠ []

theorem stops_one_seq {p q : α → Bool} (h : ∀ c, p c = true → q c = false) (t : Regex α ν) :
    Stops p (seq (one q) t) := by
  intro c cs hc hne
  simp [h c hc] at hne

/-- Before something that stops it, a repetition takes all it can. -/
theorem head?_splits {p : α → Bool} {r : Regex α ν} (h : Stops p r) (f : Way α ν → Way α ν)
    (cs : List α) :
    ((splits p cs).flatMap fun v => (r.ways false v.rest).map (f v).andThen).head? =
      (r.first false (cs.dropWhile p)).map
        (f ⟨cs.takeWhile p, [], cs.dropWhile p⟩).andThen := by
  obtain ⟨others, heq, hothers⟩ := splits_eq (ν := ν) p cs
  rw [heq, List.flatMap_cons, List.head?_append, List.head?_map, first]
  cases hfirst : (r.ways false (cs.dropWhile p)).head? with
  | some w => rfl
  | none =>
    -- then taking less does not help either
    have hnil : (others.flatMap fun v => (r.ways false v.rest).map (f v).andThen) = [] := by
      refine List.flatMap_eq_nil_iff.2 fun v hv => List.map_eq_nil_iff.2 ?_
      obtain ⟨c, cs', hc, hrest, hdrop⟩ := hothers v hv
      rw [hrest]
      by_contra hne
      obtain ⟨hall, hend⟩ := h c cs' hc hne
      rw [← hdrop, List.dropWhile_eq_nil_iff.2 hall, List.head?_eq_none_iff] at hfirst
      exact hend hfirst
    rw [hnil]
    rfl

/-- A captured repetition before something that stops it. -/
theorem first_group_many_seq {p : α → Bool} {r : Regex α ν} (h : Stops p r) (name : ν)
    (cs : List α) :
    (seq (group name (many p)) r).first false cs =
      (r.first false (cs.dropWhile p)).map
        (Way.andThen ⟨cs.takeWhile p, [(name, cs.takeWhile p)], cs.dropWhile p⟩) := by
  rw [first, ways_seq, ways_group, ways_many, List.flatMap_map]
  exact head?_splits h (Way.capture name) cs

/-- The same for at least one character. -/
theorem first_group_plus_seq {p : α → Bool} {r : Regex α ν} (h : Stops p r) (name : ν)
    (cs : List α) :
    (seq (group name (plus p)) r).first false cs =
      if cs.takeWhile p = [] then none
      else (r.first false (cs.dropWhile p)).map
        (Way.andThen ⟨cs.takeWhile p, [(name, cs.takeWhile p)], cs.dropWhile p⟩) := by
  cases cs with
  | nil => rfl
  | cons c cs =>
    by_cases hc : p c = true
    · have hplus : (plus p : Regex α ν).ways false (c :: cs) =
          (splits p cs).map (Way.cons c) := by
        simp [plus, hc, Way.cons, Way.still, Way.andThen]
      rw [List.takeWhile_cons_of_pos hc, if_neg (by simp), List.dropWhile_cons_of_pos hc, first,
        ways_seq, ways_group, hplus, List.flatMap_map, List.flatMap_map]
      exact head?_splits h (fun v => (v.cons c).capture name) cs
    · simp [first, plus, hc]

/-- At the end of an expression a repetition takes all it can, too. -/
theorem first_group_plus (p : α → Bool) (name : ν) (cs : List α) :
    (group name (plus p) : Regex α ν).first false cs =
      if cs.takeWhile p = [] then none
      else some ⟨cs.takeWhile p, [(name, cs.takeWhile p)], cs.dropWhile p⟩ := by
  cases cs with
  | nil => rfl
  | cons c cs =>
    by_cases hc : p c = true
    · obtain ⟨others, heq, -⟩ := splits_eq (ν := ν) p cs
      rw [List.takeWhile_cons_of_pos hc, if_neg (by simp), List.dropWhile_cons_of_pos hc]
      simp [first, plus, hc, Way.cons, Way.still, Way.andThen, Way.capture, heq]
    · simp [first, plus, hc]

/-! ### Searching -/

/-- The expression does not ask where the text starts. -/
def Floating : Regex α ν → Prop
  | .seq r s | .alt r s => r.Floating ∧ s.Floating
  | .group _ r => r.Floating
  | .atStart => False
  | _ => True

theorem ways_of_floating {r : Regex α ν} (h : r.Floating) (start : Bool) (cs : List α) :
    r.ways start cs = r.ways false cs := by
  induction r generalizing start cs with
  | empty | many | atEnd => rfl
  | one p => cases cs <;> rfl
  | seq r s ihr ihs =>
    rw [ways_seq, ways_seq, ihr h.1]
    exact List.flatMap_congr fun v _ => by rw [ihs h.2, ihs h.2 (false && _)]
  | alt r s ihr ihs => rw [ways_alt, ways_alt, ihr h.1, ihs h.2]
  | group name r ih => rw [ways_group, ways_group, ih h]
  | atStart => exact h.elim

/-- An expression that asks for the start is tried there only. -/
theorem search_atStart_seq {r : Regex α ν} (h : r.Floating) (cs : List α) :
    (seq atStart r).search cs = r.first false cs := by
  have hlater : ∀ cs : List α, (seq atStart r).searchFrom false cs = none := by
    intro cs
    induction cs with
    | nil => simp [searchFrom, first]
    | cons c cs ih => simp [searchFrom, first, ih]
  have hfirst : (seq atStart r).first true cs = r.first false cs := by
    have hid : (Way.still cs : Way α ν).andThen = id := funext fun w => still_andThen cs w
    simp only [first, ways_seq, ways_atStart, if_true, List.flatMap_singleton, hid, List.map_id]
    exact congrArg List.head? (ways_of_floating h _ _)
  unfold search
  cases cs with
  | nil => exact hfirst
  | cons c cs =>
    rw [searchFrom, hfirst, hlater]
    cases r.first false (c :: cs) <;> rfl

/-- Other expressions are tried everywhere, from left to right. -/
theorem search_eq_findSome? {r : Regex α ν} (h : r.Floating) (cs : List α) :
    r.search cs = cs.tails.findSome? (r.first false) := by
  have hstart : ∀ start (cs : List α), r.first start cs = r.first false cs :=
    fun start cs => congrArg List.head? (ways_of_floating h start cs)
  have hfrom : ∀ start, r.searchFrom start cs = cs.tails.findSome? (r.first false) := by
    induction cs with
    | nil =>
      intro start
      rw [searchFrom, hstart, List.tails, List.findSome?_cons]
      cases r.first false [] <;> rfl
    | cons c cs ih =>
      intro start
      rw [searchFrom, hstart, ih, List.tails, List.findSome?_cons]
      cases r.first false (c :: cs) <;> rfl
  exact hfrom true

end Ways

end Regex

end Framework
