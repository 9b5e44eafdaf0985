import Linglong.Framework.Regex
import Linglong.Package.Reference

/-! # The Expressions of Versions and References

    `Version`, `Reference` and `FuzzyReference` are read with one regular
    expression each. What the model takes from a text directly is shown here
    to be what these expressions capture.

    * `Version.captures_eq_search`
    * `Reference.findSome?_matchHere_eq_search`
    * `FuzzyReference.captures_eq_search`
-/

namespace Linglong

open Framework Framework.Regex

/-- What a text joined from parts is made of. -/
theorem mem_intercalate {x c : Char} {parts : List (List Char)} (h : c ∈ [x].intercalate parts) :
    c = x ∨ ∃ part ∈ parts, c ∈ part := by
  induction parts with
  | nil => simp at h
  | cons part parts ih =>
    cases parts with
    | nil => exact .inr ⟨part, by simp, by simpa using h⟩
    | cons part' parts =>
      rw [List.intercalate_cons_cons, List.mem_append, List.mem_append, List.mem_singleton] at h
      rcases h with (h | rfl) | h
      · exact .inr ⟨part, by simp, h⟩
      · exact .inl rfl
      · rcases ih h with rfl | ⟨q, hq, hin⟩
        · exact .inl rfl
        · exact .inr ⟨q, List.mem_cons_of_mem _ hq, hin⟩

/-! ## Section 1: Versions -/

namespace Version

/-- `0|[1-9]\d*`. -/
def numeral : Regex Char Nat :=
  .alt (.one (· == '0')) (.seq (.one fun c => '1' ≤ c && c ≤ '9') (.many Char.isDigit))

/-- `\.`. -/
def dot : Regex Char Nat := .one (· == '.')

/-- The expression after its `^`. -/
def numbers : Regex Char Nat :=
  .seq (.group 1 numeral) <| .seq dot <| .seq (.group 2 numeral) <| .seq dot <|
    .seq (.group 3 numeral) <| .seq (opt (.seq dot (.group 4 numeral))) (.atEnd '\n')

/-- `^(0|[1-9]\d*)\.(0|[1-9]\d*)\.(0|[1-9]\d*)(?:\.(0|[1-9]\d*))?$`. -/
def regexExp : Regex Char Nat := .seq .atStart numbers

theorem isNumeral_cons {c : Char} (cs : List Char) (h : '1' ≤ c ∧ c ≤ '9') :
    isNumeral (c :: cs) = cs.all Char.isDigit := by
  have hne : c ≠ '0' := by
    rintro rfl
    exact absurd h.1 (by decide)
  unfold isNumeral
  split
  · next heq => cases heq
  · next heq =>
    simp only [List.cons.injEq] at heq
    exact absurd heq.1 hne
  · next heq =>
    simp only [List.cons.injEq] at heq
    obtain ⟨rfl, rfl⟩ := heq
    simp [h]

theorem isNumeral_iff {cs : List Char} :
    isNumeral cs = true ↔ cs = ['0'] ∨
      ∃ c l, cs = c :: l ∧ '1' ≤ c ∧ c ≤ '9' ∧ l.all Char.isDigit = true := by
  constructor
  · intro h
    unfold isNumeral at h
    split at h
    · cases h
    · exact .inl rfl
    · next c l _ =>
      simp only [Bool.and_eq_true, decide_eq_true_eq] at h
      exact .inr ⟨c, l, rfl, h.1.1, h.1.2, h.2⟩
  · rintro (rfl | ⟨c, l, rfl, hone, hnine, hall⟩)
    · rfl
    · rw [isNumeral_cons l ⟨hone, hnine⟩]
      exact hall

theorem isDigit_of_isNumeral {cs : List Char} (h : isNumeral cs = true) {c : Char} (hc : c ∈ cs) :
    c.isDigit = true := by
  rcases isNumeral_iff.1 h with rfl | ⟨d, l, rfl, hone, hnine, hall⟩
  · rw [List.mem_singleton.1 hc]
    rfl
  · rcases List.mem_cons.1 hc with rfl | hmem
    · have hlow : 49 ≤ c.toNat := hone
      have hhigh : c.toNat ≤ 57 := hnine
      have hrange : 48 ≤ c.toNat := by omega
      simpa [Char.isDigit, UInt32.le_iff_toNat_le] using ⟨hrange, hhigh⟩
    · exact List.all_eq_true.1 hall c hmem

theorem not_dot_of_isNumeral {cs : List Char} (h : isNumeral cs = true) : '.' ∉ cs :=
  fun hmem => absurd (isDigit_of_isNumeral h hmem) (by decide)

/-- The class `0|[1-9]\d*` takes numerals. -/
theorem mem_ways_numeral {start : Bool} {cs : List Char} {w : Way Char Nat} :
    w ∈ numeral.ways start cs ↔ w.groups = [] ∧ w.text ++ w.rest = cs ∧ isNumeral w.text = true := by
  obtain ⟨text, groups, rest⟩ := w
  simp only [numeral, mem_ways_alt, mem_ways_one, mem_ways_seq, isNumeral_iff]
  constructor
  -- a zero alone, or a digit from one to nine and any digits after it
  · rintro (⟨c, cs', hc, rfl, heq⟩ | ⟨v, ⟨c, cs', hc, rfl, rfl⟩, v', hv', heq⟩)
    · cases heq
      rw [beq_iff_eq] at hc
      subst hc
      exact ⟨rfl, rfl, .inl rfl⟩
    · obtain ⟨hgroups, htext, hall⟩ := mem_splits.1 hv'
      cases heq
      simp only [Bool.and_eq_true, decide_eq_true_eq] at hc
      refine ⟨by simpa using hgroups, by simpa using htext, .inr ⟨c, v'.text, rfl, hc.1, hc.2, ?_⟩⟩
      exact List.all_eq_true.2 hall
  · rintro ⟨hgroups, htext, rfl | ⟨c, l, rfl, hone, hnine, hall⟩⟩
    · obtain rfl : groups = [] := hgroups
      exact .inl ⟨'0', rest, rfl, htext.symm, rfl⟩
    · obtain rfl : groups = [] := hgroups
      refine .inr ⟨⟨[c], [], l ++ rest⟩, ⟨c, l ++ rest, by simp [hone, hnine], htext.symm, rfl⟩,
        ⟨l, [], rest⟩, mem_splits.2 ⟨rfl, rfl, List.all_eq_true.1 hall⟩, rfl⟩

/-- A captured number, then something else. -/
theorem mem_ways_numeral_seq {name : Nat} {r : Regex Char Nat} {start : Bool} {cs : List Char}
    {w : Way Char Nat} :
    w ∈ (Regex.seq (.group name numeral) r).ways start cs ↔
      ∃ part cs', isNumeral part = true ∧ cs = part ++ cs' ∧
        ∃ v ∈ r.ways false cs', w = ⟨part ++ v.text, (name, part) :: v.groups, v.rest⟩ := by
  simp only [mem_ways_seq, mem_ways_group, mem_ways_numeral]
  constructor
  · rintro ⟨_, ⟨⟨part, groups, cs'⟩, ⟨hgroups, rfl, hpart⟩, rfl⟩, v, hv, rfl⟩
    obtain rfl : groups = [] := hgroups
    -- a numeral is not empty, so what follows is not at the start
    have hne : part.isEmpty = false := by
      cases part with
      | nil => cases hpart
      | cons => rfl
    simp only [Way.capture, hne, Bool.and_false] at hv
    exact ⟨part, cs', hpart, rfl, v, hv, rfl⟩
  · rintro ⟨part, cs', hpart, rfl, v, hv, rfl⟩
    have hne : part.isEmpty = false := by
      cases part with
      | nil => cases hpart
      | cons => rfl
    refine ⟨_, ⟨⟨part, [], cs'⟩, ⟨rfl, rfl, hpart⟩, rfl⟩, v, ?_, rfl⟩
    simpa only [Way.capture, hne, Bool.and_false] using hv

/-- A dot, then something else. -/
theorem mem_ways_dot_seq {r : Regex Char Nat} {start : Bool} {cs : List Char} {w : Way Char Nat} :
    w ∈ (Regex.seq dot r).ways start cs ↔ ∃ cs', cs = '.' :: cs' ∧
      ∃ v ∈ r.ways false cs', w = ⟨'.' :: v.text, v.groups, v.rest⟩ := by
  simp only [mem_ways_seq, dot, mem_ways_one, beq_iff_eq]
  constructor
  · rintro ⟨_, ⟨_, cs', rfl, rfl, rfl⟩, v, hv, rfl⟩
    exact ⟨cs', rfl, v, by simpa using hv, rfl⟩
  · rintro ⟨cs', rfl, v, hv, rfl⟩
    exact ⟨_, ⟨_, cs', rfl, rfl, rfl⟩, v, by simpa using hv, rfl⟩

/-- The captured parts are three or four numerals; they make up the text but
    for a final newline. -/
theorem captures_iff {raw : String} {parts : List (List Char)} :
    captures raw = some parts ↔ (parts.length = 3 ∨ parts.length = 4) ∧
      (∀ part ∈ parts, isNumeral part = true) ∧
      ['.'].intercalate parts = dropFinalNewline raw.toList := by
  constructor
  · intro h
    refine ⟨?_, (captures_spec h).2, (captures_spec h).1⟩
    unfold captures at h
    simp only at h
    split at h
    · next hparts =>
      cases h
      exact hparts.1
    · cases h
  · rintro ⟨hlength, hnumeral, htext⟩
    have hne : parts ≠ [] := by
      rintro rfl
      simp at hlength
    -- numerals have no dot in them, so splitting gives them back
    have hsplit : (dropFinalNewline raw.toList).splitOn '.' = parts := by
      rw [← htext]
      exact List.splitOn_intercalate '.' (fun part hpart =>
        not_dot_of_isNumeral (hnumeral part hpart)) hne
    unfold captures
    simp only [hsplit]
    exact if_pos ⟨hlength, List.all_eq_true.2 hnumeral⟩

/-- What `$` leaves at the end. -/
theorem dropFinalNewline_eq_iff {cs text : List Char} (h : text.getLast? ≠ some '\n') :
    dropFinalNewline cs = text ↔ cs = text ∨ cs = text ++ ['\n'] := by
  unfold dropFinalNewline
  constructor
  · intro heq
    split at heq
    · next hlast =>
      rw [← heq]
      exact .inr (List.dropLast_append_getLast? _ hlast).symm
    · exact .inl heq
  · rintro (rfl | rfl)
    · rw [if_neg h]
    · simp

/-- A text of numbers has no newline in it. -/
theorem not_newline_of_numerals {parts : List (List Char)}
    (hnumeral : ∀ part ∈ parts, isNumeral part = true) : '\n' ∉ ['.'].intercalate parts := by
  intro hmem
  rcases mem_intercalate hmem with hdot | ⟨part, hpart, hin⟩
  · exact absurd hdot (by decide)
  · exact absurd (isDigit_of_isNumeral (hnumeral part hpart) hin) (by decide)

/-- The ways of the expression. -/
theorem mem_ways_numbers {cs : List Char} {w : Way Char Nat} :
    w ∈ numbers.ways false cs ↔ ∃ parts rest, (parts.length = 3 ∨ parts.length = 4) ∧
      (∀ part ∈ parts, isNumeral part = true) ∧ (rest = [] ∨ rest = ['\n']) ∧
      cs = ['.'].intercalate parts ++ rest ∧
      w = ⟨['.'].intercalate parts, [1, 2, 3, 4].zip parts, rest⟩ := by
  have htweak : ∀ (cs : List Char) (v : Way Char Nat),
      v ∈ (Regex.seq (opt (.seq dot (.group 4 numeral))) (.atEnd '\n')).ways false cs ↔
        v ∈ (Regex.seq dot (.seq (.group 4 numeral) (.atEnd '\n'))).ways false cs ∨
          v ∈ (Regex.atEnd '\n' : Regex Char Nat).ways false cs := by
    intro cs v
    rw [opt, ways_alt_seq, ways_empty_seq, ways_seq_assoc, List.mem_append]
  -- the tweak is there or not; either way the end has to follow
  simp only [numbers, mem_ways_numeral_seq, mem_ways_dot_seq, htweak, mem_ways_atEnd]
  constructor
  · rintro ⟨n₁, _, h₁, rfl, _, ⟨_, rfl, _, ⟨n₂, _, h₂, rfl, _, ⟨_, rfl, _, ⟨n₃, _, h₃, rfl, _,
      ⟨_, rfl, _, ⟨n₄, rest, h₄, rfl, _, ⟨hrest, rfl⟩, rfl⟩, rfl⟩ | ⟨hrest, rfl⟩, rfl⟩, rfl⟩,
      rfl⟩, rfl⟩, rfl⟩
    · refine ⟨[n₁, n₂, n₃, n₄], rest, .inr rfl, by simp [h₁, h₂, h₃, h₄], hrest, ?_, ?_⟩ <;>
        simp [List.intercalate, Way.still]
    · refine ⟨[n₁, n₂, n₃], _, .inl rfl, by simp [h₁, h₂, h₃], hrest, ?_, ?_⟩ <;>
        simp [List.intercalate, Way.still]
  · rintro ⟨parts, rest, hlength, hnumeral, hrest, rfl, rfl⟩
    rcases parts with _ | ⟨n₁, _ | ⟨n₂, _ | ⟨n₃, _ | ⟨n₄, _ | ⟨_, _⟩⟩⟩⟩⟩ <;>
      simp only [List.length_nil, List.length_cons] at hlength <;> try omega
    · refine ⟨n₁, '.' :: (n₂ ++ '.' :: (n₃ ++ rest)), hnumeral n₁ (by simp), ?_, _,
        ⟨_, rfl, _, ⟨n₂, '.' :: (n₃ ++ rest), hnumeral n₂ (by simp), rfl, _, ⟨_, rfl, _,
          ⟨n₃, rest, hnumeral n₃ (by simp), rfl, .still rest, .inr ⟨hrest, rfl⟩, rfl⟩, rfl⟩, rfl⟩,
          rfl⟩, ?_⟩ <;> simp [List.intercalate, Way.still]
    · refine ⟨n₁, '.' :: (n₂ ++ '.' :: (n₃ ++ '.' :: (n₄ ++ rest))), hnumeral n₁ (by simp), ?_, _,
        ⟨_, rfl, _, ⟨n₂, '.' :: (n₃ ++ '.' :: (n₄ ++ rest)), hnumeral n₂ (by simp), rfl, _,
          ⟨_, rfl, _, ⟨n₃, '.' :: (n₄ ++ rest), hnumeral n₃ (by simp), rfl, _, .inl ⟨_, rfl, _,
            ⟨n₄, rest, hnumeral n₄ (by simp), rfl, .still rest, ⟨hrest, rfl⟩, rfl⟩, rfl⟩, rfl⟩,
            rfl⟩, rfl⟩, rfl⟩, ?_⟩ <;> simp [List.intercalate, Way.still]

/-- **The expression of versions** captures what the model takes. -/
theorem captures_eq_search (raw : String) :
    captures raw = (regexExp.search raw.toList).map fun w => w.groups.map Prod.snd := by
  have hfloating : numbers.Floating := by
    simp [numbers, numeral, dot, opt, Floating]
  have hcaptures : ∀ w ∈ numbers.ways false raw.toList,
      captures raw = some (w.groups.map Prod.snd) := by
    intro w hw
    obtain ⟨parts, rest, hlength, hnumeral, hrest, htext, rfl⟩ := mem_ways_numbers.1 hw
    have hgroups : ([1, 2, 3, 4].zip parts).map Prod.snd = parts := by
      rw [List.map_snd_zip]
      rw [List.length_cons, List.length_cons, List.length_cons, List.length_singleton]
      omega
    rw [hgroups, captures_iff]
    refine ⟨hlength, hnumeral, Eq.symm ?_⟩
    rw [dropFinalNewline_eq_iff fun hlast =>
      not_newline_of_numerals hnumeral (List.mem_of_getLast? hlast), htext]
    exact hrest.imp (fun h => by rw [h, List.append_nil]) fun h => by rw [h]
  rw [regexExp, search_atStart_seq hfloating, first]
  cases hways : numbers.ways false raw.toList with
  | cons w ws => exact hcaptures w (by simp [hways])
  | nil =>
    -- what the model takes would be a way
    cases hsome : captures raw with
    | none => rfl
    | some parts =>
      obtain ⟨hlength, hnumeral, htext⟩ := captures_iff.1 hsome
      have hmem : ∃ w, w ∈ numbers.ways false raw.toList := by
        rcases (dropFinalNewline_eq_iff fun hlast =>
          not_newline_of_numerals hnumeral (List.mem_of_getLast? hlast)).1 htext.symm with h | h
        · exact ⟨_, mem_ways_numbers.2
            ⟨parts, [], hlength, hnumeral, .inl rfl, by simpa using h, rfl⟩⟩
        · exact ⟨_, mem_ways_numbers.2 ⟨parts, ['\n'], hlength, hnumeral, .inr rfl, h, rfl⟩⟩
      obtain ⟨w, hw⟩ := hmem
      rw [hways] at hw
      cases hw

end Version

/-! ## Section 2: References -/

/-- What a named group captured; empty if it took no part. -/
def captured (w : Way Char String) (name : String) : String :=
  .ofList ((w.groups.lookup name).getD [])

/-- All characters but one. -/
def except (a : Char) : Char → Bool := (· ≠ a)

theorem stops_separator (a : Char) (r : Regex Char String) :
    Stops (except a) (.seq (.one (· == a)) r) := by
  refine stops_one_seq (fun c hc => ?_) r
  simpa [except] using hc

/-- A separator follows what ends before it. -/
theorem head_of_span {a : Char} {cs l rest : List Char} (h : cs.span (except a) = (l, rest))
    (hrest : rest ≠ []) : rest = a :: rest.tail := by
  rw [List.span_eq_takeWhile_dropWhile, Prod.mk.injEq] at h
  cases rest with
  | nil => exact absurd rfl hrest
  | cons c rest =>
    have hhead := List.head?_dropWhile_not (except a) cs
    rw [h.2] at hhead
    have hc : c = a := by simpa [except] using hhead
    rw [hc]
    rfl

/-- A part of a reference and the separator after it. -/
theorem first_part {a : Char} {r : Regex Char String} {cs l rest : List Char}
    (h : cs.span (except a) = (l, rest)) (name : String) :
    (Regex.seq (.group name (plus (except a))) (.seq (.one (· == a)) r)).first false cs =
      if l = [] ∨ rest = [] then none
      else (r.first false rest.tail).map
        fun w => ⟨l ++ a :: w.text, (name, l) :: w.groups, w.rest⟩ := by
  have hspan := h
  rw [List.span_eq_takeWhile_dropWhile, Prod.mk.injEq] at hspan
  rw [first_group_plus_seq (stops_separator a r), hspan.1, hspan.2]
  by_cases hl : l = []
  · simp [hl]
  by_cases hrest : rest = []
  · subst hrest
    simp [hl, first]
  · rw [if_neg hl, if_neg (by simp [hl, hrest]), head_of_span h hrest, first_one_seq]
    simp only [beq_self_eq_true, if_true, Option.map_map, List.tail_cons]
    rfl

namespace Reference

/-- `(?<channel>[^:]+):(?<id>[^\/]+)\/(?<version>[^\/]+)\/(?<architecture>[^\/]+)`. -/
def referenceRegExp : Regex Char String :=
  .seq (.group "channel" (plus (except ':'))) <| .seq (.one (· == ':')) <|
    .seq (.group "id" (plus (except '/'))) <| .seq (.one (· == '/')) <|
    .seq (.group "version" (plus (except '/'))) <| .seq (.one (· == '/')) <|
    .group "architecture" (plus (except '/'))

/-- The groups of a reference. -/
def Captured.of (w : Way Char String) : Captured :=
  ⟨captured w "channel", captured w "id", captured w "version", captured w "architecture"⟩

/-- Tried at one place, the expression finds what the model finds. -/
theorem matchHere_eq_first (cs : List Char) :
    matchHere cs = (referenceRegExp.first false cs).map Captured.of := by
  unfold matchHere referenceRegExp
  -- at each separator both fail together if it is missing
  rcases hchannel : cs.span (· ≠ ':') with ⟨channel, _ | ⟨_, cs₁⟩⟩
  · rw [first_part hchannel]
    simp
  rw [first_part hchannel, List.tail_cons]
  simp only []
  rcases hid : cs₁.span (· ≠ '/') with ⟨id, _ | ⟨_, cs₂⟩⟩
  · rw [first_part hid]
    simp
  rw [first_part hid, List.tail_cons]
  simp only []
  rcases hversion : cs₂.span (· ≠ '/') with ⟨version, _ | ⟨_, cs₃⟩⟩
  · rw [first_part hversion]
    simp
  rw [first_part hversion, List.tail_cons, first_group_plus]
  -- all separators are there; an empty part makes both fail
  by_cases hc : channel = []
  · simp [hc]
  by_cases hi : id = []
  · simp [hi]
  by_cases hv : version = []
  · simp [hv]
  by_cases ha : cs₃.takeWhile (except '/') = []
  · have ha' : cs₃.takeWhile (· ≠ '/') = [] := ha
    simp only [ha, ha', or_true, if_true, Option.map_none, ite_self]
  · have ha' : cs₃.takeWhile (· ≠ '/') ≠ [] := ha
    simp only [hc, hi, hv, ha, ha', or_self, if_false, reduceCtorEq, Option.map_some]
    rfl

/-- **The expression of references**, at the leftmost place. -/
theorem findSome?_matchHere_eq_search (raw : String) :
    raw.toList.tails.findSome? matchHere =
      (referenceRegExp.search raw.toList).map Captured.of := by
  have hfloating : referenceRegExp.Floating := by
    simp [referenceRegExp, plus, Floating]
  rw [search_eq_findSome? hfloating, List.map_findSome?]
  exact congrArg (List.findSome? · _) (funext matchHere_eq_first)

end Reference

/-! ## Section 3: Fuzzy references -/

/-- A part that may be empty, up to the separator. -/
theorem first_upTo {a : Char} {l : List Char} (h : a ∉ l) {r : Regex Char String}
    (hr : Stops (except a) r) (name : String) {rest : List Char}
    (hrest : rest = [] ∨ ∃ cs, rest = a :: cs) :
    (Regex.seq (.group name (.many (except a))) r).first false (l ++ rest) =
      (r.first false rest).map fun w => ⟨l ++ w.text, (name, l) :: w.groups, w.rest⟩ := by
  have hall : ∀ c ∈ l, except a c = true := ne_of_not_mem h
  have hstop : rest.takeWhile (except a) = [] ∧ rest.dropWhile (except a) = rest := by
    rcases hrest with rfl | ⟨cs, rfl⟩
    · exact ⟨rfl, rfl⟩
    · exact ⟨List.takeWhile_cons_of_neg (by simp [except]),
        List.dropWhile_cons_of_neg (by simp [except])⟩
  rw [first_group_many_seq hr, List.takeWhile_append_of_pos hall,
    List.dropWhile_append_of_pos hall, hstop.1, hstop.2, List.append_nil]
  rfl

/-- An optional part that starts with the separator, at the end. -/
theorem stops_opt_end (a : Char) (r : Regex Char String) :
    Stops (except a) (.seq (opt (.seq (.one (· == a)) r)) (.atEnd '\n')) := by
  intro c cs hc hne
  have hca : (c == a) = false := by simpa [except] using hc
  -- the option does not start with `c`, so the text ends here
  rw [opt, ways_alt_seq, ways_empty_seq, ways_seq_assoc] at hne
  have hend : cs = [] := by
    by_contra hcs
    simp [hca, hcs] at hne
  subst hend
  refine ⟨by simp, ?_⟩
  rw [opt, ways_alt_seq, ways_empty_seq]
  simp

theorem stops_end (a : Char) : Stops (except a) (.atEnd '\n' : Regex Char String) := by
  intro c cs hc hne
  have hend : cs = [] := by
    by_contra hcs
    simp [hcs] at hne
  subst hend
  simp

/-- A longer text has no fewer parts. -/
theorem length_splitOn_le (a : Char) (l cs : List Char) :
    (cs.splitOn a).length ≤ ((l ++ cs).splitOn a).length := by
  induction l with
  | nil => exact le_refl _
  | cons c l ih =>
    rw [List.cons_append, List.splitOn_cons_eq_if_modifyHead]
    split
    · rw [List.length_cons]
      omega
    · rw [List.length_modifyHead]
      exact ih

namespace FuzzyReference

/-- `(?:\/(?<architecture>[^\/]*))`. -/
def architecturePart : Regex Char String :=
  .seq (.one (· == '/')) (.group "architecture" (.many (except '/')))

/-- `(?:\/(?<version>[^\/]*)(?:…)?)`. -/
def versionPart : Regex Char String :=
  .seq (.one (· == '/')) (.seq (.group "version" (.many (except '/'))) (opt architecturePart))

/-- `(?<id>[^\/]*)(?:…)?$`. -/
def afterChannel : Regex Char String :=
  .seq (.group "id" (.many (except '/'))) (.seq (opt versionPart) (.atEnd '\n'))

/-- `(?:(?<channel>[^:]*):)`. -/
def channelPart : Regex Char String :=
  .seq (.group "channel" (.many (except ':'))) (.one (· == ':'))

/-- `^(?:(?<channel>[^:]*):)?(?<id>[^\/]*)(?:\/(?<version>[^\/]*)(?:\/(?<architecture>[^\/]*))?)?$`. -/
def regexp : Regex Char String := .seq .atStart (.seq (opt channelPart) afterChannel)

theorem first_end (cs : List Char) :
    (Regex.atEnd '\n' : Regex Char String).first false cs =
      if cs = [] ∨ cs = ['\n'] then some (.still cs) else none := by
  unfold first
  rw [ways_atEnd]
  split <;> rfl

/-- An end of the expression that takes up to as many parts as there are
    names, each after a separator. -/
structure TakesParts (names : List String) (t : Regex Char String) : Prop where
  stops : Stops (except '/') t
  absent : t.first false [] = some (.still [])
  present : ∀ cs, t.first false ('/' :: cs) =
    if (cs.splitOn '/').length ≤ names.length then
      some ⟨'/' :: cs, names.zip (cs.splitOn '/'), []⟩
    else none

theorem takesParts_end : TakesParts [] (.atEnd '\n') where
  stops := stops_end '/'
  absent := by rw [first_end, if_pos (.inl rfl)]
  present := fun cs => by rw [first_end, if_neg (by simp), if_neg (by simp)]

variable {names : List String} {t : Regex Char String}

/-- One more part before that. -/
theorem TakesParts.first_group (h : TakesParts names t) (name : String) (cs : List Char) :
    (Regex.seq (.group name (.many (except '/'))) t).first false cs =
      if (cs.splitOn '/').length ≤ names.length + 1 then
        some ⟨cs, (name :: names).zip (cs.splitOn '/'), []⟩
      else none := by
  by_cases hmem : '/' ∈ cs
  · -- the group takes all up to the first separator
    obtain ⟨l, m, rfl, hl⟩ := List.eq_append_cons_of_mem hmem
    rw [first_upTo hl h.stops name (.inr ⟨m, rfl⟩), h.present,
      List.splitOn_append_cons_self_of_not_mem hl, List.length_cons]
    by_cases hlength : (m.splitOn '/').length ≤ names.length
    · rw [if_pos hlength, if_pos (by omega)]
      simp
    · rw [if_neg hlength, if_neg (by omega)]
      rfl
  · have hpart := first_upTo hmem h.stops name (.inl rfl)
    rw [List.append_nil] at hpart
    rw [hpart, h.absent, List.splitOn_eq_singleton hmem]
    simp [Way.still]

/-- And this again after a separator, as an optional part. -/
theorem TakesParts.opt (h : TakesParts names t) (name : String) {r : Regex Char String}
    (hr : ∀ cs, (Regex.seq r (.atEnd '\n')).first false cs =
      (Regex.seq (.group name (.many (except '/'))) t).first false cs) :
    TakesParts (name :: names) (.seq (opt (.seq (.one (· == '/')) r)) (.atEnd '\n')) where
  stops := stops_opt_end '/' r
  absent := by
    rw [first_opt_seq, first_end, if_pos (.inl rfl), first_seq_assoc]
    simp [first]
  present := fun cs => by
    rw [first_opt_seq, first_end, if_neg (by simp), Option.or_none, first_seq_assoc, first_one_seq,
      hr, h.first_group name cs, List.length_cons]
    by_cases hlength : (cs.splitOn '/').length ≤ names.length + 1
    · rw [if_pos hlength, if_pos hlength]
      rfl
    · rw [if_neg hlength, if_neg hlength]
      rfl

/-- What follows the channel has at most three parts. -/
theorem first_afterChannel (cs : List Char) :
    afterChannel.first false cs =
      if (cs.splitOn '/').length ≤ 3 then
        some ⟨cs, ["id", "version", "architecture"].zip (cs.splitOn '/'), []⟩
      else none := by
  have harchitecture := takesParts_end.opt "architecture" (r := .group "architecture" _)
    fun cs => rfl
  have hversion := harchitecture.opt "version"
    (r := .seq (.group "version" (.many (except '/'))) (opt architecturePart))
    fun cs => first_seq_assoc _ _ _ _ _
  exact hversion.first_group "id" cs

/-- The groups after the channel. -/
def partsOf (w : Way Char String) : List String :=
  (w.groups.filter fun g => g.1 ≠ "channel").map fun g => .ofList g.2

theorem partsOf_zip {parts : List (List Char)} (hlength : parts.length ≤ 3)
    (channel : List (String × List Char)) (hchannel : ∀ g ∈ channel, g.1 = "channel")
    (text rest : List Char) :
    partsOf ⟨text, channel ++ ["id", "version", "architecture"].zip parts, rest⟩ =
      parts.map .ofList := by
  have hdropped : channel.filter (fun g => g.1 ≠ "channel") = [] :=
    List.filter_eq_nil_iff.2 fun g hg => by simp [hchannel g hg]
  have hkept : (["id", "version", "architecture"].zip parts).filter (fun g => g.1 ≠ "channel") =
      ["id", "version", "architecture"].zip parts := by
    refine List.filter_eq_self.2 fun g hg => decide_eq_true fun heq => ?_
    have hname := (List.of_mem_zip hg).1
    rw [heq] at hname
    exact absurd hname (by decide)
  have hsnd : (["id", "version", "architecture"].zip parts).map Prod.snd = parts :=
    List.map_snd_zip hlength
  unfold partsOf
  conv_rhs => rw [← hsnd, List.map_map]
  rw [List.filter_append, hdropped, hkept, List.nil_append]
  rfl

/-- **The expression of fuzzy references** captures what the model takes. -/
theorem captures_eq_search (raw : String) :
    captures raw = (regexp.search raw.toList).map fun w => (captured w "channel", partsOf w) := by
  have hfloating : (Regex.seq (opt channelPart) afterChannel).Floating := by
    simp [channelPart, afterChannel, versionPart, architecturePart, opt, Floating]
  rw [regexp, search_atStart_seq hfloating, first_opt_seq, channelPart, first_seq_assoc]
  unfold captures
  by_cases hmem : ':' ∈ raw.toList
  · -- the channel is tried first
    obtain ⟨l, m, htext, hl⟩ := List.eq_append_cons_of_mem hmem
    rw [htext, span_append_of_not_mem hl,
      first_upTo hl (stops_separator ':' afterChannel) "channel" (.inr ⟨m, rfl⟩), first_one_seq,
      if_pos (beq_self_eq_true ':'), first_afterChannel]
    simp only
    by_cases hlength : (m.splitOn '/').length ≤ 3
    · have hparts := partsOf_zip hlength [("channel", l)] (by simp) (l ++ ':' :: m) []
      rw [if_pos hlength, if_pos hlength, ← hparts]
      rfl
    · -- without a channel there are no fewer parts
      have hlonger : ¬ ((l ++ ':' :: m).splitOn '/').length ≤ 3 := by
        have hle := length_splitOn_le '/' (l ++ [':']) m
        rw [List.append_assoc] at hle
        exact fun h => hlength (hle.trans h)
      rw [if_neg hlength, if_neg hlength, first_afterChannel, if_neg hlonger]
      rfl
  · have hspan : raw.toList.span (· ≠ ':') = (raw.toList, []) := span_of_not_mem hmem
    -- without a colon only the second alternative is left
    have hpart := first_upTo hmem (stops_separator ':' afterChannel) "channel" (.inl rfl)
    rw [List.append_nil] at hpart
    rw [hpart, hspan, first_afterChannel]
    simp only
    by_cases hlength : (raw.toList.splitOn '/').length ≤ 3
    · have hparts := partsOf_zip hlength [] (by simp) raw.toList []
      have hnone : (["id", "version", "architecture"].zip
          (raw.toList.splitOn '/')).lookup "channel" = none := by
        refine List.lookup_eq_none_iff.2 fun g hg => ?_
        have hname := (List.of_mem_zip hg).1
        grind
      have hchannel : ∀ text rest, captured ⟨text, ["id", "version", "architecture"].zip
          (raw.toList.splitOn '/'), rest⟩ "channel" = .ofList [] := by
        intro text rest
        unfold captured
        rw [hnone, Option.getD_none]
      rw [if_pos hlength, if_pos hlength, ← hparts, ← hchannel raw.toList []]
      rfl
    · rw [if_neg hlength, if_neg hlength]
      rfl

end FuzzyReference

end Linglong
