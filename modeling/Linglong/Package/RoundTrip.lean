import Linglong.Package.Expressions

/-! # Reading and Printing

    Versions and references are printed with `toString` and read back with
    `parse`: the keys of tasks, the texts of `deferredUninstall` and the
    values of D-Bus messages go both ways.

    1. Versions: which texts are read, and that printing gives them back
       (`readsGrammar_iff`).
    2. References: when a text that is read is printed again (`exact_iff`).
    3. References of packages (`roundTrips_iff`).
    4. Fuzzy references (`FuzzyReference.roundTrip`).
-/

namespace Linglong

open Framework

/-! ## Section 1: Versions -/

namespace Version

/-- `N.N.N` or `N.N.N.N`, where `N` is 0 or a decimal numeral without leading
    zero that fits into a `qlonglong`. -/
def IsVersionText (text : List Char) : Prop :=
  ∃ parts, (parts.length = 3 ∨ parts.length = 4) ∧
    (∀ part ∈ parts, isNumeral part = true ∧ numeralValue part ≤ maxLongLong) ∧
    text = ['.'].intercalate parts

/-- Exactly the version texts are read, and each is printed as it was. -/
structure ReadsGrammar (raw : String) : Prop where
  accepts : (∃ v, parse raw = .ok v) ↔ IsVersionText raw.toList
  prints : ∀ v, parse raw = .ok v → v.toString = raw

/-- All parts fit into a `qlonglong`. -/
def Representable (v : Version) : Prop :=
  v.major ≤ maxLongLong ∧ v.minor ≤ maxLongLong ∧ v.patch ≤ maxLongLong ∧
    ∀ t ∈ v.tweak, t ≤ maxLongLong

theorem toLongLong_eq_ok_iff {cs : List Char} {tooLarge : String} {n : Nat} :
    toLongLong cs tooLarge = .ok n ↔ numeralValue cs ≤ maxLongLong ∧ numeralValue cs = n := by
  unfold toLongLong
  by_cases hfits : numeralValue cs ≤ maxLongLong
  · simp [hfits]
  · simp [hfits]

/-- The version that three or four numerals stand for. -/
def versionOf : List (List Char) → Option Version
  | [n₁, n₂, n₃] => some ⟨numeralValue n₁, numeralValue n₂, numeralValue n₃, none⟩
  | [n₁, n₂, n₃, n₄] =>
      some ⟨numeralValue n₁, numeralValue n₂, numeralValue n₃, some (numeralValue n₄)⟩
  | _ => none

/-- `Version::parse` reads the captured numbers if they fit. -/
theorem parse_eq_ok_iff {raw : String} {v : Version} :
    parse raw = .ok v ↔ ∃ parts, captures raw = some parts ∧
      (∀ part ∈ parts, numeralValue part ≤ maxLongLong) ∧ versionOf parts = some v := by
  constructor
  · intro h
    unfold parse at h
    split at h
    · next n₁ n₂ n₃ hcaptures =>
      simp only [bind_eq_ok_iff] at h
      obtain ⟨major, h₁, minor, h₂, patch, h₃, h⟩ := h
      cases h
      obtain ⟨hfits₁, rfl⟩ := toLongLong_eq_ok_iff.1 h₁
      obtain ⟨hfits₂, rfl⟩ := toLongLong_eq_ok_iff.1 h₂
      obtain ⟨hfits₃, rfl⟩ := toLongLong_eq_ok_iff.1 h₃
      exact ⟨_, hcaptures, by simp [hfits₁, hfits₂, hfits₃], rfl⟩
    · next n₁ n₂ n₃ n₄ hcaptures =>
      simp only [bind_eq_ok_iff] at h
      obtain ⟨major, h₁, minor, h₂, patch, h₃, tweak, h₄, h⟩ := h
      cases h
      obtain ⟨hfits₁, rfl⟩ := toLongLong_eq_ok_iff.1 h₁
      obtain ⟨hfits₂, rfl⟩ := toLongLong_eq_ok_iff.1 h₂
      obtain ⟨hfits₃, rfl⟩ := toLongLong_eq_ok_iff.1 h₃
      obtain ⟨hfits₄, rfl⟩ := toLongLong_eq_ok_iff.1 h₄
      exact ⟨_, hcaptures, by simp [hfits₁, hfits₂, hfits₃, hfits₄], rfl⟩
    · cases h
  · rintro ⟨parts, hcaptures, hfits, hv⟩
    unfold parse
    rw [hcaptures]
    have hread : ∀ part ∈ parts, ∀ tooLarge, toLongLong part tooLarge = .ok (numeralValue part) :=
      fun part hpart tooLarge => toLongLong_eq_ok_iff.2 ⟨hfits part hpart, rfl⟩
    unfold versionOf at hv
    -- without a tweak, with one, or another number of parts
    split at hv
    · cases hv
      simp [hread, bind_eq_ok_iff]
    · cases hv
      simp [hread, bind_eq_ok_iff]
    · cases hv

theorem versionOf_isSome {parts : List (List Char)} (h : parts.length = 3 ∨ parts.length = 4) :
    ∃ v, versionOf parts = some v := by
  rcases parts with _ | ⟨n₁, _ | ⟨n₂, _ | ⟨n₃, _ | ⟨n₄, _ | ⟨_, _⟩⟩⟩⟩⟩ <;>
    simp only [List.length_nil, List.length_cons] at h <;> try omega
  · exact ⟨_, rfl⟩
  · exact ⟨_, rfl⟩

/-- A text is read if it is a version text up to a final newline. -/
theorem exists_parse_iff {raw : String} :
    (∃ v, parse raw = .ok v) ↔ IsVersionText (dropFinalNewline raw.toList) := by
  constructor
  · rintro ⟨v, h⟩
    obtain ⟨parts, hcaptures, hfits, -⟩ := parse_eq_ok_iff.1 h
    obtain ⟨hlength, hnumeral, htext⟩ := captures_iff.1 hcaptures
    exact ⟨parts, hlength, fun part hpart => ⟨hnumeral part hpart, hfits part hpart⟩, htext.symm⟩
  · rintro ⟨parts, hlength, hparts, htext⟩
    have hcaptures := captures_iff.2 ⟨hlength, fun part hpart => (hparts part hpart).1, htext.symm⟩
    obtain ⟨v, hv⟩ := versionOf_isSome hlength
    exact ⟨v, parse_eq_ok_iff.2 ⟨parts, hcaptures, fun part hpart => (hparts part hpart).2, hv⟩⟩

theorem IsVersionText.getLast? {text : List Char} (h : IsVersionText text) :
    text.getLast? ≠ some '\n' := by
  obtain ⟨parts, -, hparts, rfl⟩ := h
  intro hlast
  exact not_newline_of_numerals (fun part hpart => (hparts part hpart).1)
    (List.mem_of_getLast? hlast)

/-! ### Printed numbers -/

/-- The digits of a positive number do not start with 0. -/
theorem toDigits_of_pos {n : Nat} (hn : 0 < n) : ∃ c l, Nat.toDigits 10 n = c :: l ∧
    '1' ≤ c ∧ c ≤ '9' ∧ l.all Char.isDigit = true := by
  induction n using Nat.strongRecOn with
  | ind n ih =>
    by_cases hlt : n < 10
    · -- the only digit
      have hall : ∀ k < 10, 0 < k → '1' ≤ Nat.digitChar k ∧ Nat.digitChar k ≤ '9' := by decide
      obtain ⟨hone, hnine⟩ := hall n hlt hn
      exact ⟨n.digitChar, [], Nat.toDigits_of_lt_base hlt, hone, hnine, rfl⟩
    · -- dividing by ten takes the last digit away
      obtain ⟨c, l, hdigits, hone, hnine, hall⟩ := ih (n / 10) (by omega) (by omega)
      have hlast : (n % 10).digitChar.isDigit = true := by
        rw [Nat.isDigit_digitChar]
        exact decide_eq_true (by omega)
      refine ⟨c, l ++ [(n % 10).digitChar], ?_, hone, hnine, by simp [hall, hlast]⟩
      rw [Nat.toDigits_of_base_le (by decide) (by omega), hdigits]
      rfl

/-- A number is written as a numeral. -/
theorem isNumeral_repr (n : Nat) : isNumeral n.repr.toList = true := by
  rw [Nat.toList_repr]
  by_cases hn : n = 0
  · subst hn
    rfl
  · exact isNumeral_iff.2 (.inr (toDigits_of_pos (by omega)))

theorem numeralValue_toDigits (n : Nat) : numeralValue (Nat.toDigits 10 n) = n := by
  rw [numeralValue, ← Nat.ofDigitChars_eq_foldl, Nat.ofDigitChars_ten_toDigits]

/-- The numbers of a version, as they are printed. -/
def numerals (v : Version) : List (List Char) :=
  [v.major.repr.toList, v.minor.repr.toList, v.patch.repr.toList] ++
    v.tweak.toList.map fun t => t.repr.toList

theorem mem_numerals {v : Version} {part : List Char} (h : part ∈ v.numerals) :
    ∃ n : Nat, part = n.repr.toList ∧ (n = v.major ∨ n = v.minor ∨ n = v.patch ∨ n ∈ v.tweak) := by
  simp only [numerals, List.mem_append, List.mem_cons, List.not_mem_nil, or_false,
    List.mem_map] at h
  rcases h with (rfl | rfl | rfl) | ⟨t, ht, rfl⟩
  · exact ⟨v.major, rfl, .inl rfl⟩
  · exact ⟨v.minor, rfl, .inr (.inl rfl)⟩
  · exact ⟨v.patch, rfl, .inr (.inr (.inl rfl))⟩
  · exact ⟨t, rfl, .inr (.inr (.inr (by simpa using ht)))⟩

theorem toList_toString (v : Version) : v.toString.toList = ['.'].intercalate v.numerals := by
  obtain ⟨major, minor, patch, tweak⟩ := v
  cases tweak <;> simp [toString, numerals, List.intercalate, List.intersperse]

/-- Reading back a printed version. -/
theorem parse_toString {v : Version} (h : v.Representable) : parse v.toString = .ok v := by
  obtain ⟨hmajor, hminor, hpatch, htweak⟩ := h
  have hnumeral : ∀ part ∈ v.numerals, isNumeral part = true := by
    intro part hpart
    obtain ⟨n, rfl, -⟩ := mem_numerals hpart
    exact isNumeral_repr n
  have hlength : v.numerals.length = 3 ∨ v.numerals.length = 4 := by
    unfold numerals
    cases v.tweak <;> simp
  refine parse_eq_ok_iff.2 ⟨v.numerals, captures_iff.2 ⟨hlength, hnumeral, ?_⟩, ?_, ?_⟩
  · -- a printed version has no newline to drop
    rw [← toList_toString]
    exact Eq.symm ((dropFinalNewline_eq_iff (getLast_toString v)).2 (.inl rfl))
  · intro part hpart
    obtain ⟨n, rfl, hn⟩ := mem_numerals hpart
    rw [Nat.toList_repr, numeralValue_toDigits]
    rcases hn with rfl | rfl | rfl | ht
    · exact hmajor
    · exact hminor
    · exact hpatch
    · exact htweak n ht
  · obtain ⟨major, minor, patch, tweak⟩ := v
    cases tweak <;> simp [numerals, versionOf, numeralValue_toDigits]

/-- What was read can be read back. -/
theorem representable_of_parse {raw : String} {v : Version} (h : parse raw = .ok v) :
    v.Representable := by
  obtain ⟨parts, -, hfits, hv⟩ := parse_eq_ok_iff.1 h
  unfold versionOf at hv
  split at hv
  · cases hv
    simpa [Representable] using hfits
  · cases hv
    simpa [Representable] using hfits
  · cases hv

/-- **The grammar of versions**: the only other texts that are read are
    version texts with a newline after them. -/
theorem readsGrammar_iff (raw : String) (v : Version) :
    (ReadsGrammar raw ↔ ¬ ∃ text, IsVersionText text ∧ raw.toList = text ++ ['\n']) ∧
      (v.Representable → parse v.toString = .ok v) := by
  refine ⟨⟨?_, fun hnot => ⟨?_, ?_⟩⟩, parse_toString⟩
  · rintro hreads ⟨text, htext, hraw⟩
    -- the text without the newline is read, and printed without it
    have hdrop : dropFinalNewline raw.toList = text :=
      (dropFinalNewline_eq_iff htext.getLast?).2 (.inr hraw)
    obtain ⟨v, hv⟩ := exists_parse_iff.2 (hdrop.symm ▸ htext)
    refine (toString_eq_iff hv).1 (hreads.prints v hv) ?_
    rw [hraw]
    simp
  · rw [exists_parse_iff]
    constructor
    · intro htext
      rcases (dropFinalNewline_eq_iff htext.getLast?).1 rfl with h | h
      · rwa [← h] at htext
      · exact absurd ⟨_, htext, h⟩ hnot
    · intro htext
      rwa [(dropFinalNewline_eq_iff htext.getLast?).2 (.inl rfl)]
  · intro v hv
    refine (toString_eq_iff hv).2 fun hlast => hnot ⟨_, exists_parse_iff.1 ⟨v, hv⟩, ?_⟩
    unfold dropFinalNewline
    rw [if_pos hlast]
    exact (List.dropLast_append_getLast? _ hlast).symm

/-- A version with a newline after it is read. -/
theorem not_readsGrammar : ¬ ∀ raw : String, ReadsGrammar raw := by
  intro h
  have hparse : parse "1.0.0.0\n" = .ok ⟨1, 0, 0, some 0⟩ := by decide
  have hprint := (h "1.0.0.0\n").prints _ hparse
  exact absurd hprint (by decide)

end Version

/-! ## Section 2: References -/

namespace Reference

/-- `Reference::parse` reads what the expression finds. -/
theorem parse_eq_ok_iff {raw : String} {ref : Reference} :
    parse raw = .ok ref ↔ ∃ m, raw.toList.tails.findSome? matchHere = some m ∧
      Version.parse m.version = .ok ref.version ∧
      Architecture.parse m.architecture = .ok ref.arch ∧
      ref.channel = m.channel ∧ ref.id = m.id := by
  unfold parse
  constructor
  · intro h
    split at h
    · cases h
    · next m hmatch =>
      simp only [bind_eq_ok_iff, create_eq_ok_iff] at h
      obtain ⟨version, hversion, arch, harch, hchannel, hid, hver, harch'⟩ := h
      exact ⟨m, hmatch, by rw [hver, hversion], by rw [harch', harch], hchannel, hid⟩
  · intro ⟨m, hmatch, hversion, harch, hchannel, hid⟩
    rw [hmatch]
    simp only [bind_eq_ok_iff, create_eq_ok_iff]
    exact ⟨ref.version, hversion, ref.arch, harch, hchannel, hid, rfl, rfl⟩

/-- The text that was matched. -/
def Captured.text (m : Captured) : String :=
  m.channel ++ ":" ++ m.id ++ "/" ++ m.version ++ "/" ++ m.architecture

/-- A text that is read is printed as it was. -/
def Exact (raw : String) : Prop := ∀ ref, parse raw = .ok ref → ref.toString = raw

/-- Four parts with a valid version and architecture that the expression
    finds in a text are all of it, and the version has no newline after it. -/
def FoundWhole (raw : String) : Prop :=
  ∀ m, (referenceRegExp.search raw.toList).map Captured.of = some m →
    (∃ v, Version.parse m.version = .ok v) → (∃ a, Architecture.parse m.architecture = .ok a) →
    m.text = raw ∧ m.version.toList.getLast? ≠ some '\n'

theorem exact_iff_foundWhole {raw : String} : Exact raw ↔ FoundWhole raw := by
  unfold FoundWhole
  rw [← findSome?_matchHere_eq_search]
  constructor
  · rintro h m hmatch ⟨v, hv⟩ ⟨a, ha⟩
    obtain ⟨cs, -, hhere⟩ := List.exists_of_findSome?_eq_some hmatch
    obtain ⟨-, hchannel, hid⟩ := matchHere_spec hhere
    have href : parse raw = .ok ⟨m.channel, m.id, v, a, hchannel, hid⟩ :=
      parse_eq_ok_iff.2 ⟨m, hmatch, hv, ha, rfl, rfl⟩
    have htext := h _ href
    -- so the text is that of a reference, and in it the printed parts are found
    obtain ⟨hcolon, hslash⟩ := parse_spec href
    have hfound := findSome?_toString hcolon hslash
    rw [htext, hmatch] at hfound
    have hversion : m.version = v.toString := congrArg Captured.version (Option.some.inj hfound)
    refine ⟨?_, ?_⟩
    · rw [← htext, Captured.text, hversion, ← Architecture.toString_of_parse ha]
      rfl
    · rw [hversion]
      exact Version.getLast_toString v
  · intro h ref href
    obtain ⟨m, hmatch, hversion, harch, hchannel, hid⟩ := parse_eq_ok_iff.1 href
    obtain ⟨htext, hlast⟩ := h m hmatch ⟨_, hversion⟩ ⟨_, harch⟩
    rw [← htext, toString, Captured.text, hchannel, hid, (Version.toString_eq_iff hversion).2 hlast,
      Architecture.toString_of_parse harch]

/-- **Exactness of references**; two texts that are all found denote
    different references. -/
theorem exact_iff (raw raw' : String) (ref : Reference) : (Exact raw ↔ FoundWhole raw) ∧
    (FoundWhole raw → FoundWhole raw' → parse raw = .ok ref → parse raw' = .ok ref →
      raw = raw') := by
  refine ⟨exact_iff_foundWhole, fun hraw hraw' href href' => ?_⟩
  have htext := exact_iff_foundWhole.2 hraw ref href
  have htext' := exact_iff_foundWhole.2 hraw' ref href'
  exact htext.symm.trans htext'

/-- What comes after a fourth slash is ignored. -/
theorem not_exact : ¬ ((∀ raw, Exact raw) ∧
    ∀ raw raw' ref, parse raw = .ok ref → parse raw' = .ok ref → raw = raw') := by
  rintro ⟨h, -⟩
  have hparse : parse "main:app/1.0.0.0/x86_64/devel" = .ok (onMain "app" 0 (by decide)) := by decide
  exact absurd (h _ _ hparse) (by decide)

/-! ## Section 3: References of packages -/

/-- **Packages**: the text of a package's reference is read back as that
    reference, unless the channel has a colon or the id a slash. -/
theorem roundTrips_iff {info : PackageInfoV2} {ref : Reference}
    (h : fromPackageInfo info = .ok ref) :
    parse ref.toString = .ok ref ↔ ':' ∉ info.channel.toList ∧ '/' ∉ info.id.toList := by
  obtain ⟨hversion, harch, hchannel, hid⟩ := fromPackageInfo_ok h
  rw [← hchannel, ← hid]
  constructor
  · exact parse_spec
  · rintro ⟨hcolon, hslash⟩
    refine parse_toString hcolon hslash ?_ ?_
    · exact Version.parse_toString (Version.representable_of_parse hversion)
    · rw [Architecture.toString_of_parse harch, harch]

theorem roundTrips_app :
    parse (onMain "app" 0 (by decide)).toString = .ok (onMain "app" 0 (by decide)) :=
  have hinfo : fromPackageInfo (.onMain "app" "1.0.0.0" "binary") =
      .ok (onMain "app" 0 (by decide)) := by decide
  (roundTrips_iff hinfo).2 (by decide)

/-- A channel with a colon is read back as a shorter channel. -/
theorem not_roundTrips : ¬ ∀ (info : PackageInfoV2) (ref : Reference),
    fromPackageInfo info = .ok ref → parse ref.toString = .ok ref := by
  intro h
  have hread := h { PackageInfoV2.onMain "app" "1.0.0.0" "binary" with channel := "main:old" }
    ⟨"main:old", "app", ⟨1, 0, 0, some 0⟩, .x86_64, by decide, by decide⟩ (by decide)
  exact absurd hread (by decide)

end Reference

/-! ## Section 4: Fuzzy references -/

namespace FuzzyReference

/-- The parts of a fuzzy reference, as they are printed. -/
def parts (f : FuzzyReference) : List String :=
  [f.id, (f.version.map Version.toString).getD "unknown",
    (f.arch.map Architecture.toString).getD "unknown"]

/-- What was captured has no separators. -/
theorem captures_spec {raw channel : String} {texts : List String}
    (h : captures raw = some (channel, texts)) :
    ':' ∉ channel.toList ∧ ∀ text ∈ texts, '/' ∉ text.toList := by
  have hchannel : ∀ l : List Char, ':' ∉ (l.span (· ≠ ':')).1 := by
    intro l hmem
    rw [List.span_eq_takeWhile_dropWhile] at hmem
    simpa using List.mem_takeWhile_imp hmem
  have htexts : ∀ rest : List Char, ∀ text ∈ (rest.splitOn '/').map String.ofList,
      '/' ∉ text.toList := by
    intro rest text htext
    obtain ⟨part, hpart, rfl⟩ := List.mem_map.1 htext
    rw [String.toList_ofList]
    exact not_mem_splitOn hpart
  unfold captures at h
  rcases hspan : raw.toList.span (· ≠ ':') with ⟨l, _ | ⟨_, rest⟩⟩ <;> rw [hspan] at h <;>
    simp only at h <;> split at h <;> cases h
  · exact ⟨by simp, htexts _⟩
  · have hl := hchannel raw.toList
    rw [hspan] at hl
    exact ⟨by simpa using hl, htexts _⟩

theorem create_eq_ok_iff {channel : Option String} {id : String} {version : Option Version}
    {arch : Option Architecture} {f : FuzzyReference} : create channel id version arch = .ok f ↔
      f.channel = channel ∧ f.id = id ∧ f.version = version ∧ f.arch = arch := by
  unfold create
  constructor
  · intro h
    split at h
    · cases h
    split at h
    · cases h
    · cases h
      exact ⟨rfl, rfl, rfl, rfl⟩
  · intro ⟨hchannel, hid, hversion, harch⟩
    subst hchannel hid hversion harch
    rw [dif_neg f.channel_ne, dif_neg f.id_ne]

/-- `FuzzyReference::parse` reads what the expression captures. -/
theorem parse_eq_ok_iff {raw : String} {f : FuzzyReference} :
    parse raw = .ok f ↔ ∃ channel texts, captures raw = some (channel, texts) ∧
      (present (texts.getD 1 "")).mapM Version.parse = .ok f.version ∧
      (present (texts.getD 2 "")).mapM Architecture.parse = .ok f.arch ∧
      present channel = f.channel ∧ texts.getD 0 "" = f.id := by
  unfold parse
  constructor
  · intro h
    split at h
    · cases h
    · next channel texts hcaptures =>
      simp only [bind_eq_ok_iff, create_eq_ok_iff] at h
      obtain ⟨version, hversion, arch, harch, hchannel, hid, hver, harch'⟩ := h
      rw [hver, harch']
      exact ⟨channel, texts, hcaptures, hversion, harch, hchannel.symm, hid.symm⟩
  · intro ⟨channel, texts, hcaptures, hversion, harch, hchannel, hid⟩
    rw [hcaptures]
    simp only [bind_eq_ok_iff, create_eq_ok_iff]
    exact ⟨f.version, hversion, f.arch, harch, hchannel.symm, hid.symm, rfl, rfl⟩

theorem present_spec {text field : String} (h : present text = some field) :
    text = field ∧ field ≠ "" ∧ field ≠ "unknown" := by
  unfold present at h
  split at h
  · cases h
  · next hne =>
    cases h
    rw [not_or] at hne
    exact ⟨rfl, hne.1, hne.2⟩

theorem present_eq_some {text : String} (hempty : text ≠ "") (hunknown : text ≠ "unknown") :
    present text = some text := if_neg (by simp [hempty, hunknown])

/-- An optional part that is there was read. -/
theorem mapM_present {α : Type} {read : String → Except String α} {text : String} {field : Option α}
    (h : (present text).mapM read = .ok field) {a : α} (ha : a ∈ field) : read text = .ok a := by
  cases hpresent : present text with
  | none =>
    rw [hpresent] at h
    cases h
    cases ha
  | some t =>
    obtain ⟨rfl, -⟩ := present_spec hpresent
    rw [hpresent] at h
    cases hread : read text with
    | error e => simp [hread] at h
    | ok b =>
      simp [hread] at h
      subst h
      cases ha
      rfl

/-- A fuzzy reference that was read. -/
structure Readable (f : FuzzyReference) : Prop where
  channel : ∀ c ∈ f.channel, ':' ∉ c.toList ∧ c ≠ "unknown"
  id : '/' ∉ f.id.toList
  version : ∀ v ∈ f.version, v.Representable
  arch : ∀ a ∈ f.arch, Architecture.parse a.toString = .ok a

theorem readable_of_parse {raw : String} {f : FuzzyReference} (h : parse raw = .ok f) :
    f.Readable := by
  obtain ⟨channel, texts, hcaptures, hversion, harch, hchannel, hid⟩ := parse_eq_ok_iff.1 h
  obtain ⟨hcolon, hslash⟩ := captures_spec hcaptures
  refine ⟨fun c hc => ?_, ?_, fun v hv => ?_, fun a ha => ?_⟩
  · obtain ⟨rfl, -, hunknown⟩ := present_spec (hchannel.trans hc)
    exact ⟨hcolon, hunknown⟩
  · rw [← hid]
    cases texts with
    | nil => simp
    | cons text texts => exact hslash text (by simp)
  · exact Version.representable_of_parse (mapM_present hversion hv)
  · have hread := mapM_present harch ha
    rw [Architecture.toString_of_parse hread, hread]

/-- What the expression captures from the text of a fuzzy reference. -/
theorem captures_toString {f : FuzzyReference} (h : f.Readable) :
    captures f.toString = some (f.channel.getD "unknown", f.parts) := by
  -- no part of the text has the separator that ends it
  have hchannel : ':' ∉ (f.channel.getD "unknown").toList := by
    cases hc : f.channel with
    | none => decide
    | some c => exact (h.channel c hc).1
  have hversion : '/' ∉ ((f.version.map Version.toString).getD "unknown").toList := by
    cases f.version with
    | none => decide
    | some v =>
      intro hmem
      rcases Version.isDigit_or_dot hmem with hdigit | hdot
      · exact absurd hdigit (by decide)
      · exact absurd hdot (by decide)
  have harch : '/' ∉ ((f.arch.map Architecture.toString).getD "unknown").toList := by
    cases f.arch with
    | none => decide
    | some a => cases a <;> decide
  have htext : f.toString.toList = (f.channel.getD "unknown").toList ++
      ':' :: ['/'].intercalate (f.parts.map String.toList) := by
    simp [toString, parts, List.intercalate, List.intersperse]
  have hparts : (['/'].intercalate (f.parts.map String.toList)).splitOn '/' =
      f.parts.map String.toList := by
    refine List.splitOn_intercalate '/' (fun l hl => ?_) (by simp [parts])
    simp only [parts, List.map_cons, List.map_nil, List.mem_cons, List.not_mem_nil, or_false] at hl
    rcases hl with rfl | rfl | rfl
    · exact h.id
    · exact hversion
    · exact harch
  unfold captures
  rw [htext, span_append_of_not_mem hchannel]
  simp only [hparts, List.map_map]
  simp [parts, Function.comp_def]

/-- **Fuzzy references** are read back from their texts; absent fields are
    printed as `unknown`. -/
theorem roundTrip {raw : String} {f : FuzzyReference} (h : parse raw = .ok f) :
    captures f.toString = some (f.channel.getD "unknown", f.parts) ∧ parse f.toString = .ok f := by
  have hread := readable_of_parse h
  have hcaptures := captures_toString hread
  refine ⟨hcaptures, parse_eq_ok_iff.2 ⟨_, _, hcaptures, ?_, ?_, ?_, rfl⟩⟩
  · show (present ((f.version.map Version.toString).getD "unknown")).mapM Version.parse = _
    cases hversion : f.version with
    | none => rfl
    | some v =>
      -- a version has no letters
      have hunknown : v.toString ≠ "unknown" := by
        intro heq
        have hmem : 'u' ∈ v.toString.toList := by rw [heq]; decide
        rcases Version.isDigit_or_dot hmem with hdigit | hdot
        · exact absurd hdigit (by decide)
        · exact absurd hdot (by decide)
      have hempty : v.toString ≠ "" := fun heq => v.toString_ne_empty (by rw [heq]; rfl)
      rw [Option.map_some, Option.getD_some, present_eq_some hempty hunknown]
      simp [Version.parse_toString (hread.version v hversion)]
  · show (present ((f.arch.map Architecture.toString).getD "unknown")).mapM Architecture.parse = _
    cases harch : f.arch with
    | none => rfl
    | some a =>
      have hne : a.toString ≠ "" ∧ a.toString ≠ "unknown" := by
        cases a <;> decide
      rw [Option.map_some, Option.getD_some, present_eq_some hne.1 hne.2]
      simp [hread.arch a harch]
  · cases hchannel : f.channel with
    | none => rfl
    | some c =>
      refine present_eq_some (fun hempty => f.channel_ne ?_) (hread.channel c hchannel).2
      rw [hchannel, Option.getD_some] at *
      rw [hempty]

/-- Only the id was given. -/
theorem roundTrip_unknown :
    captures "unknown:app/unknown/unknown" = some ("unknown", ["app", "unknown", "unknown"]) ∧
      parse "unknown:app/unknown/unknown" =
        .ok ⟨none, "app", none, none, by decide, by decide⟩ := by
  have hparse : parse "app" = .ok ⟨none, "app", none, none, by decide, by decide⟩ := by decide
  have htext : toString ⟨none, "app", none, none, by decide, by decide⟩ =
      "unknown:app/unknown/unknown" := by decide
  have hback := roundTrip hparse
  rw [htext] at hback
  exact hback

end FuzzyReference

end Linglong
