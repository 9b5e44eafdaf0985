import Mathlib.Algebra.Group.Int.Defs
import Linglong.Framework.CallLoop
import Linglong.Framework.ShellWords
import Linglong.Package.RoundTrip

/-! # The UAB Loader

    The loader (`apps/uab/loader/src/main.cpp`) runs the application of a UAB
    on systems without linglong. It does not use the library: the ids of base
    and runtime, the quotes of the command and the transfer of the
    configuration to the generators are done by hand.

    1. The ids of base and runtime (`dependencyId_iff`).
    2. The input of a generator (`transfers_iff`).
    3. The command (`runsArguments_iff`).
-/

namespace Linglong.Loader

open Framework

/-! ## Section 1: The ids of base and runtime -/

/-- A `std::string`. The characters that are searched for are ASCII, so that
    positions may count characters instead of bytes. -/
structure StdString where
  text : String
  length_lt : text.toList.length < 2 ^ 63

/-- `std::string::substr`; nothing where it throws `std::out_of_range`. -/
def StdString.substr (s : StdString) (pos count : Nat) : Option String :=
  if pos ≤ s.text.toList.length then some (.ofList ((s.text.toList.drop pos).take count)) else none

/-- The id in a base or runtime: what is between the first colon and the
    first slash. A search that finds nothing ends behind the last character,
    and the difference of the iterators becomes a `size_t`. -/
def dependencyId (s : StdString) : Option String :=
  let splitSlash := s.text.toList.idxOf '/'
  let splitColon := s.text.toList.idxOf ':'
  s.substr (splitColon + 1) (((splitSlash : Int) - splitColon - 1) % 2 ^ 64).toNat

/-- The characters before the first colon. -/
def beforeColon (s : StdString) : List Char := s.text.toList.takeWhile (· ≠ ':')

/-- The first colon and what follows it. -/
def fromColon (s : StdString) : List Char := s.text.toList.dropWhile (· ≠ ':')

/-- The id of a fuzzy reference with a colon. -/
theorem id_of_parse {channel rest : List Char} (hchannel : ':' ∉ channel) {raw : String}
    (hraw : raw.toList = channel ++ ':' :: rest) {f : FuzzyReference}
    (h : FuzzyReference.parse raw = .ok f) : f.id = .ofList (rest.takeWhile (· ≠ '/')) := by
  obtain ⟨channel', texts, hcaptures, -, -, -, hid⟩ := FuzzyReference.parse_eq_ok_iff.1 h
  unfold FuzzyReference.captures at hcaptures
  rw [hraw, span_append_of_not_mem hchannel] at hcaptures
  simp only at hcaptures
  split at hcaptures
  · -- the id is the first of at most three parts
    cases hcaptures
    obtain ⟨q, qs, hsplit⟩ := List.exists_cons_of_ne_nil (List.splitOn_ne_nil '/' rest)
    have hhead := headD_splitOn '/' rest
    rw [hsplit, List.headD_cons] at hhead
    rw [← hid, hsplit, hhead]
    rfl
  · cases hcaptures

/-- What the loader takes from a text with a colon: up to the slash, or all
    of the rest if the slash is in the channel. -/
theorem dependencyId_eq {s : StdString} {channel rest : List Char} (hchannel : ':' ∉ channel)
    (htext : s.text.toList = channel ++ ':' :: rest) :
    dependencyId s =
      some (.ofList (if '/' ∈ channel then rest else rest.takeWhile (· ≠ '/'))) := by
  have hlength := s.length_lt
  have hcolon : s.text.toList.idxOf ':' = channel.length := by
    rw [htext, List.idxOf_append, if_neg hchannel, List.idxOf_cons_self, Nat.zero_add]
  have hrest : s.text.toList.drop (channel.length + 1) = rest := by
    rw [htext]
    simp
  unfold dependencyId StdString.substr
  simp only [hcolon, hrest]
  rw [htext, List.length_append, List.length_cons] at hlength ⊢
  rw [if_pos (by omega)]
  by_cases hslash : '/' ∈ channel
  · -- the difference is negative, and becomes more than any length
    have hfirst := List.idxOf_lt_length_of_mem hslash
    rw [if_pos hslash, List.idxOf_append, if_pos hslash, List.take_of_length_le]
    omega
  · -- the count goes up to the slash, or to the end
    have hle : rest.idxOf '/' ≤ rest.length := List.idxOf_le_length
    have hcount : (((channel ++ ':' :: rest).idxOf '/' : Int) - channel.length - 1) % 2 ^ 64 =
        rest.idxOf '/' := by
      rw [List.idxOf_append, if_neg hslash, List.idxOf_cons]
      simp only [show (':' == '/') = false from rfl, cond_false]
      omega
    rw [if_neg hslash, hcount, Int.toNat_natCast, take_idxOf]

/-- **The ids agree** iff there is a channel and a slash is only on one side
    of the colon. -/
theorem dependencyId_iff {s : StdString} {f : FuzzyReference}
    (h : FuzzyReference.parse s.text = .ok f) :
    dependencyId s = some f.id ↔
      ':' ∈ s.text.toList ∧ ('/' ∉ beforeColon s ∨ '/' ∉ fromColon s) := by
  by_cases hcolon : ':' ∈ s.text.toList
  · obtain ⟨channel, rest, htext, hchannel⟩ := List.eq_append_cons_of_mem hcolon
    have hspan := span_append_of_not_mem hchannel rest
    rw [List.span_eq_takeWhile_dropWhile, ← htext, Prod.mk.injEq] at hspan
    have hbefore : beforeColon s = channel := hspan.1
    have hfrom : '/' ∈ fromColon s ↔ '/' ∈ rest := by
      show '/' ∈ s.text.toList.dropWhile (· ≠ ':') ↔ _
      rw [hspan.2]
      simp
    rw [dependencyId_eq hchannel htext, id_of_parse hchannel htext h, Option.some_inj,
      String.ofList_inj, hbefore, hfrom]
    by_cases hslash : '/' ∈ channel
    · -- all of the rest is taken, whether or not it has a slash
      rw [if_pos hslash, eq_comm, List.takeWhile_eq_self_iff]
      constructor
      · intro hall
        exact ⟨hcolon, .inr fun hmem => absurd (hall '/' hmem) (by simp)⟩
      · intro ⟨_, hor⟩ c hc
        rcases hor with hno | hno
        · exact absurd hslash hno
        · exact ne_of_not_mem hno c hc
    · rw [if_neg hslash]
      exact ⟨fun _ => ⟨hcolon, .inl hslash⟩, fun _ => rfl⟩
  · -- without a colon the position is behind the end
    have hnone : dependencyId s = none := by
      unfold dependencyId StdString.substr
      rw [List.idxOf_eq_length hcolon]
      exact if_neg (by omega)
    rw [hnone]
    simp [hcolon]

/-- Channel, id, version and architecture. -/
theorem dependencyId_full :
    FuzzyReference.parse "main:org.deepin.base/23.1.0/x86_64" =
        .ok ⟨some "main", "org.deepin.base", some ⟨23, 1, 0, none⟩, some .x86_64, by decide, by decide⟩ ∧
      dependencyId ⟨"main:org.deepin.base/23.1.0/x86_64", by decide⟩ = some "org.deepin.base" := by
  have hparse : FuzzyReference.parse "main:org.deepin.base/23.1.0/x86_64" =
      .ok ⟨some "main", "org.deepin.base", some ⟨23, 1, 0, none⟩, some .x86_64, by decide, by decide⟩ := by
    decide
  exact ⟨hparse, (dependencyId_iff (s := ⟨_, by decide⟩) hparse).2 (by decide)⟩

/-- **Counterexample**: without a channel the position is out of range. -/
theorem not_dependencyId : ¬ ∀ (s : StdString) (f : FuzzyReference),
    FuzzyReference.parse s.text = .ok f → dependencyId s = some f.id := by
  intro h
  have hsome := h ⟨"org.deepin.base/23.1.0", by decide⟩
    ⟨none, "org.deepin.base", some ⟨23, 1, 0, none⟩, none, by decide, by decide⟩ (by decide)
  exact absurd hsome (by decide)

/-! ## Section 2: The input of a generator -/

/-- The loop is left with `break` or with `return`. -/
inductive Exit where
  | complete | failed
  deriving DecidableEq

/-- The variables of the loop, and what is in the pipe. -/
structure Transfer where
  bytesWrite : Nat
  pipe : List UInt8
  exit : Option Exit

/-- The loop of `applyExecutablePatch`: every `write` is given the beginning
    of the text. -/
def writeLoop (input : List UInt8) : CallLoop Transfer (Exit × List UInt8) where
  result t := t.exit.map fun exit => (exit, t.pipe)
  next t
    | .interrupted => t
    | .failed => { t with exit := some .failed }
    | .upTo extra =>
        let writeBytes := (Answer.upTo extra).count t.bytesWrite
        let bytesWrite := t.bytesWrite - writeBytes
        { bytesWrite
          pipe := t.pipe ++ input.take writeBytes
          exit := if bytesWrite = 0 then some .complete else none }

def Transfer.begin (input : List UInt8) : Transfer := ⟨input.length, [], none⟩

/-- A pattern of short writes and interruptions. -/
structure ShortWrites where
  answer : Nat → Answer
  fair : Fair answer
  not_failed : ∀ i, answer i ≠ .failed

/-- How many bytes of a text of `n` bytes the first calls have taken. -/
def ShortWrites.sent (w : ShortWrites) (n : Nat) : Nat → Nat
  | 0 => 0
  | i + 1 => w.sent n i + (w.answer i).count (n - w.sent n i)

/-- How many bytes a call takes. -/
def ShortWrites.taken (w : ShortWrites) (n i : Nat) : Nat := (w.answer i).count (n - w.sent n i)

/-- The loop ends, and the text is in the pipe, once and in order. -/
def Transfers (input : List UInt8) (w : ShortWrites) : Prop :=
  (writeLoop input).Ends w.answer (.begin input) (.complete, input)

/-- The next bytes of the text are also its first. -/
def Repeats (input : List UInt8) (w : ShortWrites) (i : Nat) : Prop :=
  (input.drop (w.sent input.length i)).take (w.taken input.length i) =
    input.take (w.taken input.length i)

variable {input : List UInt8} {w : ShortWrites}

theorem sent_le (w : ShortWrites) (n i : Nat) : w.sent n i ≤ n := by
  induction i with
  | zero => exact Nat.zero_le n
  | succ i ih =>
    have hcount := (w.answer i).count_le (n - w.sent n i)
    show w.sent n i + (w.answer i).count (n - w.sent n i) ≤ n
    omega

/-- What the first calls have put into the pipe. -/
def written (input : List UInt8) (w : ShortWrites) : Nat → List UInt8
  | 0 => []
  | i + 1 => written input w i ++ input.take (w.taken input.length i)

theorem length_written (i : Nat) : (written input w i).length = w.sent input.length i := by
  induction i with
  | zero => rfl
  | succ i ih =>
    have hcount := (w.answer i).count_le (input.length - w.sent input.length i)
    show (written input w i ++ input.take (w.taken input.length i)).length =
      w.sent input.length i + w.taken input.length i
    rw [List.length_append, ih, List.length_take]
    unfold ShortWrites.taken
    omega

/-- The loop after some calls. -/
structure Sent (input : List UInt8) (w : ShortWrites) (i : Nat) (t : Transfer) : Prop where
  bytesWrite : t.bytesWrite = input.length - w.sent input.length i
  pipe : t.pipe = written input w i
  exit : t.exit = none ∨ t.exit = some .complete ∧ t.bytesWrite = 0

/-- Nothing is taken when nothing is left. -/
theorem Sent.ended {i : Nat} {t : Transfer} (h : Sent input w i t) (hexit : t.exit.isSome = true) :
    Sent input w (i + 1) t := by
  obtain ⟨hbytes, hpipe, hend⟩ := h
  -- without failures the loop is left only when all has been sent
  have hzero : t.bytesWrite = 0 := by
    rcases hend with hnone | ⟨_, hzero⟩
    · rw [hnone] at hexit
      cases hexit
    · exact hzero
  have htaken : w.taken input.length i = 0 := by
    have hcount := (w.answer i).count_le (input.length - w.sent input.length i)
    unfold ShortWrites.taken
    omega
  refine ⟨?_, ?_, hend⟩
  · show t.bytesWrite = input.length - (w.sent input.length i + w.taken input.length i)
    omega
  · show t.pipe = written input w i ++ input.take (w.taken input.length i)
    rw [htaken, List.take_zero, List.append_nil]
    exact hpipe

/-- **Step**: one answer. -/
theorem Sent.next {i : Nat} {t : Transfer} (h : Sent input w i t) :
    Sent input w (i + 1) ((writeLoop input).next t (w.answer i)) := by
  obtain ⟨hbytes, hpipe, hend⟩ := h
  -- both are written with what is left, as the loop has it
  have hsent : w.sent input.length (i + 1) =
      w.sent input.length i + (w.answer i).count t.bytesWrite := by
    rw [hbytes]
    rfl
  have hwritten : written input w (i + 1) =
      t.pipe ++ input.take ((w.answer i).count t.bytesWrite) := by
    rw [hbytes, hpipe]
    rfl
  cases hanswer : w.answer i with
  | interrupted =>
    rw [hanswer] at hsent hwritten
    refine ⟨?_, ?_, hend⟩
    · rw [hsent]
      exact hbytes
    · rw [hwritten]
      exact (List.append_nil _).symm
  | failed => exact absurd hanswer (w.not_failed i)
  | upTo extra =>
    rw [hanswer] at hsent hwritten
    refine ⟨?_, hwritten.symm, ?_⟩
    · show t.bytesWrite - (Answer.upTo extra).count t.bytesWrite = _
      omega
    · show (if t.bytesWrite - (Answer.upTo extra).count t.bytesWrite = 0 then some Exit.complete
        else none) = none ∨ _
      by_cases hzero : t.bytesWrite - (Answer.upTo extra).count t.bytesWrite = 0
      · exact .inr ⟨if_pos hzero, hzero⟩
      · exact .inl (if_neg hzero)

/-- **Run**: the pipe after any number of answers. -/
theorem sent_stateAt (input : List UInt8) (w : ShortWrites) (i : Nat) :
    Sent input w i ((writeLoop input).stateAt w.answer (.begin input) i) := by
  refine (writeLoop input).inv_stateAt (Sent input w) ⟨rfl, rfl, .inl rfl⟩ ?_ ?_ i
  · intro i t hended h
    have hexit : (t.exit.map fun exit => (exit, t.pipe)).isSome = true := hended
    exact h.ended (by rwa [Option.isSome_map] at hexit)
  · intro i t _ h
    exact h.next

/-- **Termination**: every answer but an interruption sends something. -/
theorem exists_ends (input : List UInt8) (w : ShortWrites) :
    ∃ r, (writeLoop input).Ends w.answer (.begin input) r := by
  refine (writeLoop input).exists_ends (fun _ => True) Transfer.bytesWrite w.fair trivial
    (fun _ _ _ _ => trivial) (fun _ => rfl) ?_
  intro t a _ _ hne
  cases a with
  | interrupted => exact absurd rfl hne
  | failed => exact .inl rfl
  | upTo extra =>
    by_cases hzero : t.bytesWrite - (Answer.upTo extra).count t.bytesWrite = 0
    · left
      show (Option.map _ (if t.bytesWrite - (Answer.upTo extra).count t.bytesWrite = 0 then
        some Exit.complete else none)).isSome = true
      rw [if_pos hzero]
      rfl
    · right
      show t.bytesWrite - min (extra + 1) t.bytesWrite < t.bytesWrite
      have hcount : (Answer.upTo extra).count t.bytesWrite = min (extra + 1) t.bytesWrite := rfl
      omega

/-- The pipe has the beginning of the text iff each call has taken what it
    should have been given. -/
theorem written_eq_iff (i : Nat) :
    written input w i = input.take (w.sent input.length i) ↔ ∀ j, j < i → Repeats input w j := by
  induction i with
  | zero => exact ⟨fun _ j hj => absurd hj (Nat.not_lt_zero j), fun _ => rfl⟩
  | succ i ih =>
    have hsplit : input.take (w.sent input.length (i + 1)) =
        input.take (w.sent input.length i) ++
          (input.drop (w.sent input.length i)).take (w.taken input.length i) := List.take_add
    have hlength : (written input w i).length = (input.take (w.sent input.length i)).length := by
      have := sent_le w input.length i
      rw [length_written, List.length_take]
      omega
    show written input w i ++ _ = _ ↔ _
    rw [hsplit]
    constructor
    · -- the two halves have the same lengths, so they agree one by one
      intro heq j hj
      obtain ⟨hbefore, hlast⟩ := List.append_inj heq hlength
      rcases Nat.eq_or_lt_of_le (Nat.le_of_lt_succ hj) with heq | hlt
      · rw [heq]
        exact hlast.symm
      · exact ih.1 hbefore j hlt
    · intro hall
      have hlast : (input.drop (w.sent input.length i)).take (w.taken input.length i) =
          input.take (w.taken input.length i) := hall i (by omega)
      rw [ih.2 fun j hj => hall j (by omega), hlast]

/-- **The text is transferred** iff each call takes bytes that are next in the
    text as well as first, such as a call that takes the whole text. -/
theorem transfers_iff (input : List UInt8) (w : ShortWrites) :
    Transfers input w ↔ ∀ i, Repeats input w i := by
  obtain ⟨r, k, hk⟩ := exists_ends input w
  obtain ⟨exit, hleft, hr⟩ := Option.map_eq_some_iff.1 hk
  have hsent := sent_stateAt input w k
  have hcomplete : exit = .complete ∧
      ((writeLoop input).stateAt w.answer (.begin input) k).bytesWrite = 0 := by
    rcases hsent.exit with hnone | ⟨hexit, hzero⟩
    · rw [hnone] at hleft
      cases hleft
    · rw [hexit] at hleft
      exact ⟨(Option.some.inj hleft).symm, hzero⟩
  -- at the end, and ever after, all of the text has been sent
  have hlater : ∀ i, r = (.complete, written input w (k + i)) ∧
      w.sent input.length (k + i) = input.length := by
    intro i
    have hsame := (writeLoop input).stateAt_of_ended hk i
    have hi := sent_stateAt input w (k + i)
    rw [hsame] at hi
    have hle := sent_le w input.length (k + i)
    have hbytes := hi.bytesWrite
    refine ⟨?_, by omega⟩
    rw [← hr, hcomplete.1, hi.pipe]
  constructor
  · intro htransfers i
    have hr := (writeLoop input).ends_unique htransfers ⟨k, hk⟩
    obtain ⟨hpipe, hall⟩ := hlater (i + 1)
    rw [hpipe, Prod.mk.injEq] at hr
    have hwritten : written input w (k + (i + 1)) =
        input.take (w.sent input.length (k + (i + 1))) := by
      rw [hall, List.take_length]
      exact hr.2.symm
    exact (written_eq_iff _).1 hwritten i (by omega)
  · intro hrepeats
    obtain ⟨hpipe, hall⟩ := hlater 0
    have hwritten := (written_eq_iff (k + 0)).2 fun j _ => hrepeats j
    rw [hall, List.take_length] at hwritten
    rw [hwritten] at hpipe
    exact ⟨k, hk.trans (congrArg some hpipe)⟩

/-- The pipe takes one byte at a time. -/
def byteByByte : ShortWrites where
  answer _ := .upTo 0
  fair i := ⟨i, Nat.le_refl i, fun heq => by cases heq⟩
  not_failed _ := fun heq => by cases heq

/-- **Counterexample**: two bytes, one at a time. -/
theorem not_transfers : ¬ ∀ input w, Transfers input w := by
  intro h
  have hrepeats : Repeats (Shell.utf8 ['{', '}']) byteByByte 1 :=
    (transfers_iff _ _).1 (h _ _) 1
  unfold Repeats at hrepeats
  exact absurd hrepeats (by decide)

/-! ## Section 3: The command -/

open Shell

/-- `replaceStr`, `'\''`. -/
def replaceStr : List UInt8 := utf8 ['\'', '\\', '\'', '\'']

/-- The loop that replaces the quotes of an argument, from a position on.
    `std::string::replace` is told to overwrite as many bytes as it puts in. -/
def replaceQuotes (arg : List UInt8) (pos : Nat) : List UInt8 :=
  let found := pos + (arg.drop pos).idxOf (ascii '\'')
  if _h : found < arg.length then
    replaceQuotes (arg.take found ++ replaceStr ++ arg.drop (found + replaceStr.length))
      (found + replaceStr.length)
  else arg
termination_by arg.length - pos
decreasing_by
  have hfour : replaceStr.length = 4 := by decide
  simp only [List.length_append, List.length_take, List.length_drop]
  omega

/-- An argument in quotes. -/
def quoteArg (arg : List UInt8) : List UInt8 :=
  ascii '\'' :: (replaceQuotes arg 0 ++ [ascii '\''])

/-- The loop that takes the words from the front of `command`. -/
def appendAll (commandStr : List UInt8) : List (List UInt8) → List UInt8
  | [] => commandStr
  | [arg] => commandStr ++ arg
  | arg :: args => appendAll (commandStr ++ arg ++ [ascii ' ']) args

/-- The arguments of the process of the container. -/
def processArgs (command : Option (List (List UInt8))) : Except String (List (List UInt8)) :=
  match command with
  | none | some [] => .error "couldn't find command of application"
  | some command =>
      .ok [utf8 "/bin/bash".toList, utf8 "--login".toList, utf8 "-c".toList,
        appendAll [] (utf8 "exec".toList :: command.map quoteArg)]

/-- An argument as a C string. -/
abbrev CString := { text : List UInt8 // 0 ∉ text }

/-- The shell runs `exec` with the arguments. -/
def RunsArguments (command : List CString) : Prop :=
  ∃ commandStr, processArgs (some (command.map Subtype.val)) =
      .ok [utf8 "/bin/bash".toList, utf8 "--login".toList, utf8 "-c".toList, commandStr] ∧
    tokens commandStr =
      some (.word (utf8 "exec".toList) :: command.map fun arg => Token.word arg.val)

/-- Three bytes are overwritten after each quote. -/
def overwritten : List UInt8 → List UInt8
  | [] => []
  | c :: cs => c :: overwritten (if c = ascii '\'' then cs.drop 3 else cs)
termination_by cs => cs.length
decreasing_by
  split
  · rw [List.length_drop, List.length_cons]
    omega
  · rw [List.length_cons]
    omega

theorem replaceStr_eq : replaceStr = quotedQuote := by decide

theorem overwritten_quote (cs : List UInt8) :
    overwritten (ascii '\'' :: cs) = ascii '\'' :: overwritten (cs.drop 3) := by
  rw [overwritten, if_pos rfl]

theorem overwritten_cons {c : UInt8} (hc : c ≠ ascii '\'') (cs : List UInt8) :
    overwritten (c :: cs) = c :: overwritten cs := by
  rw [overwritten, if_neg hc]

/-- Bytes that are not quotes stay. -/
theorem overwritten_append {xs : List UInt8} (hxs : ascii '\'' ∉ xs) (rest : List UInt8) :
    overwritten (xs ++ rest) = xs ++ overwritten rest := by
  induction xs with
  | nil => rfl
  | cons c cs ih =>
    rw [List.mem_cons, not_or] at hxs
    rw [List.cons_append, overwritten_cons (Ne.symm hxs.1), ih hxs.2]
    rfl

theorem escape_append_of_not_mem {xs : List UInt8} (hxs : ascii '\'' ∉ xs) (rest : List UInt8) :
    escape (xs ++ rest) = xs ++ escape rest := by
  induction xs with
  | nil => rfl
  | cons c cs ih =>
    rw [List.mem_cons, not_or] at hxs
    show (if c = ascii '\'' then quotedQuote else [c]) ++ escape (cs ++ rest) = _
    rw [if_neg (Ne.symm hxs.1), ih hxs.2]
    rfl

/-- The loop is done: there is no quote from here on. -/
theorem replaceQuotes_of_not_mem {front rest : List UInt8} (h : ascii '\'' ∉ rest) :
    replaceQuotes (front ++ rest) front.length = front ++ rest := by
  unfold replaceQuotes
  rw [List.drop_left, List.idxOf_eq_length h, List.length_append]
  exact dif_neg (Nat.lt_irrefl _)

/-- One round: up to the next quote and over what replaces it. -/
theorem replaceQuotes_of_mem {front xs ys : List UInt8} (hxs : ascii '\'' ∉ xs) :
    replaceQuotes (front ++ (xs ++ ascii '\'' :: ys)) front.length =
      replaceQuotes ((front ++ xs ++ replaceStr) ++ ys.drop 3)
        (front ++ xs ++ replaceStr).length := by
  have hfour : replaceStr.length = 4 := by decide
  have hfound : front.length + (xs ++ ascii '\'' :: ys).idxOf (ascii '\'') =
      (front ++ xs).length := by
    rw [List.idxOf_append, if_neg hxs, List.idxOf_cons_self, List.length_append, Nat.zero_add]
  have htake : (front ++ (xs ++ ascii '\'' :: ys)).take (front ++ xs).length = front ++ xs := by
    rw [← List.append_assoc, List.take_left]
  have hdrop : (front ++ (xs ++ ascii '\'' :: ys)).drop ((front ++ xs).length + replaceStr.length) =
      ys.drop 3 := by
    rw [← List.append_assoc, List.drop_append, hfour]
    simp
  -- only the first round is unfolded
  conv_lhs => unfold replaceQuotes
  rw [List.drop_left]
  simp only [hfound, htake, hdrop]
  have hlength : (front ++ xs ++ replaceStr).length = (front ++ xs).length + replaceStr.length :=
    List.length_append
  rw [dif_pos (by simp only [List.length_append, List.length_cons]; omega), hlength]

/-- **Run**: what the loop makes of an argument. -/
theorem replaceQuotes_eq (front rest : List UInt8) :
    replaceQuotes (front ++ rest) front.length = front ++ escape (overwritten rest) := by
  -- each round leaves less of the argument
  induction hn : rest.length using Nat.strong_induction_on generalizing front rest with
  | _ n ih =>
    by_cases hquote : ascii '\'' ∈ rest
    · obtain ⟨xs, ys, rfl, hxs⟩ := List.eq_append_cons_of_mem hquote
      have hless : (ys.drop 3).length < n := by
        rw [← hn, List.length_append, List.length_cons, List.length_drop]
        omega
      rw [replaceQuotes_of_mem hxs, ih _ hless _ _ rfl, overwritten_append hxs,
        overwritten_quote, escape_append_of_not_mem hxs, replaceStr_eq, List.append_assoc,
        List.append_assoc]
      rfl
    · have hnone : escape (overwritten rest) = rest := by
        have hover := overwritten_append hquote []
        have hescape := escape_append_of_not_mem hquote []
        rw [List.append_nil] at hover hescape
        rw [hover, show overwritten [] = [] by unfold overwritten; rfl, List.append_nil, hescape]
        exact List.append_nil rest
      rw [replaceQuotes_of_not_mem hquote, hnone]

/-- **Quoting**: an argument is quoted as another one would be that has lost
    the bytes after its quotes. -/
theorem quoteArg_eq (arg : List UInt8) : quoteArg arg = quote (overwritten arg) := by
  have hall := replaceQuotes_eq [] arg
  rw [List.nil_append, List.nil_append, List.length_nil] at hall
  unfold quoteArg
  rw [hall]
  rfl

theorem appendAll_eq (args : List (List UInt8)) (commandStr : List UInt8) :
    appendAll commandStr args = commandStr ++ joined args := by
  induction args generalizing commandStr with
  | nil => exact (List.append_nil _).symm
  | cons arg args ih =>
    cases args with
    | nil => rfl
    | cons arg' args =>
      show appendAll (commandStr ++ arg ++ [ascii ' ']) (arg' :: args) = _
      rw [ih, List.append_assoc, List.append_assoc]
      rfl

/-- Nothing is put in. -/
theorem sublist_overwritten (arg : List UInt8) : (overwritten arg).Sublist arg := by
  fun_induction overwritten arg with
  | case1 => exact List.Sublist.slnil
  | case2 c cs ih =>
    refine List.Sublist.cons_cons c (ih.trans ?_)
    split
    · exact List.drop_sublist 3 cs
    · exact List.Sublist.refl cs

/-- Nothing is lost iff there is no quote before the last byte. -/
theorem overwritten_eq_self_iff (arg : List UInt8) :
    overwritten arg = arg ↔ ascii '\'' ∉ arg.dropLast := by
  induction arg with
  | nil =>
    unfold overwritten
    simp
  | cons c cs ih =>
    by_cases hc : c = ascii '\''
    · subst hc
      rw [overwritten_quote]
      cases cs with
      | nil =>
        unfold overwritten
        simp
      | cons d ds =>
        -- the byte after the quote is lost
        have hlength := (sublist_overwritten ((d :: ds).drop 3)).length_le
        rw [List.length_drop, List.length_cons] at hlength
        constructor
        · intro heq
          have htail := congrArg List.length (List.cons.inj heq).2
          rw [List.length_cons] at htail
          omega
        · intro hno
          rw [List.dropLast_cons_cons] at hno
          exact absurd List.mem_cons_self hno
    · rw [overwritten_cons hc, List.cons_inj_right, ih]
      cases cs with
      | nil => simp
      | cons d ds =>
        rw [List.dropLast_cons_cons, List.mem_cons, not_or]
        exact ⟨fun hno => ⟨Ne.symm hc, hno⟩, fun h => h.2⟩

/-- **The words of the command**: the arguments without the bytes that are
    lost. -/
theorem tokens_command (command : List CString) :
    tokens (appendAll [] (utf8 "exec".toList :: (command.map Subtype.val).map quoteArg)) =
      some (.word (utf8 "exec".toList) ::
        command.map fun arg => Token.word (overwritten arg.val)) := by
  have hargs : List.Forall₂ Lexes ((command.map Subtype.val).map quoteArg)
      (command.map fun arg => [Token.word (overwritten arg.val)]) := by
    rw [List.map_map, List.forall₂_map_left_iff, List.forall₂_map_right_iff, List.forall₂_same]
    intro arg _
    show Lexes (quoteArg arg.val) _
    rw [quoteArg_eq]
    exact lexes_quote fun hmem => arg.property ((sublist_overwritten arg.val).subset hmem)
  have hexec : Lexes (utf8 "exec".toList) [.word (utf8 "exec".toList)] :=
    lexes_ordinary (by decide) (by decide)
  have hall := (lexes_joined (.cons hexec hargs)).tokens
  rw [appendAll_eq, List.nil_append, hall]
  have hflatten : (command.map fun arg => [Token.word (overwritten arg.val)]).flatten =
      command.map fun arg => Token.word (overwritten arg.val) := by
    rw [← List.flatMap_def]
    exact List.flatMap_pure_eq_map _ _
  rw [List.flatten_cons, hflatten]
  rfl

/-- **The arguments are kept** iff every quote is the last byte of its
    argument. -/
theorem runsArguments_iff (arg : CString) (args : List CString) :
    RunsArguments (arg :: args) ↔ ∀ a, a ∈ arg :: args → ascii '\'' ∉ a.val.dropLast := by
  have hsame : (Token.word (utf8 "exec".toList) ::
        (arg :: args).map fun a => Token.word (overwritten a.val)) =
      (.word (utf8 "exec".toList) :: (arg :: args).map fun a => Token.word a.val) ↔
      ∀ a, a ∈ arg :: args → ascii '\'' ∉ a.val.dropLast := by
    rw [List.cons_inj_right, List.map_inj_left]
    refine forall₂_congr fun a _ => ?_
    rw [Token.word.injEq, overwritten_eq_self_iff]
  rw [← hsame]
  constructor
  · intro ⟨commandStr, hargs, htokens⟩
    have hcommand : appendAll [] (utf8 "exec".toList ::
        ((arg :: args).map Subtype.val).map quoteArg) = commandStr := by
      have hlist := Except.ok.inj hargs
      simp only [List.cons.injEq, true_and, and_true] at hlist
      exact hlist
    rw [← hcommand, tokens_command] at htokens
    exact Option.some.inj htokens
  · intro heq
    exact ⟨_, rfl, (tokens_command (arg :: args)).trans (congrArg some heq)⟩

/-- **Counterexample**: of `it's all`, the shell gets `it'll`. -/
theorem not_runsArguments : ¬ ∀ (arg : CString) (args : List CString), RunsArguments (arg :: args) := by
  intro h
  have hkept := (runsArguments_iff ⟨utf8 "it's all".toList, by decide⟩ []).1 (h _ _)
    _ List.mem_cons_self
  exact absurd hkept (by decide)

end Linglong.Loader
