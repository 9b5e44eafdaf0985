import Mathlib.Data.List.Basic
import Mathlib.Data.List.Forall2

/-! # Words of a Shell Command

    The part of the POSIX shell that splits its input into words and
    operators and removes quotes, as an automaton on bytes. Every byte is an
    event; a word is given out when the byte that delimits it comes.

    An operator of several characters comes as one token for each of them.
    A text with an expansion (an unquoted or double-quoted `$` or backquote),
    with a NUL or with a quote that is not closed has no tokens here: what it
    means depends on more than the rules for words and quotes.

    * `feed_append`: a text in two parts.
    * `Lexes`: a text that can be followed by a blank or a newline.
    * `lexes_blank`, `lexes_joined`, `tokens_newline`: texts made of such texts.
    * `feed_quote`, `lexes_quote`: a word in single quotes.
    * `escape_utf8`: quoting a text before or after it is encoded.
-/

namespace Framework.Shell

/-! ## Section 1: The automaton -/

/-- The byte of an ASCII character. -/
def ascii (c : Char) : UInt8 := c.toUInt8

/-- The bytes of a text. -/
def utf8 (cs : List Char) : List UInt8 := cs.flatMap String.utf8EncodeChar

inductive Token where
  | word (text : List UInt8)
  | operator (c : UInt8)
  deriving DecidableEq

inductive Mode where
  | plain | escape | single | double | doubleEscape | comment
  deriving DecidableEq

/-- Where the automaton is, and the word it is in, if any. -/
structure State where
  mode : Mode
  word : Option (List UInt8)
  deriving DecidableEq

/-- Before the first byte. -/
def start : State := ⟨.plain, none⟩

/-- The word that ends here. -/
def State.flush (s : State) : List Token := s.word.toList.map Token.word

/-- The word goes on with some bytes. -/
def State.put (s : State) (mode : Mode) (text : List UInt8) : State :=
  ⟨mode, some (s.word.getD [] ++ text)⟩

def isBlank (c : UInt8) : Bool := c = ascii ' ' || c = ascii '\t'

/-- The characters of control and redirection operators. -/
def isOperator (c : UInt8) : Bool :=
  [ascii '\n', ascii '|', ascii '&', ascii ';', ascii '<', ascii '>', ascii '(', ascii ')'].contains c

/-- Expansions begin here, except in single quotes. -/
def expands (c : UInt8) : Bool := c = ascii '$' || c = ascii '`'

/-- Outside of quotes. -/
def plainStep (s : State) (c : UInt8) : Option (List Token × State) :=
  if c = ascii '\'' then some ([], s.put .single [])
  else if c = ascii '"' then some ([], s.put .double [])
  else if c = ascii '\\' then some ([], ⟨.escape, s.word⟩)
  else if expands c then none
  else if isBlank c then some (s.flush, start)
  else if isOperator c then some (s.flush ++ [.operator c], start)
  else if c = ascii '#' ∧ s.word = none then some ([], ⟨.comment, none⟩)
  else some ([], s.put .plain [c])

/-- One byte: the tokens that end with it, and the next state. -/
def step (s : State) (c : UInt8) : Option (List Token × State) :=
  if c = 0 then none
  else
    match s.mode with
    | .plain => plainStep s c
    | .escape =>
        -- a backslash and a newline are as if they were not there
        if c = ascii '\n' then some ([], ⟨.plain, s.word⟩) else some ([], s.put .plain [c])
    | .single => if c = ascii '\'' then some ([], s.put .plain []) else some ([], s.put .single [c])
    | .double =>
        if c = ascii '"' then some ([], s.put .plain [])
        else if c = ascii '\\' then some ([], s.put .doubleEscape [])
        else if expands c then none
        else some ([], s.put .double [c])
    | .doubleEscape =>
        if c = ascii '\n' then some ([], s.put .double [])
        else if expands c ∨ c = ascii '"' ∨ c = ascii '\\' then some ([], s.put .double [c])
        else some ([], s.put .double [ascii '\\', c])
    | .comment => if c = ascii '\n' then some ([.operator c], start) else some ([], s)

/-- A text, from some state. -/
def feed (s : State) : List UInt8 → Option (List Token × State)
  | [] => some ([], s)
  | c :: cs => do
      let (out, s') ← step s c
      let (more, s'') ← feed s' cs
      some (out ++ more, s'')

/-- The end of the text. -/
def finish (s : State) : Option (List Token) :=
  match s.mode with
  | .plain | .comment => some s.flush
  | _ => none

/-- The tokens of a text. -/
def tokens (text : List UInt8) : Option (List Token) := do
  let (out, s) ← feed start text
  let last ← finish s
  some (out ++ last)

example : tokens (utf8 "exec 'a b' c\"d e\"\\ f;".toList) =
    some [.word (utf8 "exec".toList), .word (utf8 "a b".toList), .word (utf8 "cd e f".toList),
      .operator (ascii ';')] := by decide

/-! ## Section 2: Texts in parts -/

theorem feed_cons (s : State) (c : UInt8) (cs : List UInt8) :
    feed s (c :: cs) = (step s c).bind fun r => (feed r.2 cs).map fun r' => (r.1 ++ r'.1, r'.2) := by
  show (step s c >>= fun _ => _) = _
  cases step s c with
  | none => rfl
  | some r =>
    show (feed r.2 cs >>= fun _ => _) = _
    cases hrest : feed r.2 cs with
    | none => simp [hrest]
    | some r' => simp [hrest]

theorem feed_cons_of {s s' s'' : State} {c : UInt8} {cs : List UInt8} {out more : List Token}
    (hstep : step s c = some (out, s')) (hrest : feed s' cs = some (more, s'')) :
    feed s (c :: cs) = some (out ++ more, s'') := by
  rw [feed_cons, hstep]
  simp [hrest]

/-- **Two parts**: the second one is fed from where the first one ends. -/
theorem feed_append_of {s s' : State} {xs : List UInt8} {out : List Token}
    (hxs : feed s xs = some (out, s')) (ys : List UInt8) :
    feed s (xs ++ ys) = (feed s' ys).map fun r => (out ++ r.1, r.2) := by
  induction xs generalizing s out with
  | nil =>
    cases hxs
    exact Option.map_id'.symm
  | cons c cs ih =>
    rw [feed_cons] at hxs
    obtain ⟨⟨first, s₁⟩, hstep, hrest⟩ := Option.bind_eq_some_iff.1 hxs
    obtain ⟨⟨rest, s₂⟩, hcs, heq⟩ := Option.map_eq_some_iff.1 hrest
    cases heq
    rw [List.cons_append, feed_cons, hstep, Option.bind_some, ih hcs, Option.map_map]
    refine congrArg (Option.map · _) (funext fun r => ?_)
    simp [List.append_assoc]

theorem feed_append {s s' s'' : State} {xs ys : List UInt8} {out more : List Token}
    (hxs : feed s xs = some (out, s')) (hys : feed s' ys = some (more, s'')) :
    feed s (xs ++ ys) = some (out ++ more, s'') := by
  rw [feed_append_of hxs, hys]
  rfl

/-- The text has these tokens, and it ends where a blank or a newline would
    end a word. -/
def Lexes (text : List UInt8) (toks : List Token) : Prop :=
  ∃ out word, feed start text = some (out, ⟨.plain, word⟩) ∧
    out ++ State.flush ⟨.plain, word⟩ = toks

theorem Lexes.tokens {text : List UInt8} {toks : List Token} (h : Lexes text toks) :
    tokens text = some toks := by
  obtain ⟨out, word, hfeed, rfl⟩ := h
  unfold Shell.tokens
  rw [hfeed]
  rfl

theorem lexes_nil : Lexes [] [] := ⟨[], none, rfl, rfl⟩

/-- A blank between two texts. -/
theorem lexes_blank {text text' : List UInt8} {toks toks' : List Token} (h : Lexes text toks)
    (h' : Lexes text' toks') : Lexes (text ++ ascii ' ' :: text') (toks ++ toks') := by
  obtain ⟨out, word, hfeed, rfl⟩ := h
  obtain ⟨out', word', hfeed', rfl⟩ := h'
  -- the blank gives out the last word of the first text
  have hblank : step ⟨.plain, word⟩ (ascii ' ') = some (State.flush ⟨.plain, word⟩, start) := rfl
  refine ⟨_, word', feed_append hfeed (feed_cons_of hblank hfeed'), ?_⟩
  simp [List.append_assoc]

/-- **A line**: after the newline the text is read as if it began there. -/
theorem Lexes.tokens_newline {line : List UInt8} {toks : List Token} (h : Lexes line toks)
    (rest : List UInt8) : Shell.tokens (line ++ ascii '\n' :: rest) =
      (Shell.tokens rest).map fun more => toks ++ .operator (ascii '\n') :: more := by
  obtain ⟨out, word, hfeed, rfl⟩ := h
  have hnewline : feed ⟨.plain, word⟩ [ascii '\n'] =
      some ((State.flush ⟨.plain, word⟩ ++ [.operator (ascii '\n')]) ++ [], start) := rfl
  -- behind the newline the automaton is where it starts
  have hline := feed_append hfeed hnewline
  rw [show line ++ ascii '\n' :: rest = (line ++ [ascii '\n']) ++ rest by simp]
  unfold Shell.tokens
  rw [feed_append_of hline]
  cases feed start rest with
  | none => rfl
  | some r =>
    show ((finish r.2).bind fun last => _) = Option.map _ ((finish r.2).bind fun last => _)
    cases finish r.2 with
    | none => rfl
    | some last => simp

/-- Texts joined by blanks. -/
def joined : List (List UInt8) → List UInt8
  | [] => []
  | [text] => text
  | text :: texts => text ++ ascii ' ' :: joined texts

/-- **Joined texts** have the tokens of their parts. -/
theorem lexes_joined {texts : List (List UInt8)} {tokss : List (List Token)}
    (h : List.Forall₂ Lexes texts tokss) : Lexes (joined texts) tokss.flatten := by
  induction h with
  | nil => exact lexes_nil
  | @cons text toks texts tokss hfirst hrest ih =>
    cases texts with
    | nil =>
      cases hrest
      rw [List.flatten_cons, List.flatten_nil, List.append_nil]
      exact hfirst
    | cons text' texts =>
      show Lexes (text ++ ascii ' ' :: joined (text' :: texts)) _
      rw [List.flatten_cons]
      exact lexes_blank hfirst ih

/-! ## Section 3: Words -/

/-- A character that has no meaning of its own outside of quotes. -/
def isOrdinary (c : UInt8) : Bool :=
  c ≠ 0 && c ≠ ascii '\'' && c ≠ ascii '"' && c ≠ ascii '\\' && !expands c && !isBlank c &&
    !isOperator c && c ≠ ascii '#'

theorem step_ordinary {c : UInt8} (h : isOrdinary c = true) (word : Option (List UInt8)) :
    step ⟨.plain, word⟩ c = some ([], ⟨.plain, some (word.getD [] ++ [c])⟩) := by
  simp only [isOrdinary, Bool.and_eq_true, ne_eq, decide_eq_true_eq, Bool.not_eq_true'] at h
  simp [step, plainStep, State.put, h]

/-- An unquoted word. -/
theorem feed_ordinary {text : List UInt8} (h : text.all isOrdinary = true) (hne : text ≠ []) :
    feed start text = some ([], ⟨.plain, some text⟩) := by
  -- once the word has begun, further bytes go on with it
  have hmore : ∀ (cs word : List UInt8), cs.all isOrdinary = true →
      feed ⟨.plain, some word⟩ cs = some ([], ⟨.plain, some (word ++ cs)⟩) := by
    intro cs
    induction cs with
    | nil =>
      intro word _
      rw [List.append_nil]
      rfl
    | cons c cs ih =>
      intro word hcs
      rw [List.all_cons, Bool.and_eq_true] at hcs
      have hrest := feed_cons_of (step_ordinary hcs.1 (some word)) (ih (word ++ [c]) hcs.2)
      rw [List.append_assoc] at hrest
      exact hrest
  obtain ⟨c, cs, rfl⟩ := List.exists_cons_of_ne_nil hne
  rw [List.all_cons, Bool.and_eq_true] at h
  exact feed_cons_of (step_ordinary h.1 none) (hmore cs [c] h.2)

theorem lexes_ordinary {text : List UInt8} (h : text.all isOrdinary = true) (hne : text ≠ []) :
    Lexes text [.word text] :=
  ⟨[], _, feed_ordinary h hne, rfl⟩

/-- A single quote within single quotes: close them, write it with a
    backslash and open them again. -/
def quotedQuote : List UInt8 := [ascii '\'', ascii '\\', ascii '\'', ascii '\'']

/-- What stands between the quotes. -/
def escape (text : List UInt8) : List UInt8 :=
  text.flatMap fun c => if c = ascii '\'' then quotedQuote else [c]

/-- A text in single quotes. -/
def quote (text : List UInt8) : List UInt8 := ascii '\'' :: (escape text ++ [ascii '\''])

theorem feed_escape {text : List UInt8} (hnul : 0 ∉ text) (word : List UInt8) :
    feed ⟨.single, some word⟩ (escape text) = some ([], ⟨.single, some (word ++ text)⟩) := by
  induction text generalizing word with
  | nil => rw [List.append_nil]; rfl
  | cons c cs ih =>
    rw [List.mem_cons, not_or] at hnul
    have hrest := ih hnul.2 (word ++ [c])
    rw [List.append_assoc] at hrest
    show feed _ ((if c = ascii '\'' then quotedQuote else [c]) ++ escape cs) = _
    by_cases hc : c = ascii '\''
    · -- out of the quotes, the quote itself, and in again
      subst hc
      have hout : feed ⟨.single, some word⟩ quotedQuote =
          some ([], ⟨.single, some (((word ++ []) ++ [ascii '\'']) ++ [])⟩) := rfl
      rw [List.append_nil, List.append_nil] at hout
      rw [if_pos rfl]
      exact feed_append hout hrest
    · have hstep : step ⟨.single, some word⟩ c = some ([], ⟨.single, some (word ++ [c])⟩) := by
        simp [step, State.put, hc, Ne.symm hnul.1]
      rw [if_neg hc]
      exact feed_cons_of hstep hrest

/-- **Quotes**: a quoted text adds itself to the word, whatever it is made
    of. -/
theorem feed_quote {text : List UInt8} (hnul : 0 ∉ text) (word : Option (List UInt8)) :
    feed ⟨.plain, word⟩ (quote text) = some ([], ⟨.plain, some (word.getD [] ++ text)⟩) := by
  have hopen : step ⟨.plain, word⟩ (ascii '\'') =
      some ([], ⟨.single, some (word.getD [] ++ [])⟩) := rfl
  have hclose : feed ⟨.single, some (word.getD [] ++ text)⟩ [ascii '\''] =
      some ([], ⟨.plain, some ((word.getD [] ++ text) ++ [])⟩) := rfl
  rw [List.append_nil] at hopen hclose
  exact feed_cons_of hopen (feed_append (feed_escape hnul (word.getD [])) hclose)

theorem lexes_quote {text : List UInt8} (hnul : 0 ∉ text) : Lexes (quote text) [.word text] :=
  ⟨[], _, feed_quote hnul none, rfl⟩

/-- Ordinary characters and then a quoted text, in one word. -/
theorem lexes_ordinary_quote {first text : List UInt8} (h : first.all isOrdinary = true)
    (hne : first ≠ []) (hnul : 0 ∉ text) : Lexes (first ++ quote text) [.word (first ++ text)] :=
  ⟨[], _, feed_append (feed_ordinary h hne) (feed_quote hnul (some first)), rfl⟩

/-! ## Section 4: Texts as bytes -/

/-- An ASCII byte encodes its own character and is part of no other
    encoding. -/
theorem toNat_eq_of_mem_utf8EncodeChar {c : Char} {b : UInt8} (hb : b.toNat < 128)
    (h : b ∈ String.utf8EncodeChar c) : c.toNat = b.toNat := by
  show c.val.toNat = b.toNat
  unfold String.utf8EncodeChar at h
  simp only at h
  split at h
  · next hle =>
    have hone : b = c.val.toNat.toUInt8 := by simpa using h
    rw [hone]
    simp only [Nat.toUInt8_eq, UInt8.toNat_ofNat']
    omega
  · -- the bytes of a longer encoding begin with a one
    exfalso
    split at h
    · simp only [List.mem_cons, List.not_mem_nil, or_false] at h
      rcases h with rfl | rfl <;> simp at hb <;> omega
    · -- three bytes, or four
      split at h
      · simp only [List.mem_cons, List.not_mem_nil, or_false] at h
        rcases h with rfl | rfl | rfl <;> simp at hb <;> omega
      · simp only [List.mem_cons, List.not_mem_nil, or_false] at h
        rcases h with rfl | rfl | rfl | rfl <;> simp at hb <;> omega

theorem utf8_append (cs ds : List Char) : utf8 (cs ++ ds) = utf8 cs ++ utf8 ds :=
  List.flatMap_append

/-- A text without an ASCII character has no such byte. -/
theorem ascii_not_mem_utf8 {a : Char} (ha : a.toNat < 128) {cs : List Char} (h : a ∉ cs) :
    ascii a ∉ utf8 cs := by
  have hcode : (ascii a).toNat = a.toNat := by
    show a.toNat % 256 = a.toNat
    omega
  intro hmem
  obtain ⟨c, hc, hbyte⟩ := List.mem_flatMap.1 hmem
  have hsame := toNat_eq_of_mem_utf8EncodeChar (by omega) hbyte
  have heq : c = a := Char.ext (UInt32.toNat_inj.1 (hsame.trans hcode))
  exact h (heq ▸ hc)

theorem nul_not_mem_utf8 {cs : List Char} (h : '\x00' ∉ cs) : 0 ∉ utf8 cs :=
  ascii_not_mem_utf8 (by decide) h

/-- The bytes that are not ordinary. -/
def special : List UInt8 :=
  [0, ascii '\'', ascii '"', ascii '\\', ascii '$', ascii '`', ascii ' ', ascii '\t', ascii '\n',
    ascii '|', ascii '&', ascii ';', ascii '<', ascii '>', ascii '(', ascii ')', ascii '#']

theorem mem_special {c : UInt8} (h : isOrdinary c = false) : c ∈ special := by
  by_contra hno
  simp only [special, List.mem_cons, List.not_mem_nil, or_false, not_or] at hno
  have hordinary : isOrdinary c = true := by
    simp [isOrdinary, expands, isBlank, isOperator, hno]
  rw [h] at hordinary
  cases hordinary

/-- Letters, digits and underscores are ordinary. -/
theorem isOrdinary_of_mem_utf8EncodeChar {c : Char} (hc : c.isAlphanum = true ∨ c = '_') {b : UInt8}
    (hb : b ∈ String.utf8EncodeChar c) : isOrdinary b = true := by
  by_contra hno
  have hall : (special.all fun b => decide (b.toNat < 128) &&
      !(Char.ofNat b.toNat).isAlphanum && Char.ofNat b.toNat != '_') = true := by decide
  have hspecial := List.all_eq_true.1 hall b (mem_special (Bool.eq_false_iff.2 hno))
  simp only [Bool.and_eq_true, decide_eq_true_eq, Bool.not_eq_true', bne_iff_ne] at hspecial
  obtain ⟨⟨hascii, halphanum⟩, hunderscore⟩ := hspecial
  rw [← toNat_eq_of_mem_utf8EncodeChar hascii hb, Char.ofNat_toNat] at halphanum hunderscore
  rcases hc with hc | hc
  · rw [hc] at halphanum
    cases halphanum
  · exact hunderscore hc

/-- Quotes in a text may be escaped before or after encoding it. -/
theorem escape_utf8 (cs : List Char) :
    escape (utf8 cs) =
      utf8 (cs.flatMap fun c => if c = '\'' then ['\'', '\\', '\'', '\''] else [c]) := by
  induction cs with
  | nil => rfl
  | cons c cs ih =>
    have hchar : escape (String.utf8EncodeChar c) =
        utf8 (if c = '\'' then ['\'', '\\', '\'', '\''] else [c]) := by
      by_cases hc : c = '\''
      · subst hc
        rfl
      · -- no byte of another character is a quote
        have hbytes : ∀ b ∈ String.utf8EncodeChar c, b ≠ ascii '\'' := by
          intro b hb heq
          rw [heq] at hb
          have hcode := toNat_eq_of_mem_utf8EncodeChar (by decide) hb
          exact hc (Char.ext (UInt32.toNat_inj.1 hcode))
        have hsame : escape (String.utf8EncodeChar c) =
            (String.utf8EncodeChar c).flatMap fun b => [b] :=
          List.flatMap_congr fun b hb => if_neg (hbytes b hb)
        rw [if_neg hc, hsame, List.flatMap_singleton']
        show _ = String.utf8EncodeChar c ++ []
        rw [List.append_nil]
    show escape (String.utf8EncodeChar c ++ utf8 cs) = _
    rw [escape, List.flatMap_append, ← escape, ← escape, hchar, ih, List.flatMap_cons, utf8_append]

end Framework.Shell
