import Linglong.Framework.ShellWords
import Linglong.Utils.QString

/-! # Commands and Environment for the Shell

    `Container::run` (`container.cpp`), `Cli::run` and `Cli::exec` (`cli.cpp`)
    start a command with `bash --login -c`, and `ContainerBuilder::create`
    (`container_builder.cpp`) writes the environment into a script that the
    login shell reads. All of them quote with `QString`s. What is converted
    into one loses a byte order mark at its start, so that an argument that
    begins with U+FEFF comes without it.

    1. The commands and the script.
    2. The words that the shell reads.
    3. When they are those that were given (`commands_and_environment_iff`).
-/

namespace Linglong

open Framework Shell

/-! ## Section 1: The commands and the script -/

/-- `QString("'%1'").arg(QString::fromStdString(arg).replace("'", "'\\''"))`,
    the same in all places. -/
def quoteArg (arg : List Char) : QString :=
  QString.arg "'%1'".toList ((QString.fromStdString arg).replace '\'' "'\\''".toList)

/-- `Container::run`: the arguments of the process, if there are any. -/
def Container.run (args : Option (List (List Char))) : Option (List (List Char)) :=
  args.map fun args =>
    let bashArgs := args.map quoteArg ++ ["; wait".toList]
    ["/bin/bash".toList, "--login".toList, "-e".toList, "-c".toList, QString.join bashArgs [' ']]

/-- What `Cli::run` and `Cli::exec` make of arguments. -/
def Cli.bashCommand (args : List (List Char)) : List (List Char) :=
  let bashArgs := args.map quoteArg
  let bashArgs := if bashArgs.isEmpty then bashArgs else "exec".toList :: bashArgs
  ["/bin/bash".toList, "--login".toList, "-c".toList, QString.join bashArgs [' '], "; wait".toList]

/-- `Cli::run`, in a container that is running. -/
def Cli.run (execArgs : List (List Char)) : List (List Char) := bashCommand execArgs

/-- `Cli::exec`. -/
def Cli.exec (commands : List (List Char)) : List (List Char) :=
  if commands.length ≠ 0 then bashCommand commands else ["bash".toList, "--login".toList]

/-- `ContainerBuilder::create`: the line of `00env.sh` for an entry. -/
def ContainerBuilder.envLine (env : List Char) : QString :=
  let envStr := QString.fromStdString env
  let pos := envStr.indexOf '='
  let value := envStr.mid (pos + 1).toNat envStr.length
  let value := value.replace '\'' "'\\''".toList
  let fixEnv := QString.arg (QString.arg "%1='%2'".toList (envStr.mid 0 pos)) value
  "export ".toList ++ fixEnv ++ ['\n']

/-- An argument as a C string. -/
abbrev Argument := { text : List Char // '\x00' ∉ text }

/-- It begins with U+FEFF. -/
def Argument.Marked (arg : Argument) : Prop := arg.val.head? = some QString.byteOrderMark

/-- What is left of it in a `QString`. -/
def Argument.received (arg : Argument) : Argument :=
  ⟨QString.fromStdString arg.val,
    fun h => arg.property ((QString.fromUtf8_sublist arg.val).subset h)⟩

/-- A letter or an underscore, then letters, digits and underscores. -/
def IsIdentifier (name : List Char) : Prop :=
  (∃ c cs, name = c :: cs ∧ c.isDigit = false) ∧
    ∀ c ∈ name, c.isAlphanum = true ∨ c = '_'

/-- An entry of the environment. -/
structure EnvEntry where
  name : List Char
  value : List Char
  identifier : IsIdentifier name
  noNul : '\x00' ∉ value

def EnvEntry.text (env : EnvEntry) : List Char := env.name ++ '=' :: env.value

/-- What is not a letter, a digit or an underscore is not in the name. -/
theorem EnvEntry.not_mem (env : EnvEntry) {c : Char} (hc : ¬ (c.isAlphanum = true ∨ c = '_')) :
    c ∉ env.name :=
  fun hmem => hc (env.identifier.2 c hmem)

/-- A word of the shell. -/
def shellWord (text : List Char) : Token := .word (utf8 text)

/-- The words of arguments. -/
def shellWords (args : List Argument) : List Token := args.map fun arg => shellWord arg.val

/-- The words of what is left of arguments. -/
def receivedWords (args : List Argument) : List Token := shellWords (args.map Argument.received)

/-! ## Section 2: The words that the shell reads -/

/-- What is put in is not searched for markers. -/
theorem arg_quoted (a : QString) : QString.arg "'%1'".toList a = '\'' :: (a ++ ['\'']) := rfl

/-- Quoting a text and quoting its bytes is the same. -/
theorem utf8_quoted (text : QString) :
    utf8 ('\'' :: (text.replace '\'' "'\\''".toList ++ ['\''])) = quote (utf8 text) := by
  show ascii '\'' :: utf8 (_ ++ ['\'']) = ascii '\'' :: (escape (utf8 text) ++ [ascii '\''])
  rw [utf8_append, escape_utf8]
  rfl

/-- **Quoting**: an argument is one word. -/
theorem lexes_quoteArg (arg : Argument) :
    Lexes (utf8 (quoteArg arg.val)) [shellWord arg.received.val] := by
  have hquoted : utf8 (quoteArg arg.val) = quote (utf8 arg.received.val) := by
    show utf8 (QString.arg "'%1'".toList _) = _
    rw [arg_quoted]
    exact utf8_quoted arg.received.val
  rw [hquoted]
  exact lexes_quote (nul_not_mem_utf8 arg.received.property)

theorem utf8_join (texts : List QString) :
    utf8 (QString.join texts [' ']) = joined (texts.map utf8) := by
  unfold QString.join
  induction texts with
  | nil => rfl
  | cons text texts ih =>
    cases texts with
    | nil => rw [List.intercalate_singleton]; rfl
    | cons text' texts =>
      rw [List.intercalate_cons_cons, utf8_append, utf8_append, ih, List.append_assoc]
      rfl

/-- The quoted arguments, with other texts around them. -/
theorem tokens_join (first last : List QString) {toks toks' : List (List Token)}
    (hfirst : List.Forall₂ Lexes (first.map utf8) toks)
    (hlast : List.Forall₂ Lexes (last.map utf8) toks') (args : List Argument) :
    tokens (utf8 (QString.join (first ++ (args.map Subtype.val).map quoteArg ++ last) [' '])) =
      some (toks.flatten ++ receivedWords args ++ toks'.flatten) := by
  have hargs : List.Forall₂ Lexes (((args.map Subtype.val).map quoteArg).map utf8)
      (args.map fun arg => [shellWord arg.received.val]) := by
    rw [List.map_map, List.map_map, List.forall₂_map_left_iff, List.forall₂_map_right_iff,
      List.forall₂_same]
    exact fun arg _ => lexes_quoteArg arg
  have hwords : (args.map fun arg => [shellWord arg.received.val]).flatten =
      receivedWords args := by
    unfold receivedWords shellWords
    rw [← List.flatMap_def, List.map_map]
    exact List.flatMap_pure_eq_map _ _
  rw [utf8_join, List.map_append, List.map_append]
  rw [(lexes_joined (List.rel_append (List.rel_append hfirst hargs) hlast)).tokens,
    List.flatten_append, List.flatten_append, hwords]

/-- The command of `Container::run` is read as what is left of the arguments,
    and then `wait` as a command of its own. -/
theorem Container.tokens_run (args : List Argument) :
    tokens (utf8 (QString.join ((args.map Subtype.val).map quoteArg ++ ["; wait".toList]) [' '])) =
      some (receivedWords args ++ [.operator (ascii ';'), shellWord "wait".toList]) := by
  -- the semicolon ends the command before it
  have hwait : List.Forall₂ Lexes (["; wait".toList].map utf8)
      [[.operator (ascii ';'), shellWord "wait".toList]] := by
    refine .cons ⟨[.operator (ascii ';')], some (utf8 "wait".toList), ?_, rfl⟩ .nil
    decide
  exact tokens_join [] _ .nil hwait args

/-- `exec` is put in front of arguments only. -/
def Cli.execWords (args : List Argument) : List Token :=
  if args = [] then [] else [shellWord "exec".toList]

/-- A command of `ll-cli` is read as `exec` and what is left of the
    arguments. -/
theorem Cli.tokens_bashCommand (args : List Argument) :
    ∃ text, Cli.bashCommand (args.map Subtype.val) =
        ["/bin/bash".toList, "--login".toList, "-c".toList, text, "; wait".toList] ∧
      tokens (utf8 text) = some (execWords args ++ receivedWords args) := by
  cases args with
  | nil => exact ⟨[], rfl, lexes_nil.tokens⟩
  | cons arg args =>
    have hexec : List.Forall₂ Lexes (["exec".toList].map utf8) [[shellWord "exec".toList]] :=
      .cons (lexes_ordinary (by decide) (by decide)) .nil
    have htokens := tokens_join _ [] hexec .nil (arg :: args)
    rw [List.append_nil, List.flatten_nil, List.append_nil] at htokens
    exact ⟨_, rfl, htokens⟩

/-- The name and the value in a word that is an assignment. -/
def assignment (word : List UInt8) : List UInt8 × List UInt8 :=
  (word.takeWhile (· ≠ ascii '='), (word.dropWhile (· ≠ ascii '=')).drop 1)

theorem assignment_append {name : List UInt8} (h : ascii '=' ∉ name) (value : List UInt8) :
    assignment (name ++ ascii '=' :: value) = (name, value) := by
  unfold assignment
  rw [takeWhile_append_of_not_mem h, dropWhile_append_of_not_mem h]
  rfl

/-- An entry begins with a letter or an underscore, so that all of it comes
    into the `QString`. -/
theorem EnvEntry.fromStdString_text (env : EnvEntry) :
    QString.fromStdString env.text = env.text := by
  refine QString.fromUtf8_of_not_marked fun hmark => ?_
  obtain ⟨c, cs, hname, -⟩ := env.identifier.1
  have hc : c = QString.byteOrderMark := by
    unfold EnvEntry.text at hmark
    rw [hname] at hmark
    exact Option.some.inj hmark
  have hmem : QString.byteOrderMark ∈ env.name := by
    rw [hname, hc]
    exact List.mem_cons_self
  exact env.not_mem (by decide) hmem

/-- Name and value of an entry are what is before and behind the first
    equals sign. -/
theorem ContainerBuilder.envLine_text (env : EnvEntry) :
    utf8 (envLine env.text) = (utf8 "export".toList ++ ascii ' ' ::
      (utf8 (env.name ++ ['=']) ++ quote (utf8 env.value))) ++ [ascii '\n'] := by
  have hequals : '=' ∉ env.name := env.not_mem (by decide)
  have hmarker : '%' ∉ env.name := env.not_mem (by decide)
  -- the value may have more equals signs, the name has none
  have hpos : QString.indexOf env.text '=' = (env.name.length : Int) := by
    unfold QString.indexOf EnvEntry.text
    rw [if_pos (by simp), List.idxOf_append, if_neg hequals, List.idxOf_cons_self, Nat.zero_add]
  have hvalue : QString.mid env.text (env.name.length + 1 : Int).toNat env.text.length =
      env.value := by
    have hdrop : env.text.drop (env.name.length + 1) = env.value := by
      unfold EnvEntry.text
      simp
    have hlength : env.value.length ≤ env.text.length := by
      unfold EnvEntry.text
      rw [List.length_append, List.length_cons]
      omega
    unfold QString.mid
    rw [if_neg (by omega), show (env.name.length + 1 : Int).toNat = env.name.length + 1 by omega,
      hdrop, Int.toNat_natCast, List.take_of_length_le hlength]
  have hname : QString.mid env.text 0 (env.name.length : Int) = env.name := by
    unfold QString.mid EnvEntry.text
    rw [if_neg (by omega), Int.toNat_natCast, List.drop_zero, List.take_left]
  have hassigned : ∀ a : QString, QString.arg (QString.arg "%1='%2'".toList env.name) a =
      (env.name ++ ['=']) ++ '\'' :: (a ++ ['\'']) := by
    intro a
    -- the second `arg` sees the name, which has no marker, and the rest of the template
    have hfirst : QString.arg "%1='%2'".toList env.name = env.name ++ "='%2'".toList := rfl
    have hsecond : QString.arg "='%2'".toList a = '=' :: '\'' :: (a ++ ['\'']) := rfl
    rw [hfirst, QString.arg_append hmarker, hsecond, List.append_assoc]
    rfl
  unfold envLine
  simp only [env.fromStdString_text, hpos, hvalue, hname, hassigned]
  have hexport : utf8 "export ".toList = utf8 "export".toList ++ [ascii ' '] := by decide
  rw [utf8_append, utf8_append, utf8_append, utf8_quoted, hexport]
  simp only [List.append_assoc, List.cons_append]
  rfl

/-! ## Section 3: When they are those that were given -/

/-- The command of `Container::run` is read as the arguments, and then `wait`
    as a command of its own. -/
def Container.KeepsArguments (args : List Argument) : Prop :=
  ∃ text, Container.run (some (args.map Subtype.val)) = some ["/bin/bash".toList,
      "--login".toList, "-e".toList, "-c".toList, text] ∧
    tokens (utf8 text) =
      some (shellWords args ++ [.operator (ascii ';'), shellWord "wait".toList])

/-- A command of `ll-cli` is read as `exec` and the arguments. -/
def Cli.KeepsArguments (command : List (List Char)) (args : List Argument) : Prop :=
  ∃ text, command = ["/bin/bash".toList, "--login".toList, "-c".toList, text, "; wait".toList] ∧
    tokens (utf8 text) = some (execWords args ++ shellWords args)

/-- Whatever follows the line in the script, the line exports the name with
    the value. -/
def ContainerBuilder.Exports (env : EnvEntry) : Prop :=
  ∃ word, assignment word = (utf8 env.name, utf8 env.value) ∧
    ∀ rest, tokens (utf8 (envLine env.text) ++ rest) =
      (tokens rest).map fun more =>
        [shellWord "export".toList, .word word, .operator (ascii '\n')] ++ more

/-- The byte order mark is missing in the word. -/
theorem shellWord_received_iff (arg : Argument) :
    shellWord arg.received.val = shellWord arg.val ↔ ¬ arg.Marked := by
  constructor
  · intro h hmarked
    have hwords : utf8 (QString.fromUtf8 arg.val) = utf8 arg.val := Token.word.inj h
    rcases QString.eq_cons_or_fromUtf8_eq arg.val with hcons | hsame
    · -- its three bytes make the difference
      have hbytes : utf8 arg.val =
          utf8 [QString.byteOrderMark] ++ utf8 (QString.fromUtf8 arg.val) := by
        rw [← utf8_append, List.singleton_append, ← hcons]
      have hlength := congrArg List.length (hwords.trans hbytes)
      rw [List.length_append] at hlength
      have hmark : (utf8 [QString.byteOrderMark]).length = 3 := by decide
      omega
    · exact QString.fromUtf8_eq_iff.1 hsame hmarked
  · intro h
    exact congrArg shellWord (QString.fromUtf8_of_not_marked h)

theorem receivedWords_eq_iff (args : List Argument) :
    receivedWords args = shellWords args ↔ ∀ arg ∈ args, ¬ arg.Marked := by
  unfold receivedWords shellWords
  rw [List.map_map, List.map_inj_left]
  exact forall₂_congr fun arg _ => shellWord_received_iff arg

theorem Container.keepsArguments_iff (args : List Argument) :
    Container.KeepsArguments args ↔ ∀ arg ∈ args, ¬ arg.Marked := by
  rw [← receivedWords_eq_iff]
  constructor
  · rintro ⟨text, hrun, htokens⟩
    have htext : QString.join ((args.map Subtype.val).map quoteArg ++ ["; wait".toList]) [' '] =
        text := by
      simpa [Container.run] using hrun
    rw [← htext, Container.tokens_run] at htokens
    exact List.append_cancel_right (Option.some.inj htokens)
  · intro h
    refine ⟨_, rfl, ?_⟩
    rw [Container.tokens_run, h]

theorem Cli.keepsArguments_iff (args : List Argument) :
    Cli.KeepsArguments (Cli.bashCommand (args.map Subtype.val)) args ↔
      ∀ arg ∈ args, ¬ arg.Marked := by
  obtain ⟨text, hcommand, htokens⟩ := Cli.tokens_bashCommand args
  rw [← receivedWords_eq_iff]
  constructor
  · rintro ⟨text', hcommand', htokens'⟩
    have htext : text = text' := by simpa using hcommand.symm.trans hcommand'
    rw [← htext, htokens] at htokens'
    exact List.append_cancel_left (Option.some.inj htokens')
  · intro h
    exact ⟨text, hcommand, by rw [htokens, h]⟩

theorem ContainerBuilder.exports (env : EnvEntry) : ContainerBuilder.Exports env := by
  have hequals : '=' ∉ env.name := env.not_mem (by decide)
  -- the word is the name and the equals sign, which are not quoted, and the value, which is
  refine ⟨utf8 (env.name ++ ['=']) ++ utf8 env.value, ?_, fun rest => ?_⟩
  · rw [utf8_append, List.append_assoc]
    exact assignment_append (ascii_not_mem_utf8 (by decide) hequals) _
  · have hordinary : (utf8 (env.name ++ ['='])).all isOrdinary = true := by
      rw [utf8_append, List.all_append, Bool.and_eq_true, List.all_eq_true]
      refine ⟨fun b hb => ?_, by decide⟩
      obtain ⟨c, hc, hbyte⟩ := List.mem_flatMap.1 hb
      exact isOrdinary_of_mem_utf8EncodeChar (env.identifier.2 c hc) hbyte
    have hne : utf8 (env.name ++ ['=']) ≠ [] := by
      rw [utf8_append]
      exact List.append_ne_nil_of_right_ne_nil _ (by decide)
    have hexport : Lexes (utf8 "export".toList) [shellWord "export".toList] :=
      lexes_ordinary (by decide) (by decide)
    have hline := lexes_blank hexport
      (lexes_ordinary_quote hordinary hne (nul_not_mem_utf8 env.noNul))
    rw [ContainerBuilder.envLine_text, List.append_assoc, List.singleton_append,
      hline.tokens_newline]
    rfl

/-- **The shell gets what was given**: the arguments of commands, unless one
    of them begins with U+FEFF, and the values of the environment. -/
theorem commands_and_environment_iff (args : List Argument) (env : EnvEntry) :
    (Container.KeepsArguments args ↔ ∀ arg ∈ args, ¬ arg.Marked) ∧
      (Cli.KeepsArguments (Cli.run (args.map Subtype.val)) args ↔ ∀ arg ∈ args, ¬ arg.Marked) ∧
      Cli.exec [] = ["bash".toList, "--login".toList] ∧
      (∀ arg, Cli.KeepsArguments (Cli.exec ((arg :: args).map Subtype.val)) (arg :: args) ↔
        ∀ a ∈ arg :: args, ¬ Argument.Marked a) ∧
      ContainerBuilder.Exports env :=
  ⟨Container.keepsArguments_iff args, Cli.keepsArguments_iff args, rfl,
    fun arg => Cli.keepsArguments_iff (arg :: args), ContainerBuilder.exports env⟩

/-- U+FEFF and a letter: the bytes EF BB BF 66. -/
def markedArgument : Argument := ⟨[QString.byteOrderMark, 'f'], by decide⟩

/-- **Counterexample**: the letter is all that the shell gets. -/
theorem not_keepsArguments :
    ¬ Container.KeepsArguments [markedArgument] ∧
      ¬ Cli.KeepsArguments (Cli.run [markedArgument.val]) [markedArgument] ∧
      ¬ Cli.KeepsArguments (Cli.exec [markedArgument.val]) [markedArgument] := by
  have hmarked : ¬ ∀ arg ∈ [markedArgument], ¬ arg.Marked :=
    fun h => h markedArgument List.mem_cons_self rfl
  exact ⟨fun h => hmarked ((Container.keepsArguments_iff _).1 h),
    fun h => hmarked ((Cli.keepsArguments_iff _).1 h),
    fun h => hmarked ((Cli.keepsArguments_iff _).1 h)⟩

end Linglong
