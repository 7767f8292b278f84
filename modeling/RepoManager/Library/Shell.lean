import RepoManager.Library.LexicalPath

/-!
# The words of a shell command

How bash reads a line: quoting, comments, operators, and the places where a word holds a
substitution. The reader is an automaton that goes from byte to byte, so that reading a text and
then another is reading both. What a substitution that begins with `$(`, `${`, `$[`, `<(` or `>(`
holds is a language of its own; the automaton is given tests for what it has to know of it.

A word keeps the quotes and backslashes that only quote, for the expansions look at the word as it
is written. They are in `ShellExpansion`.

A line is a simple command when its tokens are assignments, words and redirections, with at least
one word for the command. Here-documents, compound assignments and subscripts that go on after a
blank or an operator are left out: a line with one is not taken for a simple command.
-/

namespace Shell

/-! ## Bytes -/

def newline : UInt8 := 0x0a

def space : UInt8 := 0x20

def dollar : UInt8 := 0x24

def backslash : UInt8 := 0x5c

def singleQuote : UInt8 := 0x27

def doubleQuote : UInt8 := 0x22

def backquote : UInt8 := 0x60

def hash : UInt8 := 0x23

/-- A blank separates words. -/
def isBlank (byte : UInt8) : Bool := byte = space ∨ byte = 0x09

/-- The byte of a redirection, or of a process substitution. -/
def isAngle (byte : UInt8) : Bool := byte = 0x3c ∨ byte = 0x3e

/-- The other bytes that begin an operator. -/
def isControl (byte : UInt8) : Bool := byte ∈ ascii "|&;()"

/-- A decimal digit. -/
def isDigit (byte : UInt8) : Bool := 0x30 ≤ byte ∧ byte ≤ 0x39

/-- A letter. -/
def isLetter (byte : UInt8) : Bool :=
  (0x41 ≤ byte ∧ byte ≤ 0x5a) ∨ (0x61 ≤ byte ∧ byte ≤ 0x7a)

/-- The first byte of a name. -/
def isNameStart (byte : UInt8) : Bool := isLetter byte ∨ byte = 0x5f

/-- A byte of a name. -/
def isNameByte (byte : UInt8) : Bool := isNameStart byte ∨ isDigit byte

/-- A parameter of one byte. -/
def isParameter (byte : UInt8) : Bool := isDigit byte ∨ byte ∈ ascii "*@#?-$!"

/-- What opens a substitution after a dollar sign. -/
def isOpening (byte : UInt8) : Bool := byte ∈ ascii "(\x7b["

/-! ## Tokens -/

/-- A part of a word: a byte, with whether it is quoted, a byte that only quotes others, or a
substitution as it is written. -/
inductive Part where
  | literal (byte : UInt8) (quoted : Bool)
  | mark (byte : UInt8)
  | substitution (text : ByteString)
  deriving DecidableEq

/-- The parts of a word. -/
abbrev Word := List Part

/-- A part that is a byte. -/
def Part.isLiteral : Part → Bool
  | .literal _ _ => true
  | _ => false

/-- A part that is an unquoted byte of a kind. -/
def Part.isBare (test : UInt8 → Bool) : Part → Bool
  | .literal byte false => test byte
  | _ => false

/-- The bytes of a word, without what only quotes them and without substitutions. -/
def bytes (word : Word) : ByteString :=
  word.filterMap fun
    | .literal byte _ => some byte
    | _ => none

/-- After an opening bracket: what follows the bracket that closes it. -/
def afterSubscript : ℕ → Word → Option Word
  | _, [] => none
  | level, .literal 0x5b false :: rest => afterSubscript (level + 1) rest
  | 0, .literal 0x5d false :: rest => some rest
  | level + 1, .literal 0x5d false :: rest => afterSubscript level rest
  | level, _ :: rest => afterSubscript level rest

/-- What follows the name and the subscript that a word begins with; `none` when the subscript is
still open at its end. -/
def afterName (word : Word) : Option Word :=
  let rest := word.dropWhile (Part.isBare isNameByte)
  if rest.head? = some (.literal 0x5b false) then afterSubscript 0 rest.tail else some rest

/-- A word that begins like a name. -/
def startsName (word : Word) : Bool := word.head?.any (Part.isBare isNameStart)

/-- A token; the descriptor of a redirection is a word directly before the operator. -/
inductive Token where
  | word (word : Word)
  | descriptor (word : Word)
  | operator (text : ByteString)
  | newline
  deriving DecidableEq

/-- The operators, with the beginnings of longer ones. -/
def operators : List ByteString :=
  ["|", "&", ";", "(", ")", "<", ">", "||", "&&", ";;", ";&", "|&", ";;&", "<<", ">>", "<&", ">&",
    "<>", ">|", "&>", "<<-", "<<<", "&>>"].map ascii

/-- The operators of redirections, but for those of here-documents. -/
def redirections : List ByteString :=
  ["<", ">", ">>", "<&", ">&", "<>", ">|", "&>", "&>>", "<<<"].map ascii

/-! ## The automaton -/

/-- Something whose end only the next byte shows. -/
inductive Pending where
  | operator (text : ByteString)
  | angle (byte : UInt8)
  | dollar (quoted : Bool)
  | name (quoted : Bool) (text : ByteString)
  deriving DecidableEq

/-- What the automaton is reading. In `held` it has read a backslash after something pending, which
goes on if a line break follows. -/
inductive Mode where
  | normal
  | pending (what : Pending)
  | held (what : Pending)
  | comment
  | backslash (quoted : Bool)
  | single
  | double
  | ansi (text : ByteString) (escaped : Bool)
  | backquote (quoted : Bool) (text : ByteString) (escaped : Bool)
  | nested (quoted : Bool) (text : ByteString)
  deriving DecidableEq

/-- The tokens read so far, the word being read, and the mode. -/
structure State where
  tokens : List Token
  word : Option Word
  mode : Mode
  deriving DecidableEq

namespace State

/-- The state before the first byte. -/
def init : State := ⟨[], none, .normal⟩

/-- Go on in another mode. -/
def into (state : State) (mode : Mode) : State := { state with mode }

/-- Begin a word, unless one is being read. -/
def begin (state : State) (mode : Mode) : State :=
  { state with word := some (state.word.getD []), mode }

/-- Add a part to the word. -/
def append (state : State) (part : Part) (mode : Mode) : State :=
  { state with word := some (state.word.getD [] ++ [part]), mode }

/-- Add a token. -/
def push (state : State) (token : Token) (mode : Mode) : State :=
  { state with tokens := state.tokens ++ [token], mode }

/-- End the word, when there is one. -/
def endWord (state : State) (mode : Mode) : State :=
  ⟨state.tokens ++ (state.word.map Token.word).toList, none, mode⟩

end State

/-- The number that some digits write. -/
def decimal (digits : ByteString) : ℕ :=
  digits.foldl (fun value digit => 10 * value + (digit.toNat - 0x30)) 0

/-- A variable: a name, or a name with a subscript that is not empty. -/
def isVariable (word : Word) : Bool :=
  startsName word ∧ afterName word = some [] ∧
    word.dropWhile (Part.isBare isNameByte) ≠ [.literal 0x5b false, .literal 0x5d false]

/-- A word that names a descriptor: a number that is not too large, or a variable in braces. -/
def isDescriptor (word : Word) : Bool :=
  (word ≠ [] ∧ word.all (Part.isBare isDigit) ∧ decimal (bytes word) ≤ 2147483647) ∨
    (word.head? = some (.literal 0x7b false) ∧ word.getLast? = some (.literal 0x7d false) ∧
      isVariable word.tail.dropLast)

/-- End the word before the operator of a redirection. -/
def State.endDescriptor (state : State) (mode : Mode) : State :=
  match state.word with
  | some word =>
    if isDescriptor word then ⟨state.tokens ++ [.descriptor word], none, mode⟩
    else state.endWord mode
  | none => state.endWord mode

/-- One byte outside of quotes. -/
def plainStep (state : State) (byte : UInt8) : State :=
  if byte = newline then (state.endWord .normal).push .newline .normal
  else if isBlank byte then state.endWord .normal
  else if byte = hash ∧ state.word = none then state.into .comment
  else if byte = backslash then state.into (.backslash false)
  else if byte = singleQuote then state.append (.mark byte) .single
  else if byte = doubleQuote then state.append (.mark byte) .double
  else if byte = backquote then state.begin (.backquote false [byte] false)
  else if byte = dollar then state.into (.pending (.dollar false))
  else if isAngle byte then state.into (.pending (.angle byte))
  else if isControl byte then state.endWord (.pending (.operator [byte]))
  else state.append (.literal byte false) .normal

/-- One byte inside of double quotes. -/
def doubleStep (state : State) (byte : UInt8) : State :=
  if byte = doubleQuote then state.append (.mark byte) .normal
  else if byte = backslash then state.into (.backslash true)
  else if byte = backquote then state.into (.backquote true [byte] false)
  else if byte = dollar then state.into (.pending (.dollar true))
  else state.append (.literal byte true) .double

/-- The mode around a substitution. -/
def outer (quoted : Bool) : Mode := if quoted then .double else .normal

/-- One byte around a substitution. -/
def outerStep (quoted : Bool) (state : State) (byte : UInt8) : State :=
  if quoted then doubleStep state byte else plainStep state byte

/-- One byte after a backslash. Inside of double quotes it quotes a few bytes only. -/
def backslashStep (quoted : Bool) (state : State) (byte : UInt8) : State :=
  if byte = newline then state.into (outer quoted)
  else if quoted = false ∨ byte = dollar ∨ byte = backquote ∨ byte = doubleQuote ∨
      byte = backslash then
    (state.append (.mark backslash) (outer quoted)).append (.literal byte true) (outer quoted)
  else
    (state.append (.literal backslash true) (outer quoted)).append (.literal byte true)
      (outer quoted)

/-- One byte after an operator, which is the longest possible one. -/
def operatorStep (text : ByteString) (state : State) (byte : UInt8) : State :=
  if text ++ [byte] ∈ operators then state.into (.pending (.operator (text ++ [byte])))
  else plainStep (state.push (.operator text) .normal) byte

/-- One byte after a dollar sign, which stands for itself when it opens nothing. Before double
quotes it has their text translated. -/
def dollarStep (quoted : Bool) (state : State) (byte : UInt8) : State :=
  if isNameStart byte then state.begin (.pending (.name quoted [dollar, byte]))
  else if isParameter byte then state.append (.substitution [dollar, byte]) (outer quoted)
  else if isOpening byte then state.begin (.nested quoted [dollar, byte])
  else if quoted = false ∧ byte = singleQuote then state.begin (.ansi [dollar, byte] false)
  else if quoted = false ∧ byte = doubleQuote then
    state.append (.substitution [dollar, byte]) .double
  else outerStep quoted (state.append (.literal dollar quoted) (outer quoted)) byte

namespace Pending

/-- Inside of double quotes. -/
def quoted : Pending → Bool
  | .operator _ => false
  | .angle _ => false
  | .dollar quoted => quoted
  | .name quoted _ => quoted

/-- What is pending has ended. -/
def settle (state : State) : Pending → State
  | .operator text => state.push (.operator text) .normal
  | .angle first => (state.endDescriptor .normal).push (.operator [first]) .normal
  | .dollar quoted => state.append (.literal Shell.dollar quoted) (outer quoted)
  | .name quoted text => state.append (.substitution text) (outer quoted)

/-- One byte after something pending. -/
def step (state : State) (byte : UInt8) : Pending → State
  | .operator text => operatorStep text state byte
  | .angle first =>
    if byte = 0x28 then state.begin (.nested false [first, byte])
    else operatorStep [first] (state.endDescriptor .normal) byte
  | .dollar quoted => dollarStep quoted state byte
  | .name quoted text =>
    if isNameByte byte then state.into (.pending (.name quoted (text ++ [byte])))
    else outerStep quoted (state.append (.substitution text) (outer quoted)) byte

end Pending

/-- What is known of a text that a substitution begins with: whether the substitution ends with it,
and whether it ends inside of single quotes. -/
structure Substitutions where
  closes : ByteString → Bool
  inSingle : ByteString → Bool

section Read

variable (inner : Substitutions)

/-- One byte. -/
def step (state : State) (byte : UInt8) : State :=
  match state.mode with
  | .normal => plainStep state byte
  | .pending what =>
    if byte = backslash then state.into (.held what) else what.step state byte
  | .held what =>
    if byte = newline then state.into (.pending what)
    else backslashStep what.quoted (what.settle state) byte
  | .comment => if byte = newline then state.push .newline .normal else state
  | .backslash quoted => backslashStep quoted state byte
  | .single =>
    if byte = singleQuote then state.append (.mark byte) .normal
    else state.append (.literal byte true) .single
  | .double => doubleStep state byte
  | .ansi text escaped =>
    if escaped = false ∧ byte = singleQuote then
      state.append (.substitution (text ++ [byte])) .normal
    else state.into (.ansi (text ++ [byte]) (escaped = false ∧ byte = backslash))
  | .backquote quoted text escaped =>
    if escaped = false ∧ byte = backquote then
      state.append (.substitution (text ++ [byte])) (outer quoted)
    else state.into (.backquote quoted (text ++ [byte]) (escaped = false ∧ byte = backslash))
  | .nested quoted text =>
    if inner.closes (text ++ [byte]) then
      state.append (.substitution (text ++ [byte])) (outer quoted)
    else state.into (.nested quoted (text ++ [byte]))

/-- The tokens when the line ends in a backslash. -/
def State.endLine (kept : Bool) (state : State) : List Token :=
  ((if kept then state.append (.literal Shell.backslash true) .normal else state).endWord
    .normal).tokens

/-- The tokens when the line ends here; `none` when something is still open. A backslash at the end
stands for itself when it is kept. -/
def State.finish (kept : Bool) (state : State) : Option (List Token) :=
  match state.mode with
  | .normal | .comment => some (state.endWord .normal).tokens
  | .pending what =>
    if what.quoted then none else some ((what.settle state).endWord .normal).tokens
  | .held what => if what.quoted then none else some ((what.settle state).endLine kept)
  | .backslash false => some (state.endLine kept)
  | _ => none

/-- Read some bytes. -/
def run (state : State) (text : ByteString) : State := text.foldl (step inner) state

/-- A line break in this mode is in single quotes. -/
def Mode.inSingle : Mode → Bool
  | .single => true
  | .ansi _ _ => true
  | .nested _ text => inner.inSingle text
  | _ => false

/-- A backslash at the end of a line is kept, which starts in a state. Where a line break is in
single quotes, bash gives the line after it one of its own, and a backslash before that is gone. -/
def keepsFrom (state : State) (kept : Bool) : ByteString → Bool
  | [] => kept
  | byte :: rest =>
    let next := step inner state byte
    keepsFrom next (if byte = newline then ¬ next.mode.inSingle inner else kept) rest

/-- A backslash at the end of a line is kept. -/
def keeps (line : ByteString) : Bool := keepsFrom inner .init true line

/-- The tokens of a line. -/
def lex (kept : Bool) (line : ByteString) : Option (List Token) :=
  (run inner .init line).finish kept

end Read

/-! ## Simple commands -/

/-- A redirection: its descriptor, its operator and its target. -/
structure Redirection where
  descriptor : Option Word
  operator : ByteString
  target : Word
  deriving DecidableEq

/-- A simple command. -/
structure SimpleCommand where
  assignments : List Word
  words : List Word
  redirections : List Redirection
  deriving DecidableEq

/-- The words and the redirections among some tokens; line breaks may only follow. -/
def collect : List Token → Option (List Word × List Redirection)
  | [] => some ([], [])
  | .newline :: rest => if rest.all (· = .newline) then some ([], []) else none
  | .word word :: rest => (collect rest).map fun found => (word :: found.1, found.2)
  | .operator text :: .word target :: rest =>
    if text ∈ redirections then
      (collect rest).map fun found => (found.1, ⟨none, text, target⟩ :: found.2)
    else none
  | .descriptor word :: .operator text :: .word target :: rest =>
    if text ∈ redirections then
      (collect rest).map fun found => (found.1, ⟨some word, text, target⟩ :: found.2)
    else none
  | _ => none

/-- The sign of an assignment, or of one that adds. -/
def startsSign : Word → Bool
  | .literal 0x3d false :: _ => true
  | .literal 0x2b false :: .literal 0x3d false :: _ => true
  | _ => false

/-- A word of the form of an assignment. -/
def isAssignment (word : Word) : Bool := startsName word ∧ (afterName word).any startsSign

/-- A word with a subscript that is open at its end. Where bash looks for assignments, it reads on
up to the bracket that closes it. -/
def hasOpenSubscript (word : Word) : Bool := startsName word ∧ afterName word = none

/-- The words that are not the name of a command when they come first. -/
def reserved : List ByteString :=
  ["!", "\x7b", "\x7d", "[[", "]]", "case", "coproc", "do", "done", "elif", "else", "esac", "fi",
    "for", "function", "if", "in", "select", "then", "time", "until", "while"].map ascii

/-- A token that is a reserved word. -/
def isReserved : Token → Bool
  | .word word => word ∈ reserved.map (·.map fun byte => Part.literal byte false)
  | _ => false

/-- The simple command that some tokens are. -/
def simpleCommand (tokens : List Token) : Option SimpleCommand :=
  let tokens := tokens.dropWhile (· = .newline)
  if tokens.head?.any isReserved then none
  else
    (collect tokens).bind fun found =>
      let words := found.1.dropWhile isAssignment
      if words = [] ∨ words.head?.any hasOpenSubscript then none
      else some ⟨found.1.takeWhile isAssignment, words, found.2⟩

/-- The simple command that a text is, where a backslash at its end stands for itself. No text holds
a NUL byte. -/
def parse (inner : Substitutions) (text : ByteString) : Option SimpleCommand :=
  if 0 ∈ text then none else (lex inner true text).bind simpleCommand

/-- A text that is taken for options. -/
def isOption (text : ByteString) : Bool := text.head?.any (· ∈ ascii "+-")

/-- The simple command that bash runs when it is called with `-c` and a line. -/
def commandOf (inner : Substitutions) (line : ByteString) : Option SimpleCommand :=
  if 0 ∈ line ∨ isOption line then none
  else (lex inner (keeps inner line) line).bind simpleCommand

/-- A command with more words at its end. -/
def SimpleCommand.append (command : SimpleCommand) (words : List Word) : SimpleCommand :=
  { command with words := command.words ++ words }

end Shell
