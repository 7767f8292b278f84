import RepoManager.Library.Shell

/-!
# What bash makes of a word

Before a command gets a word, bash expands braces, then tildes, then patterns of file names, and
takes the quotes away. `string?` is the string that is left when no expansion applies, whatever
files and users there are: a word that is regarded as a pattern has none, even if no file could
ever match it.

The braces follow bash's own search, which takes the word as it is written: it looks for an opening
brace with a closing one and a comma or two dots between them, and what is in them is a list when
it has a comma anywhere, or else may be a sequence. A sequence that bash gives up is passed over,
and the search starts anew after it. Memory has no bounds here.
-/

namespace Shell

def slash : UInt8 := 0x2f

/-! ## Braces -/

/-- A part as it is written. -/
def Part.written : Part → ByteString
  | .literal byte _ => [byte]
  | .mark byte => [byte]
  | .substitution text => text

/-- A word as it is written. -/
def written (word : Word) : ByteString := word.flatMap Part.written

/-- The level of braces after a part. -/
def levelAfter (level : ℕ) : Part → ℕ
  | .literal 0x7b false => level + 1
  | .literal 0x7d false => level - 1
  | _ => level

/-- Two dots that do not stand before a closing brace. -/
def startsDots : ByteString → Bool
  | 0x2e :: 0x2e :: rest => rest.head? ≠ some 0x7d
  | _ => false

/-- A comma, or two dots. -/
def separates (part : Part) (rest : Word) : Bool :=
  part = .literal 0x2c false ∨ (part = .literal 0x2e false ∧ startsDots (0x2e :: written rest))

/-- After an opening brace: what is in the braces, with something in no inner braces that
separates. -/
def inBraces (level : ℕ) (separated : Bool) : Word → Option Word
  | [] => none
  | part :: rest =>
    if part = .literal 0x7d false ∧ level = 0 ∧ separated then some []
    else
      (inBraces (levelAfter level part) (separated || (level = 0 && separates part rest)) rest).map
        (part :: ·)

/-- A blank, a line break, or an end of the text. -/
def isEdge (byte : Option UInt8) : Bool := byte.all fun byte => isBlank byte ∨ byte = newline

/-- What is in the braces that a part opens. After an edge, one that stands before an edge or a
closing brace opens none. -/
def opened (before : Option UInt8) (part : Part) (rest : Word) : Option Word :=
  let next := (written rest).head?
  if part = .literal 0x7b false ∧ ¬ (isEdge before ∧ (isEdge next ∨ next = some 0x7d)) then
    inBraces 0 false rest
  else none

/-- A comma that no backslash precedes. -/
def hasComma : ByteString → Bool
  | [] => false
  | 0x5c :: _ :: rest => hasComma rest
  | byte :: rest => byte = 0x2c ∨ hasComma rest

/-! ## Sequences -/

def intmaxMax : ℤ := 9223372036854775807

def intmaxMin : ℤ := -9223372036854775808

/-- White space before a number. -/
def isSpace (byte : UInt8) : Bool := byte = space ∨ (0x09 ≤ byte ∧ byte ≤ 0x0d)

/-- The number that a text starts with, and the rest; none when it is out of range. -/
def strtoimax (text : ByteString) : Option (ℤ × ByteString) :=
  let signed := text.dropWhile isSpace
  let number := if signed.head?.any (· ∈ ascii "+-") then signed.tail else signed
  let digits := number.takeWhile isDigit
  let value : ℤ := if signed.head? = some 0x2d then -decimal digits else decimal digits
  if digits = [] ∨ value < intmaxMin ∨ intmaxMax < value then none
  else some (value, number.dropWhile isDigit)

/-- An end of a sequence. -/
inductive Bound where
  | number (value : ℤ)
  | letter (byte : UInt8)
  deriving DecidableEq

/-- A text that is a number, or a letter. -/
def firstBound (text : ByteString) : Option Bound :=
  match text, strtoimax text with
  | _, some (value, rest) => if rest.all isBlank then some (.number value) else none
  | [byte], none => if isLetter byte then some (.letter byte) else none
  | _, none => none

/-- A text that starts with a number or a letter, and the rest. -/
def lastBound (text : ByteString) : Option (Bound × ByteString) :=
  match text with
  | [] => none
  | byte :: rest =>
    if isLetter byte then some (.letter byte, rest)
    else if isSpace byte then none
    else (strtoimax text).map fun found => (.number found.1, found.2)

/-- The increment of a sequence, which need not be written. -/
def increment (text : ByteString) : Option ℤ :=
  match text with
  | [] => some 1
  | 0x2e :: 0x2e :: rest => (strtoimax rest).bind fun found =>
    if found.2 = [] then some found.1 else none
  | _ => none

/-- The elements of a sequence can be counted. From zero to the least number bash's own arithmetic
overflows, and the sequence is regarded as one that is expanded. -/
def isCounted (first last increment : ℤ) : Bool :=
  let step := if increment = 0 then 1 else increment
  (first = 0 ∧ last = intmaxMin) ∨
    (¬ (first < last ∧ step = intmaxMin) ∧ ¬ (0 < first ∧ last - first < intmaxMin + 3) ∧
      ¬ (first < 0 ∧ intmaxMax - 2 < last - first) ∧
      (last - first).natAbs / step.natAbs ≤ 2147483644)

/-- Two numbers, or two letters, that bash goes between. -/
def isRange (step : ℤ) : Bound → Bound → Bool
  | .number first, .number last => isCounted first last step
  | .letter first, .letter last => isCounted first.toNat last.toNat step
  | _, _ => false

/-- The text before two dots, and the text after them. -/
def cutDots : ByteString → Option (ByteString × ByteString)
  | [] => none
  | 0x2e :: 0x2e :: rest => some ([], rest)
  | byte :: rest => (cutDots rest).map fun found => (byte :: found.1, found.2)

/-- A sequence that bash writes out. -/
def isSequence (text : ByteString) : Bool :=
  (cutDots text).any fun (left, right) =>
    (firstBound left).any fun first =>
      (lastBound right).any fun (last, rest) =>
        (increment rest).any fun step => isRange step first last

/-- Braces are expanded somewhere in the word, of which some parts are still passed over. -/
def hasBraces : Option UInt8 → ℕ → Word → Bool
  | _, _, [] => false
  | _, passed + 1, _ :: rest => hasBraces none passed rest
  | before, 0, part :: rest =>
    match opened before part rest with
    | some amble =>
      hasComma (written amble) ∨ isSequence (written amble) ∨
        hasBraces none (amble.length + 1) rest
    | none => hasBraces part.written.getLast? 0 rest

/-! ## Tildes -/

/-- After a tilde: nothing is quoted up to a slash, or up to a colon when `colons` is set. -/
def tildePrefix (colons : Bool) : Word → Bool
  | [] => true
  | .literal byte false :: rest =>
    byte = slash ∨ (colons ∧ byte = 0x3a) ∨ tildePrefix colons rest
  | _ => false

/-- A tilde of an assignment that is expanded: after a colon, or after the first equals sign, of
which none has been read before the part `before` when `unassigned` is set. -/
def hasAssignedTilde (unassigned : Bool) (before : Option Part) : Word → Bool
  | [] => false
  | part :: rest =>
    (part = .literal 0x7e false ∧ (before = some (.literal 0x3a false) ∨
        (unassigned ∧ before = some (.literal 0x3d false))) ∧ tildePrefix true rest) ∨
      hasAssignedTilde (unassigned ∧ before ≠ some (.literal 0x3d false)) (some part) rest

/-- A tilde is expanded: the first byte, or one of an assignment. -/
def hasTilde (word : Word) : Bool :=
  (word.head? = some (.literal 0x7e false) ∧ tildePrefix false word.tail) ∨
    (isAssignment word ∧ hasAssignedTilde true none word)

/-! ## File names -/

/-- A slash, which no set of bytes holds. -/
def Part.isSlash : Part → Bool
  | .literal byte _ => byte = slash
  | _ => false

/-- After an opening bracket: a set of bytes and the bracket that closes it. -/
def bracketSet (rest : Word) : Bool :=
  let rest := if rest.head?.any (Part.isBare (· ∈ ascii "!^")) then rest.tail else rest
  rest.head?.any (¬ ·.isSlash) ∧ (rest.tail.takeWhile (¬ ·.isSlash)).any (· = .literal 0x5d false)

/-- The bytes are regarded as a pattern of file names. -/
def hasGlob : Word → Bool
  | [] => false
  | part :: rest =>
    part.isBare (· ∈ ascii "*?") ∨ (part = .literal 0x5b false ∧ bracketSet rest) ∨ hasGlob rest

/-! ## The string of a word -/

/-- The commands that take their arguments for assignments, which are no patterns then. -/
def declarations : List ByteString :=
  ["alias", "declare", "export", "local", "readonly", "typeset"].map ascii

/-- The word of some bytes, none of them quoted. -/
def literals (text : ByteString) : Word := text.map fun byte => .literal byte false

/-- A command that declares variables. -/
def SimpleCommand.declares (command : SimpleCommand) : Bool :=
  command.words.head?.any fun word => declarations.any fun name => word = literals name

/-- No expansion of braces, tildes or file names changes the word. -/
def inert (declares : Bool) (word : Word) : Bool :=
  ¬ hasBraces none 0 word ∧ ¬ hasTilde word ∧
    (¬ hasGlob (word.filter Part.isLiteral) ∨ (declares ∧ isAssignment word))

/-- A part that is no substitution. -/
def Part.isFixed : Part → Bool
  | .substitution _ => false
  | _ => true

/-- The string that an argument of a command denotes whatever the environment is, when there is
one. -/
def string? (declares : Bool) (word : Word) : Option ByteString :=
  if word.all Part.isFixed ∧ inert declares word then some (bytes word) else none

end Shell
