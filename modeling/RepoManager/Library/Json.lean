import RepoManager.Library.Utf8

/-!
# JSON texts

A reader of JSON texts, and the two ways in which this development meets written ones: the string
literals of an encoder that also escapes the characters of HTML, and `JSON.stringify`. A text is
UTF-8, and the strings that it denotes are kept as UTF-8, a lone surrogate like any other
character of its number.

`readString_pieces` is the rule for both writers. A writer that goes character by character is
read back when every character of it is.
-/

open Utf8

namespace Json

/-- A JSON value; a number is kept as it is written. -/
inductive Value where
  | null
  | bool (value : Bool)
  | number (text : ByteString)
  | string (text : ByteString)
  | array (items : List Value)
  | object (members : List (ByteString × Value))

/-- The byte `"`. -/
def quote : UInt8 := 0x22

/-- The byte `\`. -/
def backslash : UInt8 := 0x5c

/-- White space between tokens. -/
def isSpace (byte : UInt8) : Bool := byte = 0x20 ∨ byte = 0x09 ∨ byte = 0x0a ∨ byte = 0x0d

/-- The text after white space. -/
def skipSpace (text : ByteString) : ByteString := text.dropWhile isSpace

/-! ## Strings -/

/-- The value of a hexadecimal digit. -/
def hexValue (byte : UInt8) : Option ℕ :=
  if 0x30 ≤ byte ∧ byte ≤ 0x39 then some (byte.toNat - 0x30)
  else if 0x41 ≤ byte ∧ byte ≤ 0x46 then some (byte.toNat - 0x37)
  else if 0x61 ≤ byte ∧ byte ≤ 0x66 then some (byte.toNat - 0x57)
  else none

/-- The four digits of an escape. -/
def readUnit : ByteString → Option (ℕ × ByteString)
  | a :: b :: c :: d :: rest => do
    some (4096 * (← hexValue a) + 256 * (← hexValue b) + 16 * (← hexValue c) + (← hexValue d), rest)
  | _ => none

/-- The first half of a surrogate pair. -/
def isHigh (unit : ℕ) : Bool := 0xd800 ≤ unit ∧ unit < 0xdc00

/-- The second half of a surrogate pair. -/
def isLow (unit : ℕ) : Bool := 0xdc00 ≤ unit ∧ unit < 0xe000

/-- The second half of a pair, after the first. -/
def readLow : ByteString → Option (ℕ × ByteString)
  | 0x5c :: 0x75 :: rest => (readUnit rest).filter fun low => isLow low.1
  | _ => none

/-- What follows `\u`: a character, which two escapes may stand for together. -/
def readUnicode (text : ByteString) : Option (ByteString × ByteString) := do
  let (unit, rest) ← readUnit text
  match if isHigh unit then readLow rest else none with
  | some (low, rest) =>
    some (encodeRune (0x10000 + 1024 * (unit - 0xd800) + (low - 0xdc00)), rest)
  | none => some (encodeRune unit, rest)

/-- What follows a backslash. -/
def readEscape : ByteString → Option (ByteString × ByteString)
  | 0x22 :: rest => some ([0x22], rest)
  | 0x5c :: rest => some ([0x5c], rest)
  | 0x2f :: rest => some ([0x2f], rest)
  | 0x62 :: rest => some ([0x08], rest)
  | 0x66 :: rest => some ([0x0c], rest)
  | 0x6e :: rest => some ([0x0a], rest)
  | 0x72 :: rest => some ([0x0d], rest)
  | 0x74 :: rest => some ([0x09], rest)
  | 0x75 :: rest => readUnicode rest
  | _ => none

/-- One byte of a string that stands for itself, or one escape. -/
def readChar : ByteString → Option (ByteString × ByteString)
  | [] => none
  | byte :: rest =>
    if byte = backslash then readEscape rest
    else if byte < 0x20 then none
    else some ([byte], rest)

/-- A string after its opening quote, and what follows its closing one. -/
def readString : ℕ → ByteString → Option (ByteString × ByteString)
  | _, [] => none
  | 0, _ => none
  | fuel + 1, byte :: rest =>
    if byte = quote then some ([], rest)
    else do
      let (first, rest) ← readChar (byte :: rest)
      let (others, rest) ← readString fuel rest
      some (first ++ others, rest)

/-! ## Values -/

/-- Digits and what follows them. -/
def spanDigits (text : ByteString) : ByteString × ByteString :=
  text.span fun byte => 0x30 ≤ byte ∧ byte ≤ 0x39

/-- One digit or more, without a zero in front of others when `leading` is set. -/
def readDigits (leading : Bool) (text : ByteString) : Option (ByteString × ByteString) :=
  let (digits, rest) := spanDigits text
  if digits = [] ∨ (leading ∧ digits.head? = some 0x30 ∧ 1 < digits.length) then none
  else some (digits, rest)

/-- The fraction of a number, when there is one. -/
def readFraction : ByteString → Option (ByteString × ByteString)
  | 0x2e :: rest => (readDigits false rest).map fun (digits, rest) => (0x2e :: digits, rest)
  | text => some ([], text)

/-- The sign of an exponent, when there is one. -/
def readSign : ByteString → ByteString × ByteString
  | 0x2b :: rest => ([0x2b], rest)
  | 0x2d :: rest => ([0x2d], rest)
  | text => ([], text)

/-- The exponent of a number, when there is one. -/
def readExponent : ByteString → Option (ByteString × ByteString)
  | [] => some ([], [])
  | byte :: rest =>
    if byte = 0x65 ∨ byte = 0x45 then
      let (sign, rest) := readSign rest
      (readDigits false rest).map fun (digits, rest) => (byte :: sign ++ digits, rest)
    else some ([], byte :: rest)

/-- A number. -/
def readNumber (text : ByteString) : Option (ByteString × ByteString) := do
  let (sign, rest) := if text.head? = some 0x2d then ([0x2d], text.tail) else ([], text)
  let (whole, rest) ← readDigits true rest
  let (fraction, rest) ← readFraction rest
  let (exponent, rest) ← readExponent rest
  some (sign ++ whole ++ fraction ++ exponent, rest)

/-- A name without quotes, or a number. -/
def readAtom (text : ByteString) : Option (Value × ByteString) :=
  if ascii "null" <+: text then some (.null, text.drop 4)
  else if ascii "true" <+: text then some (.bool true, text.drop 4)
  else if ascii "false" <+: text then some (.bool false, text.drop 5)
  else (readNumber text).map fun (number, rest) => (.number number, rest)

/-- What follows the separator, when the token is this one. -/
def expect (byte : UInt8) (text : ByteString) : Option ByteString :=
  match skipSpace text with
  | head :: rest => if head = byte then some rest else none
  | [] => none

/-- The name of a member, with its quotes and the colon. -/
def readName (text : ByteString) : Option (ByteString × ByteString) := do
  let rest ← expect quote text
  let (name, rest) ← readString rest.length rest
  let rest ← expect 0x3a rest
  some (name, rest)

/-- Add a member; one of the same name is replaced in its place. -/
def setMember (members : List (ByteString × Value)) (member : ByteString × Value) :
    List (ByteString × Value) :=
  if members.any (·.1 = member.1) then
    members.map fun other => if other.1 = member.1 then member else other
  else members ++ [member]

mutual

/-- A value, and what follows it. -/
def readValue : ℕ → ByteString → Option (Value × ByteString)
  | 0, _ => none
  | fuel + 1, text =>
    match skipSpace text with
    | 0x22 :: rest => (readString rest.length rest).map fun (text, rest) => (.string text, rest)
    | 0x5b :: rest =>
      match expect 0x5d rest with
      | some rest => some (.array [], rest)
      | none => (readItems fuel rest).map fun (items, rest) => (.array items, rest)
    | 0x7b :: rest =>
      match expect 0x7d rest with
      | some rest => some (.object [], rest)
      | none => (readMembers fuel rest).map fun (members, rest) =>
        (.object (members.foldl setMember []), rest)
    | text => readAtom text

/-- The items of an array from one on, with the closing bracket. -/
def readItems : ℕ → ByteString → Option (List Value × ByteString)
  | 0, _ => none
  | fuel + 1, text => do
    let (item, rest) ← readValue fuel text
    match expect 0x2c rest with
    | some rest =>
      let (items, rest) ← readItems fuel rest
      some (item :: items, rest)
    | none =>
      let rest ← expect 0x5d rest
      some ([item], rest)

/-- The members of an object from one on, with the closing brace. -/
def readMembers : ℕ → ByteString → Option (List (ByteString × Value) × ByteString)
  | 0, _ => none
  | fuel + 1, text => do
    let (name, rest) ← readName text
    let (value, rest) ← readValue fuel rest
    match expect 0x2c rest with
    | some rest =>
      let (members, rest) ← readMembers fuel rest
      some ((name, value) :: members, rest)
    | none =>
      let rest ← expect 0x7d rest
      some ([(name, value)], rest)

end

/-- `JSON.parse`: the value of a text. -/
def parse (text : ByteString) : Option Value :=
  match readValue (2 * text.length + 1) text with
  | some (value, rest) => if skipSpace rest = [] then some value else none
  | none => none

/-- The value of a field. -/
def field (name : ByteString) : Value → Option Value
  | .object members => members.lookup name
  | _ => none

/-! ## Writers -/

/-- A hexadecimal digit. -/
def lowerHex (value : ℕ) : UInt8 :=
  if value < 10 then UInt8.ofNat (0x30 + value) else UInt8.ofNat (0x57 + value)

/-- The escape of a character by its number. -/
def unicodeEscape (unit : ℕ) : ByteString :=
  [backslash, 0x75, lowerHex (unit / 4096), lowerHex (unit / 256 % 16), lowerHex (unit / 16 % 16),
    lowerHex (unit % 16)]

/-- The ASCII bytes that `encoding/json` writes as they are, `htmlSafeSet`. -/
def htmlSafe (byte : UInt8) : Bool :=
  0x20 ≤ byte ∧ byte ≠ quote ∧ byte ≠ backslash ∧ byte ∉ ascii "<>&"

/-- An ASCII byte as `encoding/json` writes it. -/
def escapeByte (byte : UInt8) : ByteString :=
  if htmlSafe byte then [byte]
  else if byte = backslash ∨ byte = quote then [backslash, byte]
  else if byte = 0x0a then ascii "\\n"
  else if byte = 0x0d then ascii "\\r"
  else if byte = 0x09 then ascii "\\t"
  else unicodeEscape byte.toNat

/-- A character as `encoding/json` writes it. -/
def escapeRune (rune : Rune) : ByteString :=
  if rune.value < 0x80 then escapeByte (UInt8.ofNat rune.value)
  else if rune.Invalid then ascii "\\ufffd"
  else if rune.value = 0x2028 ∨ rune.value = 0x2029 then
    ascii "\\u202" ++ [lowerHex (rune.value % 16)]
  else rune.bytes

/-- A string as `encoding/json` writes it. -/
def encodeString (text : ByteString) : ByteString :=
  quote :: ((runes text).flatMap escapeRune ++ [quote])

/-- A byte of a string as `JSON.stringify` writes it. -/
def quoteByte (byte : UInt8) : ByteString :=
  if byte = backslash ∨ byte = quote then [backslash, byte]
  else if byte = 0x08 then ascii "\\b"
  else if byte = 0x09 then ascii "\\t"
  else if byte = 0x0a then ascii "\\n"
  else if byte = 0x0c then ascii "\\f"
  else if byte = 0x0d then ascii "\\r"
  else if byte < 0x20 then unicodeEscape byte.toNat
  else [byte]

/-- A string as `JSON.stringify` writes it, but for the escapes of lone surrogates. -/
def quoteJSONString (text : ByteString) : ByteString := quote :: (text.flatMap quoteByte ++ [quote])

section Stringify

variable (showNumber : ByteString → ByteString)

mutual

/-- `JSON.stringify`, given how a number is shown. -/
def stringify : Value → ByteString
  | .null => ascii "null"
  | .bool value => if value then ascii "true" else ascii "false"
  | .number text => showNumber text
  | .string text => quoteJSONString text
  | .array items => 0x5b :: ([0x2c].intercalate (stringifyItems items) ++ [0x5d])
  | .object members => 0x7b :: ([0x2c].intercalate (stringifyMembers members) ++ [0x7d])

/-- The texts of some items. -/
def stringifyItems : List Value → List ByteString
  | [] => []
  | item :: items => stringify item :: stringifyItems items

/-- The texts of some members. -/
def stringifyMembers : List (ByteString × Value) → List ByteString
  | [] => []
  | (name, value) :: members =>
    (quoteJSONString name ++ 0x3a :: stringify value) :: stringifyMembers members

end

end Stringify

/-! ## What is written is read back -/

/-- A text is read as a string up to its closing quote. -/
def Reads (text content rest : ByteString) : Prop :=
  ∀ fuel, text.length ≤ fuel → readString fuel text = some (content, rest)

/-- A piece of a string is read as this content, whatever follows. -/
def ReadsAs (piece content : ByteString) : Prop :=
  ∀ rest more tail, Reads rest more tail → Reads (piece ++ rest) (content ++ more) tail

/-- A closing quote ends the string. -/
theorem reads_quote (rest : ByteString) : Reads (quote :: rest) [] rest := by
  intro fuel hfuel
  obtain ⟨fuel, rfl⟩ : ∃ n, fuel = n + 1 := Nat.exists_eq_add_one.mpr (by simp at hfuel; omega)
  rw [readString, if_pos rfl]

/-- Nothing is read as nothing. -/
theorem readsAs_nil : ReadsAs [] [] := fun _ _ _ h => h

/-- Pieces are read one after the other. -/
theorem ReadsAs.append {left right first second : ByteString} (hleft : ReadsAs left first)
    (hright : ReadsAs right second) : ReadsAs (left ++ right) (first ++ second) := by
  intro rest more tail h
  rw [List.append_assoc, List.append_assoc]
  exact hleft _ _ _ (hright _ _ _ h)

/-- A writer that goes item by item is read back when every item is. -/
theorem readString_pieces {α : Type*} {items : List α} {piece content : α → ByteString}
    (h : ∀ item ∈ items, ReadsAs (piece item) (content item)) :
    ReadsAs (items.flatMap piece) (items.flatMap content) := by
  induction items with
  | nil => exact readsAs_nil
  | cons item items ih =>
    rw [List.flatMap_cons, List.flatMap_cons]
    exact (h item List.mem_cons_self).append
      (ih fun other hmem => h other (List.mem_cons_of_mem _ hmem))

/-- One step of the reader. -/
theorem readsAs_char {byte : UInt8} {piece content : ByteString} (hquote : byte ≠ quote)
    (h : ∀ rest, readChar (byte :: (piece ++ rest)) = some (content, rest)) :
    ReadsAs (byte :: piece) content := by
  intro rest more tail hrest fuel hfuel
  rw [List.cons_append, List.length_cons, List.length_append] at hfuel
  obtain ⟨fuel, rfl⟩ : ∃ n, fuel = n + 1 := Nat.exists_eq_add_one.mpr (by omega)
  rw [List.cons_append, readString, if_neg hquote, h]
  change (readString fuel rest).bind _ = _
  rw [hrest fuel (by omega)]
  rfl

/-- A byte that stands for itself. -/
theorem readsAs_byte {byte : UInt8} (hquote : byte ≠ quote) (hescape : byte ≠ backslash)
    (hcontrol : ¬ byte < 0x20) : ReadsAs [byte] [byte] :=
  readsAs_char hquote fun rest => by rw [readChar, if_neg hescape, if_neg hcontrol]; rfl

/-- An escape. -/
theorem readsAs_escape {piece content : ByteString}
    (h : ∀ rest, readEscape (piece ++ rest) = some (content, rest)) :
    ReadsAs (backslash :: piece) content :=
  readsAs_char (by decide) fun rest => by rw [readChar, if_pos rfl, h]

/-- A hexadecimal digit is read back. -/
theorem hexValue_lowerHex {value : ℕ} (h : value < 16) : hexValue (lowerHex value) = some value := by
  revert value
  decide +kernel

/-- The escape of a character that is no half of a pair. -/
theorem readsAs_unicodeEscape {unit : ℕ} (hunit : unit < 0x10000) (hhigh : isHigh unit = false) :
    ReadsAs (unicodeEscape unit) (encodeRune unit) := by
  refine readsAs_escape fun rest => ?_
  change readUnicode (lowerHex (unit / 4096) :: lowerHex (unit / 256 % 16) ::
    lowerHex (unit / 16 % 16) :: lowerHex (unit % 16) :: rest) = _
  have hdigits : readUnit (lowerHex (unit / 4096) :: lowerHex (unit / 256 % 16) ::
      lowerHex (unit / 16 % 16) :: lowerHex (unit % 16) :: rest) = some (unit, rest) := by
    rw [readUnit, hexValue_lowerHex (by omega), hexValue_lowerHex (by omega),
      hexValue_lowerHex (by omega), hexValue_lowerHex (by omega)]
    have hsum : 4096 * (unit / 4096) + 256 * (unit / 256 % 16) + 16 * (unit / 16 % 16) +
        unit % 16 = unit := by omega
    simp [hsum]
  rw [readUnicode, hdigits]
  simp [hhigh]

/-- Bytes that are not ASCII stand for themselves. -/
theorem readsAs_high {bytes : ByteString} (h : ∀ byte ∈ bytes, 0x80 ≤ byte.toNat) :
    ReadsAs bytes bytes := by
  have hbyte (byte : UInt8) (hmem : byte ∈ bytes) : ReadsAs [byte] [byte] := by
    have hhigh := h byte hmem
    refine readsAs_byte ?_ ?_ ?_
    · rintro rfl
      exact absurd hhigh (by decide)
    · rintro rfl
      exact absurd hhigh (by decide)
    · rw [UInt8.lt_iff_toNat_lt]
      change ¬ byte.toNat < 0x20
      omega
  have hpieces := readString_pieces hbyte
  rwa [List.flatMap_singleton'] at hpieces

/-- An escape of one letter. -/
theorem readsAs_letter (letter : UInt8) {piece : ByteString} {byte : UInt8}
    (hpiece : piece = [backslash, letter])
    (h : ∀ rest, readEscape (letter :: rest) = some ([byte], rest)) : ReadsAs piece [byte] := by
  subst hpiece
  exact readsAs_escape h

/-- An ASCII byte written by its number. -/
theorem readsAs_unicodeEscape_byte {byte : UInt8} (h : byte.toNat < 0x80) :
    ReadsAs (unicodeEscape byte.toNat) [byte] := by
  have hhigh : isHigh byte.toNat = false := by
    rw [isHigh, decide_eq_false_iff_not]
    omega
  have hread := readsAs_unicodeEscape (by omega) hhigh
  rwa [encodeRune, if_pos h, UInt8.ofNat_toNat] at hread

/-- A backslash and a quote are written after a backslash. -/
theorem readsAs_quoted {byte : UInt8} (hbyte : byte = backslash ∨ byte = quote) :
    ReadsAs [backslash, byte] [byte] := by
  rcases hbyte with rfl | rfl
  · exact readsAs_escape fun rest => rfl
  · exact readsAs_escape fun rest => rfl

/-- `encoding/json` writes every ASCII byte so that it is read back. -/
theorem readsAs_escapeByte {byte : UInt8} (h : byte.toNat < 0x80) :
    ReadsAs (escapeByte byte) [byte] := by
  unfold escapeByte
  split_ifs with hsafe hbyte hline hreturn htab
  · rw [htmlSafe, decide_eq_true_eq] at hsafe
    exact readsAs_byte hsafe.2.1 hsafe.2.2.1 (UInt8.not_lt.mpr hsafe.1)
  · exact readsAs_quoted hbyte
  · subst hline
    exact readsAs_letter 0x6e (by decide +kernel) fun rest => rfl
  · subst hreturn
    exact readsAs_letter 0x72 (by decide +kernel) fun rest => rfl
  · subst htab
    exact readsAs_letter 0x74 (by decide +kernel) fun rest => rfl
  · exact readsAs_unicodeEscape_byte h

/-- `encoding/json` writes every character so that it is read back, repaired when it is none. -/
theorem readsAs_escapeRune {text : ByteString} {rune : Rune} (hmem : rune ∈ runes text) :
    ReadsAs (escapeRune rune) rune.repaired := by
  by_cases hinvalid : rune.Invalid
  · have hascii : ¬ rune.value < 0x80 := by rw [hinvalid.1]; decide
    have hescape : ascii "\\ufffd" = unicodeEscape runeError := by decide +kernel
    rw [escapeRune, if_neg hascii, if_pos hinvalid, Rune.repaired, if_pos hinvalid, hescape]
    exact readsAs_unicodeEscape (by decide) (by decide)
  · rw [escapeRune, Rune.repaired, if_neg hinvalid, if_neg hinvalid]
    split
    · next hascii =>
      have hbyte : (UInt8.ofNat rune.value).toNat < 0x80 := by
        rw [UInt8.toNat_ofNat']
        omega
      rw [bytes_eq_encodeRune hmem hinvalid, encodeRune, if_pos hascii]
      exact readsAs_escapeByte hbyte
    · next hascii =>
      split
      · next hline =>
        rw [bytes_eq_encodeRune hmem hinvalid]
        rcases hline with hline | hline
        · have hescape : ascii "\\u202" ++ [lowerHex (0x2028 % 16)] = unicodeEscape 0x2028 := by
            decide +kernel
          rw [hline, hescape]
          exact readsAs_unicodeEscape (by decide) (by decide)
        · have hescape : ascii "\\u202" ++ [lowerHex (0x2029 % 16)] = unicodeEscape 0x2029 := by
            decide +kernel
          rw [hline, hescape]
          exact readsAs_unicodeEscape (by decide) (by decide)
      · exact readsAs_high (bytes_high hmem hinvalid hascii)

/-- `encoding/json` writes every character as a valid text. -/
theorem valid_escapeRune {text : ByteString} {rune : Rune} (hmem : rune ∈ runes text) :
    Valid (escapeRune rune) := by
  have hascii : ∀ value : Fin 128, ∀ byte ∈ escapeByte (UInt8.ofNat value), byte.toNat < 0x80 := by
    decide +kernel
  have hline : ∀ value : Fin 16, Valid (ascii "\\u202" ++ [lowerHex value]) := by decide +kernel
  rw [escapeRune]
  split
  · next hvalue => exact valid_of_ascii (hascii ⟨rune.value, hvalue⟩)
  · split
    · decide +kernel
    · next hinvalid =>
      split
      · exact hline ⟨rune.value % 16, Nat.mod_lt _ (by decide)⟩
      · exact valid_bytes hmem hinvalid

/-- What `encoding/json` writes for a string is a valid text. -/
theorem valid_encodeString (text : ByteString) : Valid (encodeString text) := by
  have hquote : Valid [quote] := by decide
  exact hquote.append ((valid_flatMap fun _ hmem => valid_escapeRune hmem).append hquote)

/-- `JSON.stringify` writes every byte so that it is read back. -/
theorem readsAs_quoteByte (byte : UInt8) : ReadsAs (quoteByte byte) [byte] := by
  unfold quoteByte
  split_ifs with hbyte hback htab hline hfeed hreturn hcontrol
  · exact readsAs_quoted hbyte
  · subst hback
    exact readsAs_letter 0x62 (by decide +kernel) fun rest => rfl
  · subst htab
    exact readsAs_letter 0x74 (by decide +kernel) fun rest => rfl
  · subst hline
    exact readsAs_letter 0x6e (by decide +kernel) fun rest => rfl
  · subst hfeed
    exact readsAs_letter 0x66 (by decide +kernel) fun rest => rfl
  · subst hreturn
    exact readsAs_letter 0x72 (by decide +kernel) fun rest => rfl
  · rw [UInt8.lt_iff_toNat_lt] at hcontrol
    change byte.toNat < 0x20 at hcontrol
    exact readsAs_unicodeEscape_byte (by omega)
  · obtain ⟨hescape, hquote⟩ := not_or.mp hbyte
    exact readsAs_byte hquote hescape hcontrol

/-- A text that is read as the string literal of a content. -/
def LiteralOf (text content : ByteString) : Prop :=
  ∃ body, text = quote :: (body ++ [quote]) ∧ ReadsAs body content

/-- What `encoding/json` writes for a string is a literal of it, with its bytes repaired. -/
theorem literalOf_encodeString (text : ByteString) :
    LiteralOf (encodeString text) (repaired text) :=
  ⟨_, rfl, readString_pieces fun _ hmem => readsAs_escapeRune hmem⟩

/-- What `JSON.stringify` writes for a string is a literal of it. -/
theorem literalOf_quoteJSONString (text : ByteString) : LiteralOf (quoteJSONString text) text := by
  refine ⟨_, rfl, ?_⟩
  have hread : ReadsAs (text.flatMap quoteByte) (text.flatMap fun byte => [byte]) :=
    readString_pieces fun byte _ => readsAs_quoteByte byte
  rwa [List.flatMap_singleton'] at hread

/-- A literal is read up to its end. -/
theorem LiteralOf.reads {text content : ByteString} (h : LiteralOf text content)
    (rest : ByteString) : ∃ body, text ++ rest = quote :: body ∧ Reads body content rest := by
  obtain ⟨body, rfl, hbody⟩ := h
  have hread := hbody (quote :: rest) [] rest (reads_quote rest)
  rw [List.append_nil] at hread
  exact ⟨body ++ quote :: rest, by simp, hread⟩

section Member

/-- The next token is this one. -/
theorem expect_eq {byte : UInt8} (h : isSpace byte = false) (rest : ByteString) :
    expect byte (byte :: rest) = some rest := by
  rw [expect, skipSpace, List.dropWhile_cons_of_neg (by simp [h])]
  exact if_pos rfl

/-- The next token is another one. -/
theorem expect_ne {byte head : UInt8} (h : isSpace head = false) (hne : head ≠ byte)
    (rest : ByteString) : expect byte (head :: rest) = none := by
  rw [expect, skipSpace, List.dropWhile_cons_of_neg (by simp [h])]
  exact if_neg hne

/-- A literal is a string value. -/
theorem readValue_literal {text content : ByteString} (h : LiteralOf text content) (fuel : ℕ)
    (rest : ByteString) : readValue (fuel + 1) (text ++ rest) = some (.string content, rest) := by
  obtain ⟨body, heq, hreads⟩ := h.reads rest
  have hspace : skipSpace (quote :: body) = 0x22 :: body :=
    List.dropWhile_cons_of_neg (by decide)
  rw [heq, readValue, hspace]
  simp only [hreads body.length (le_refl _), Option.map_some]

/-- A literal and a colon are the name of a member. -/
theorem readName_literal {text name : ByteString} (h : LiteralOf text name) (rest : ByteString) :
    readName (text ++ 0x3a :: rest) = some (name, rest) := by
  obtain ⟨body, heq, hreads⟩ := h.reads (0x3a :: rest)
  rw [heq, readName, expect_eq (by decide)]
  simp only [Option.bind_eq_bind, Option.bind_some, hreads body.length (le_refl _),
    expect_eq (show isSpace 0x3a = false by decide)]

/-- An object with one member that is a string. -/
theorem parse_member {nameText name text content space : ByteString}
    (hname : LiteralOf nameText name) (htext : LiteralOf text content)
    (hspace : skipSpace space = []) :
    parse (0x7b :: (nameText ++ 0x3a :: (text ++ 0x7d :: space))) =
      some (.object [(name, .string content)]) := by
  generalize hwhole : nameText ++ 0x3a :: (text ++ 0x7d :: space) = whole
  obtain ⟨fuel, hfuel⟩ : ∃ fuel, 2 * (0x7b :: whole).length + 1 = fuel + 3 := ⟨2 * whole.length, rfl⟩
  have hopen : skipSpace (0x7b :: whole) = 0x7b :: whole :=
    List.dropWhile_cons_of_neg (by decide)
  have hfirst : expect 0x7d whole = none := by
    obtain ⟨body, heq, -⟩ := hname.reads (0x3a :: (text ++ 0x7d :: space))
    rw [← hwhole, heq]
    exact expect_ne (by decide) (by decide) _
  have hmembers : readMembers (fuel + 2) whole = some ([(name, .string content)], space) := by
    rw [readMembers, ← hwhole, readName_literal hname]
    simp only [Option.bind_eq_bind, Option.bind_some, readValue_literal htext,
      expect_ne (show isSpace 0x7d = false by decide) (show (0x7d : UInt8) ≠ 0x2c by decide),
      expect_eq (show isSpace 0x7d = false by decide)]
  rw [parse, hfuel, readValue, hopen]
  simp only [hfirst, hmembers, Option.map_some, hspace, if_pos]
  rfl

end Member

end Json
