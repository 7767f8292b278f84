import Mathlib.Data.List.Forall2
import RepoManager.Library.UrlPath

/-!
# The string form of LDAP search filters

The grammar of RFC 4515 over bytes, as a relation between a filter and a text that spells it, with
the attribute descriptions of RFC 4512. Lists of filters are what the relation speaks about, so one
induction covers the nesting. The grammar lets `a=*` be a presence test or a substring test with no
piece; as the RFC says, it is the presence test.

A total reader shows that no text spells two filters: it checks nothing, and reads back what the
grammar spells. Escaping any value yields a text that encodes it.
-/

open LexicalPath (takeWhile_ne_append dropWhile_ne_append)
open UrlPath (hexValue forall_byte)

namespace LdapFilter

/-- `LPAREN` -/
def leftParen : UInt8 := 0x28

/-- `RPAREN` -/
def rightParen : UInt8 := 0x29

/-- `ASTERISK` -/
def asterisk : UInt8 := 0x2a

/-- `ESC` -/
def escape : UInt8 := 0x5c

/-- `EQUALS` -/
def equals : UInt8 := 0x3d

/-- `COLON` -/
def colon : UInt8 := 0x3a

/-- `AMPERSAND` -/
def ampersand : UInt8 := 0x26

/-- `VERTBAR` -/
def verticalBar : UInt8 := 0x7c

/-- `EXCLAMATION` -/
def exclamation : UInt8 := 0x21

/-- `DOT` -/
def dot : UInt8 := 0x2e

/-- `SEMI` -/
def semicolon : UInt8 := 0x3b

/-- The comparison of a `simple` item. -/
inductive Comparison where
  | equal
  | approx
  | greaterOrEqual
  | lessOrEqual
  deriving DecidableEq

/-- What a `filtertype` writes before its `=`. -/
def Comparison.mark : Comparison → ByteString
  | .equal => []
  | .approx => [0x7e]
  | .greaterOrEqual => [0x3e]
  | .lessOrEqual => [0x3c]

/-- One test of an entry. The pieces of a substring test are what stands between its asterisks;
an extensible test keeps its attribute, `dn` flag and matching rule as written. -/
inductive Item where
  | simple (attr : ByteString) (comparison : Comparison) (value : ByteString)
  | present (attr : ByteString)
  | substring (attr : ByteString) (pieces : List ByteString)
  | extensible (subject value : ByteString)
  deriving DecidableEq

/-- A search filter. -/
inductive Filter where
  | and (filters : List Filter)
  | or (filters : List Filter)
  | not (filter : Filter)
  | item (item : Item)

/-! ## Attribute descriptions -/

/-- `ALPHA` -/
def isAlpha (byte : UInt8) : Bool :=
  (0x41 ≤ byte ∧ byte ≤ 0x5a) ∨ (0x61 ≤ byte ∧ byte ≤ 0x7a)

/-- `DIGIT` -/
def isDigit (byte : UInt8) : Bool := 0x30 ≤ byte ∧ byte ≤ 0x39

/-- `keychar` -/
def isKeyChar (byte : UInt8) : Bool := isAlpha byte ∨ isDigit byte ∨ byte = 0x2d

/-- `keystring` -/
def isKeyString : ByteString → Bool
  | [] => false
  | first :: rest => isAlpha first && rest.all isKeyChar

/-- `number` -/
def isNumber : ByteString → Bool
  | [] => false
  | [digit] => isDigit digit
  | first :: rest => isDigit first && first ≠ 0x30 && rest.all isDigit

/-- `numericoid` -/
def IsNumericOid (text : ByteString) : Prop :=
  ∃ (first : ByteString) (rest : List ByteString), isNumber first ∧ rest ≠ [] ∧
    (∀ number ∈ rest, isNumber number) ∧ text = first ++ rest.flatMap (dot :: ·)

/-- `oid` -/
def IsOid (text : ByteString) : Prop := isKeyString text ∨ IsNumericOid text

/-- `attributedescription` -/
def IsAttribute (text : ByteString) : Prop :=
  ∃ (type : ByteString) (options : List ByteString), IsOid type ∧
    (∀ option ∈ options, option ≠ [] ∧ option.all isKeyChar) ∧
    text = type ++ options.flatMap (semicolon :: ·)

/-- `dnattrs`, when present. The literal of the grammar is of either case. -/
def IsDnFlag (text : ByteString) : Prop :=
  text ∈ [ascii "", ascii ":dn", ascii ":dN", ascii ":Dn", ascii ":DN"]

/-- What an `extensible` item writes before its `:=`. -/
def IsSubject (text : ByteString) : Prop :=
  (∃ attr dn rule, IsAttribute attr ∧ IsDnFlag dn ∧ (rule = [] ∨ ∃ oid, IsOid oid ∧
    rule = colon :: oid) ∧ text = attr ++ dn ++ rule) ∨
  ∃ dn oid, IsDnFlag dn ∧ IsOid oid ∧ text = dn ++ colon :: oid

/-! ## Values -/

/-- `UTF1SUBSET` -/
def isNormal (byte : UInt8) : Bool :=
  (0x01 ≤ byte ∧ byte ≤ 0x27) ∨ (0x2b ≤ byte ∧ byte ≤ 0x5b) ∨ (0x5d ≤ byte ∧ byte ≤ 0x7f)

/-- `UTF0` -/
def isContinuation (byte : UInt8) : Bool := 0x80 ≤ byte ∧ byte ≤ 0xbf

/-- `UTFMB` -/
def isMultibyte : ByteString → Bool
  | [a, b] => 0xc2 ≤ a ∧ a ≤ 0xdf ∧ isContinuation b
  | [a, b, c] => isContinuation c ∧
      ((a = 0xe0 ∧ 0xa0 ≤ b ∧ b ≤ 0xbf) ∨ (0xe1 ≤ a ∧ a ≤ 0xec ∧ isContinuation b) ∨
        (a = 0xed ∧ 0x80 ≤ b ∧ b ≤ 0x9f) ∨ (0xee ≤ a ∧ a ≤ 0xef ∧ isContinuation b))
  | [a, b, c, d] => isContinuation c ∧ isContinuation d ∧
      ((a = 0xf0 ∧ 0x90 ≤ b ∧ b ≤ 0xbf) ∨ (0xf1 ≤ a ∧ a ≤ 0xf3 ∧ isContinuation b) ∨
        (a = 0xf4 ∧ 0x80 ≤ b ∧ b ≤ 0x8f))
  | _ => false

/-- The byte two hexadecimal digits stand for. -/
def hexByte (high low : UInt8) : Option UInt8 :=
  match hexValue high, hexValue low with
  | some high, some low => some (16 * high + low)
  | _, _ => none

/-- `valueencoding`: the text encodes the value. -/
inductive Encodes : ByteString → ByteString → Prop where
  | nil : Encodes [] []
  | normal {byte : UInt8} {value text : ByteString} (hbyte : isNormal byte)
      (rest : Encodes value text) : Encodes (byte :: value) (byte :: text)
  | multibyte {bytes value text : ByteString} (hbytes : isMultibyte bytes)
      (rest : Encodes value text) : Encodes (bytes ++ value) (bytes ++ text)
  | escaped {high low byte : UInt8} {value text : ByteString} (hbyte : hexByte high low = some byte)
      (rest : Encodes value text) : Encodes (byte :: value) (escape :: high :: low :: text)

/-! ## Items and filters -/

/-- `item`: the text spells the test. -/
inductive ItemText : Item → ByteString → Prop where
  | simple {attr value text : ByteString} (comparison : Comparison) (hattr : IsAttribute attr)
      (hvalue : Encodes value text) :
      ItemText (.simple attr comparison value) (attr ++ comparison.mark ++ equals :: text)
  | present {attr : ByteString} (hattr : IsAttribute attr) :
      ItemText (.present attr) (attr ++ equals :: [asterisk])
  | substring {attr : ByteString} {pieces texts : List ByteString} (hattr : IsAttribute attr)
      (hpieces : List.Forall₂ Encodes pieces texts) (hlength : 2 ≤ pieces.length)
      (hany : pieces ≠ [[], []]) :
      ItemText (.substring attr pieces) (attr ++ equals :: [asterisk].intercalate texts)
  | extensible {subject value text : ByteString} (hsubject : IsSubject subject)
      (hvalue : Encodes value text) :
      ItemText (.extensible subject value) (subject ++ colon :: equals :: text)

/-- The text spells the filters one after another. -/
inductive Spells : List Filter → ByteString → Prop where
  | nil : Spells [] []
  | and {filters others : List Filter} {text rest : ByteString} (hfilters : filters ≠ [])
      (inner : Spells filters text) (outer : Spells others rest) :
      Spells (.and filters :: others) (leftParen :: ampersand :: (text ++ rightParen :: rest))
  | or {filters others : List Filter} {text rest : ByteString} (hfilters : filters ≠ [])
      (inner : Spells filters text) (outer : Spells others rest) :
      Spells (.or filters :: others) (leftParen :: verticalBar :: (text ++ rightParen :: rest))
  | not {filter : Filter} {others : List Filter} {text rest : ByteString}
      (inner : Spells [filter] text) (outer : Spells others rest) :
      Spells (.not filter :: others) (leftParen :: exclamation :: (text ++ rightParen :: rest))
  | item {item : Item} {others : List Filter} {text rest : ByteString}
      (inner : ItemText item text) (outer : Spells others rest) :
      Spells (.item item :: others) (leftParen :: (text ++ rightParen :: rest))

/-- `filter`: the text spells this filter. -/
def FilterText (filter : Filter) (text : ByteString) : Prop := Spells [filter] text

/-! ## Reading a text back -/

/-- Undo the escapes of a value. -/
def decode : ByteString → ByteString
  | [] => []
  | byte :: rest =>
    if byte = escape then
      match rest with
      | high :: low :: rest => (hexByte high low).getD 0 :: decode rest
      | _ => []
    else byte :: decode rest

/-- What stands before the first `=`, and after it. -/
def splitEquals (text : ByteString) : ByteString × ByteString :=
  (text.takeWhile (· ≠ equals), (text.dropWhile (· ≠ equals)).tail)

/-- Read a test. -/
def readItem (text : ByteString) : Item :=
  let (left, right) := splitEquals text
  match left.getLast? with
  | some 0x7e => .simple left.dropLast .approx (decode right)
  | some 0x3e => .simple left.dropLast .greaterOrEqual (decode right)
  | some 0x3c => .simple left.dropLast .lessOrEqual (decode right)
  | some 0x3a => .extensible left.dropLast (decode right)
  | _ =>
    match right.splitOn asterisk with
    | [text] => .simple left .equal (decode text)
    | [[], []] => .present left
    | texts => .substring left (texts.map decode)

/-- The first filter, or an empty conjunction. -/
def firstFilter : List Filter → Filter
  | filter :: _ => filter
  | [] => .and []

/-- Read filters one after another, and return what is left. -/
def readFilters : Nat → ByteString → List Filter × ByteString
  | fuel + 1, first :: mark :: text =>
    if first ≠ leftParen then ([], first :: mark :: text)
    else
      let (filter, rest) :=
        if mark = ampersand then (readFilters fuel text).map Filter.and id
        else if mark = verticalBar then (readFilters fuel text).map Filter.or id
        else if mark = exclamation then (readFilters fuel text).map (.not ∘ firstFilter) id
        else (.item (readItem ((mark :: text).takeWhile (· ≠ rightParen))),
          (mark :: text).dropWhile (· ≠ rightParen))
      (readFilters fuel rest.tail).map (filter :: ·) id
  | _, text => ([], text)

/-- Read a filter. -/
def read (text : ByteString) : Filter := firstFilter (readFilters (text.length + 1) text).1

/-! ### What the grammar writes -/

/-- A byte of an attribute description. -/
def inAttribute (byte : UInt8) : Bool := isKeyChar byte ∨ byte = dot ∨ byte = semicolon

/-- A byte of the subject of an extensible test. -/
def inSubject (byte : UInt8) : Bool := inAttribute byte ∨ byte = colon

/-- Attribute descriptions are free of the marks of items and filters. -/
theorem inAttribute_ne (byte : UInt8) (h : inAttribute byte) :
    byte ≠ rightParen ∧ byte ≠ equals ∧
      byte ≠ 0x7e ∧ byte ≠ 0x3e ∧ byte ≠ 0x3c ∧ byte ≠ 0x3a := by
  revert h
  apply forall_byte byte
  decide +kernel

/-- Subjects are free of the marks of filters. -/
theorem inSubject_ne (byte : UInt8) (h : inSubject byte) :
    byte ≠ rightParen ∧ byte ≠ equals ∧
      byte ≠ ampersand ∧ byte ≠ verticalBar ∧ byte ≠ exclamation := by
  revert h
  apply forall_byte byte
  decide +kernel

/-- The bytes of an object identifier. -/
theorem IsOid.bytes {text : ByteString} (h : IsOid text) :
    text ≠ [] ∧ ∀ byte ∈ text, inAttribute byte := by
  have hdigit (byte : UInt8) : isDigit byte → inAttribute byte := by
    apply forall_byte byte
    decide +kernel
  have hnumber : ∀ number, isNumber number → number ≠ [] ∧ ∀ byte ∈ number, inAttribute byte := by
    intro number hnumber
    match number with
    | [digit] => simpa using hdigit digit hnumber
    | first :: next :: rest =>
      simp only [isNumber, Bool.and_eq_true, List.all_eq_true] at hnumber
      exact ⟨by simp, List.forall_mem_cons.mpr
        ⟨hdigit _ hnumber.1.1, fun byte hbyte => hdigit _ (hnumber.2 byte hbyte)⟩⟩
  rcases h with hkey | ⟨first, rest, hfirst, -, hrest, rfl⟩
  · have hkeyChar (byte : UInt8) (h : isAlpha byte ∨ isKeyChar byte) : inAttribute byte := by
      simp only [isKeyChar, inAttribute, decide_eq_true_eq] at h ⊢
      exact .inl (h.elim .inl id)
    match text with
    | first :: rest =>
      simp only [isKeyString, Bool.and_eq_true, List.all_eq_true] at hkey
      exact ⟨by simp, List.forall_mem_cons.mpr
        ⟨hkeyChar _ (.inl hkey.1), fun byte hbyte => hkeyChar _ (.inr (hkey.2 byte hbyte))⟩⟩
  · refine ⟨by simp [(hnumber first hfirst).1], fun byte hbyte => ?_⟩
    simp only [List.mem_append, List.mem_flatMap, List.mem_cons] at hbyte
    rcases hbyte with hbyte | ⟨number, hmem, rfl | hbyte⟩
    · exact (hnumber first hfirst).2 byte hbyte
    · decide
    · exact (hnumber number (hrest number hmem)).2 byte hbyte

/-- The bytes of an attribute description. -/
theorem IsAttribute.bytes {text : ByteString} (h : IsAttribute text) :
    text ≠ [] ∧ ∀ byte ∈ text, inAttribute byte := by
  obtain ⟨type, options, htype, hoptions, rfl⟩ := h
  refine ⟨by simp [htype.bytes.1], fun byte hbyte => ?_⟩
  simp only [List.mem_append, List.mem_flatMap, List.mem_cons] at hbyte
  rcases hbyte with hbyte | ⟨option, hmem, rfl | hbyte⟩
  · exact htype.bytes.2 byte hbyte
  · decide
  · have hkey : isKeyChar byte := List.all_eq_true.mp (hoptions option hmem).2 byte hbyte
    simp [inAttribute, hkey]

/-- The bytes of a subject. -/
theorem IsSubject.bytes {text : ByteString} (h : IsSubject text) :
    text ≠ [] ∧ ∀ byte ∈ text, inSubject byte := by
  have hflag : ∀ dn, IsDnFlag dn → ∀ byte ∈ dn, inSubject byte := by
    intro dn hdn
    simp only [IsDnFlag, List.mem_cons, List.not_mem_nil, or_false] at hdn
    rcases hdn with rfl | rfl | rfl | rfl | rfl <;> decide +kernel
  have hattr : ∀ byte, inAttribute byte → inSubject byte := fun byte h => by simp [inSubject, h]
  have hrule : ∀ oid, IsOid oid → ∀ byte ∈ colon :: oid, inSubject byte := by
    intro oid hoid
    exact List.forall_mem_cons.mpr ⟨by decide, fun byte h => hattr byte (hoid.bytes.2 byte h)⟩
  rcases h with ⟨attr, dn, rule, hattribute, hdn, hoid, rfl⟩ | ⟨dn, oid, hdn, hoid, rfl⟩
  · refine ⟨by simp [hattribute.bytes.1], fun byte hbyte => ?_⟩
    rcases List.mem_append.mp hbyte with hbyte | hbyte
    · rcases List.mem_append.mp hbyte with hbyte | hbyte
      · exact hattr byte (hattribute.bytes.2 byte hbyte)
      · exact hflag dn hdn byte hbyte
    · rcases hoid with rfl | ⟨oid, hoid, rfl⟩
      · simp at hbyte
      · exact hrule oid hoid byte hbyte
  · refine ⟨by simp, fun byte hbyte => ?_⟩
    rcases List.mem_append.mp hbyte with hbyte | hbyte
    · exact hflag dn hdn byte hbyte
    · exact hrule oid hoid byte hbyte

/-- The bytes of a multibyte character are above ASCII. -/
theorem isMultibyte_bytes {bytes : ByteString} (h : isMultibyte bytes) :
    ∀ byte ∈ bytes, 0x80 ≤ byte := by
  match bytes with
  | [a, b] => simp [isMultibyte, isContinuation] at h ⊢; grind
  | [a, b, c] => simp [isMultibyte, isContinuation] at h ⊢; grind
  | [a, b, c, d] => simp [isMultibyte, isContinuation] at h ⊢; grind

/-- A hexadecimal digit is none of the marks of a value. -/
theorem hexValue_ne (byte : UInt8) (h : hexValue byte ≠ none) :
    byte ≠ rightParen ∧ byte ≠ asterisk := by
  revert h
  apply forall_byte byte
  decide +kernel

/-- The bytes of an encoded value. -/
theorem Encodes.bytes {value text : ByteString} (h : Encodes value text) :
    ∀ byte ∈ text, byte ≠ rightParen ∧ byte ≠ asterisk := by
  induction h with
  | nil => simp
  | @normal byte value text hbyte rest ih =>
    refine List.forall_mem_cons.mpr ⟨?_, ih⟩
    constructor <;> rintro rfl <;> exact absurd hbyte (by decide)
  | @multibyte bytes value text hbytes rest ih =>
    intro byte hmem
    rcases List.mem_append.mp hmem with hmem | hmem
    · have hhigh := isMultibyte_bytes hbytes byte hmem
      constructor <;> rintro rfl <;> exact absurd hhigh (by decide)
    · exact ih byte hmem
  | @escaped high low byte value text hbyte rest ih =>
    simp only [hexByte] at hbyte
    refine List.forall_mem_cons.mpr ⟨by decide, List.forall_mem_cons.mpr
      ⟨hexValue_ne high fun hhigh => ?_, List.forall_mem_cons.mpr
        ⟨hexValue_ne low fun hlow => ?_, ih⟩⟩⟩
    · simp [hhigh] at hbyte
    · simp [hlow] at hbyte

/-- Every text of a list of encoded values encodes one of them. -/
theorem exists_encodes {pieces texts : List ByteString} (h : List.Forall₂ Encodes pieces texts)
    {text : ByteString} (hmem : text ∈ texts) : ∃ piece, Encodes piece text := by
  induction h with
  | nil => simp at hmem
  | cons hpiece _ ih =>
    rcases List.mem_cons.mp hmem with rfl | hmem
    · exact ⟨_, hpiece⟩
    · exact ih hmem

/-- An item begins with a byte of its attribute or rule, and does not close the filter. -/
theorem ItemText.bytes {item : Item} {text : ByteString} (h : ItemText item text) :
    (∃ first rest, text = first :: rest ∧ inSubject first) ∧ rightParen ∉ text := by
  have hhead : ∀ left right : ByteString, left ≠ [] → (∀ byte ∈ left, inSubject byte) →
      ∃ first rest, left ++ right = first :: rest ∧ inSubject first := by
    intro left right hleft hbytes
    cases left with
    | nil => exact absurd rfl hleft
    | cons first rest => exact ⟨first, rest ++ right, rfl, hbytes first List.mem_cons_self⟩
  have hattribute {attr : ByteString} (hattr : IsAttribute attr) :
      ∀ byte ∈ attr, inSubject byte := fun byte hbyte => by
    simp [inSubject, hattr.bytes.2 byte hbyte]
  have hplain {left : ByteString} (h : ∀ byte ∈ left, inSubject byte) : rightParen ∉ left :=
    fun hmem => (inSubject_ne _ (h _ hmem)).1 rfl
  have hvalue {value text : ByteString} (h : Encodes value text) : rightParen ∉ text :=
    fun hmem => (h.bytes _ hmem).1 rfl
  cases h with
  | @simple attr value text comparison hattr hencodes =>
    rw [List.append_assoc]
    refine ⟨hhead attr _ hattr.bytes.1 (hattribute hattr), ?_⟩
    have hmark : rightParen ∉ comparison.mark := by cases comparison <;> decide
    have hequals : rightParen ≠ equals := by decide
    simp [hplain (hattribute hattr), hmark, hequals, hvalue hencodes]
  | present hattr =>
    refine ⟨hhead _ _ hattr.bytes.1 (hattribute hattr), ?_⟩
    have hmarks : rightParen ∉ [equals, asterisk] := by decide
    simp [hplain (hattribute hattr), hmarks]
  | substring hattr hpieces hlength hany =>
    refine ⟨hhead _ _ hattr.bytes.1 (hattribute hattr), ?_⟩
    have hequals : rightParen ≠ equals := by decide
    simp only [List.mem_append, List.mem_cons, hplain (hattribute hattr), hequals, false_or]
    intro hmem
    rcases LexicalPath.mem_intercalate hmem with heq | ⟨text, htext, hmem⟩
    · exact absurd heq (by decide)
    · obtain ⟨piece, hencodes⟩ := exists_encodes hpieces htext
      exact hvalue hencodes hmem
  | extensible hsubject hencodes =>
    refine ⟨hhead _ _ hsubject.bytes.1 hsubject.bytes.2, ?_⟩
    have hmarks : rightParen ≠ colon ∧ rightParen ≠ equals := by decide
    simp [hplain hsubject.bytes.2, hmarks, hvalue hencodes]

/-! ### The reader reads what the grammar spells -/

/-- A byte that is no escape stands for itself. -/
theorem decode_cons_of_ne {byte : UInt8} (h : byte ≠ escape) (text : ByteString) :
    decode (byte :: text) = byte :: decode text := by
  cases text with
  | nil => simp [decode, h]
  | cons next text => cases text <;> simp [decode, h]

/-- Bytes that are no escapes stand for themselves. -/
theorem decode_append {bytes : ByteString} (h : escape ∉ bytes) (text : ByteString) :
    decode (bytes ++ text) = bytes ++ decode text := by
  induction bytes with
  | nil => rfl
  | cons byte bytes ih =>
    rw [List.mem_cons, not_or] at h
    rw [List.cons_append, decode_cons_of_ne (Ne.symm h.1), ih h.2, List.cons_append]

/-- An encoded value is decoded. -/
theorem Encodes.decode_eq {value text : ByteString} (h : Encodes value text) :
    decode text = value := by
  induction h with
  | nil => rfl
  | @normal byte value text hbyte rest ih =>
    have hescape : byte ≠ escape := by rintro rfl; exact absurd hbyte (by decide)
    rw [decode_cons_of_ne hescape, ih]
  | @multibyte bytes value text hbytes rest ih =>
    have hescape : escape ∉ bytes := fun hmem =>
      absurd (isMultibyte_bytes hbytes _ hmem) (by decide)
    rw [decode_append hescape, ih]
  | @escaped high low byte value text hbyte rest ih =>
    rw [decode, if_pos rfl, hbyte, Option.getD_some, ih]

/-- The first `=` of an item. -/
theorem splitEquals_append {left : ByteString} (h : equals ∉ left) (right : ByteString) :
    splitEquals (left ++ equals :: right) = (left, right) := by
  rw [splitEquals, takeWhile_ne_append h, dropWhile_ne_append h, List.tail_cons]

/-- What stands after an attribute and an `=` decides among equality, presence and substrings. -/
theorem readItem_attribute {attr : ByteString} (h : IsAttribute attr) (right : ByteString) :
    readItem (attr ++ equals :: right) =
      match right.splitOn asterisk with
      | [text] => .simple attr .equal (decode text)
      | [[], []] => .present attr
      | texts => .substring attr (texts.map decode) := by
  have hequals : equals ∉ attr := fun hmem => (inAttribute_ne _ (h.bytes.2 _ hmem)).2.1 rfl
  obtain ⟨-, -, htilde, hgreater, hless, hcolon⟩ :=
    inAttribute_ne _ (h.bytes.2 _ (List.getLast_mem h.bytes.1))
  rw [readItem, splitEquals_append hequals]
  simp only [List.getLast?_eq_some_getLast h.bytes.1]
  split
  · next heq => exact absurd (Option.some.inj heq) htilde
  · next heq => exact absurd (Option.some.inj heq) hgreater
  · next heq => exact absurd (Option.some.inj heq) hless
  · next heq => exact absurd (Option.some.inj heq) hcolon
  · rfl

/-- A test is read back. -/
theorem readItem_eq {item : Item} {text : ByteString} (h : ItemText item text) :
    readItem text = item := by
  have hattr {attr : ByteString} (h : IsAttribute attr) : equals ∉ attr :=
    fun hmem => (inAttribute_ne _ (h.bytes.2 _ hmem)).2.1 rfl
  have hvalue {value text : ByteString} (h : Encodes value text) : asterisk ∉ text :=
    fun hmem => (h.bytes _ hmem).2 rfl
  cases h with
  | @simple attr value text comparison hattribute hencodes =>
    cases comparison with
    | equal =>
      rw [Comparison.mark, List.append_nil, readItem_attribute hattribute,
        List.splitOn_eq_singleton (hvalue hencodes)]
      simp only [hencodes.decode_eq]
    | approx | greaterOrEqual | lessOrEqual =>
      rw [readItem, splitEquals_append
        (fun hmem => (List.mem_append.mp hmem).elim (hattr hattribute) (by decide))]
      simp [Comparison.mark, hencodes.decode_eq]
  | present hattribute => rw [readItem_attribute hattribute]; rfl
  | @substring attr pieces texts hattribute hpieces hlength hany =>
    have hsplit : ([asterisk].intercalate texts).splitOn asterisk = texts := by
      refine List.splitOn_intercalate asterisk (fun text hmem => ?_) ?_
      · obtain ⟨piece, hencodes⟩ := exists_encodes hpieces hmem
        exact hvalue hencodes
      · rintro rfl
        simp [hpieces.length_eq] at hlength
    have hdecode : texts.map decode = pieces := by
      clear hlength hany hsplit
      induction hpieces with
      | nil => rfl
      | cons hpiece _ ih => rw [List.map_cons, hpiece.decode_eq, ih]
    rw [readItem_attribute hattribute, hsplit, ← hdecode]
    split
    · simp [← hdecode] at hlength
    · exact absurd hdecode.symm hany
    · rfl
  | @extensible subject value text hsubject hencodes =>
    have hcolon : equals ∉ subject ++ [colon] := by
      rw [List.mem_append, not_or]
      exact ⟨fun hmem => (inSubject_ne _ (hsubject.bytes.2 _ hmem)).2.1 rfl, by decide⟩
    rw [List.append_cons, readItem, splitEquals_append hcolon]
    simp [colon, hencodes.decode_eq]

/-- No filter is left to read. -/
theorem readFilters_of_ne {text : ByteString} (h : text.head? ≠ some leftParen) (fuel : Nat) :
    readFilters fuel text = ([], text) := by
  match fuel, text with
  | 0, _ => rfl
  | fuel + 1, [] => rfl
  | fuel + 1, [_] => rfl
  | fuel + 1, first :: mark :: text =>
    have hfirst : first ≠ leftParen := fun heq => h (congrArg some heq)
    rw [readFilters, if_pos hfirst]

/-- A list of filters is read back, up to what follows it. -/
theorem Spells.readFilters_eq {filters : List Filter} {text : ByteString}
    (h : Spells filters text) (fuel : Nat) (hfuel : text.length < fuel) (rest : ByteString)
    (hrest : rest.head? ≠ some leftParen) :
    readFilters fuel (text ++ rest) = (filters, rest) := by
  induction h generalizing fuel rest with
  | nil => exact readFilters_of_ne hrest fuel
  | @and filters others text after _ _ _ ihInner ihOuter
  | @or filters others text after _ _ _ ihInner ihOuter
  | @not filter others text after _ _ ihInner ihOuter =>
    obtain ⟨fuel, rfl⟩ : ∃ n, fuel = n + 1 := ⟨fuel - 1, by omega⟩
    simp only [List.length_cons, List.length_append] at hfuel
    have hinner := ihInner fuel (by omega) (rightParen :: (after ++ rest)) (by simp; decide)
    have houter := ihOuter fuel (by omega) rest hrest
    have hmarks : verticalBar ≠ ampersand ∧ exclamation ≠ ampersand ∧ exclamation ≠ verticalBar := by
      decide
    simp [readFilters, hinner, houter, hmarks, firstFilter]
  | @item item others text after inner outer ihOuter =>
    obtain ⟨fuel, rfl⟩ : ∃ n, fuel = n + 1 := ⟨fuel - 1, by omega⟩
    simp only [List.length_cons, List.length_append] at hfuel
    obtain ⟨⟨first, tail, rfl, hfirst⟩, hclose⟩ := inner.bytes
    obtain ⟨-, -, hand, hor, hnot⟩ := inSubject_ne first hfirst
    have htake : (first :: (tail ++ rightParen :: (after ++ rest))).takeWhile (· ≠ rightParen) =
        first :: tail := takeWhile_ne_append hclose (after ++ rest)
    have hdrop : (first :: (tail ++ rightParen :: (after ++ rest))).dropWhile (· ≠ rightParen) =
        rightParen :: (after ++ rest) := dropWhile_ne_append hclose (after ++ rest)
    have houter := ihOuter fuel (by omega) rest hrest
    simp only [List.cons_append, List.append_assoc, readFilters, ne_eq, not_true_eq_false, if_false,
      if_neg hand, if_neg hor, if_neg hnot]
    rw [htake, hdrop, List.tail_cons, houter, readItem_eq inner]
    rfl

/-- A filter is read back from any text that spells it. -/
theorem FilterText.read_eq {filter : Filter} {text : ByteString} (h : FilterText filter text) :
    read text = filter := by
  have hread := Spells.readFilters_eq h (text.length + 1) (by omega) [] (by simp)
  rw [List.append_nil] at hread
  rw [read, hread, firstFilter]

/-- The grammar is unambiguous. -/
theorem FilterText.unique {filter filter' : Filter} {text : ByteString}
    (h : FilterText filter text) (h' : FilterText filter' text) : filter = filter' := by
  rw [← h.read_eq, h'.read_eq]

/-! ## Escaped values -/

/-- What a value does not hold as it is: what the grammar refuses, and all beyond ASCII. -/
def mustEscape (byte : UInt8) : Bool :=
  byte ∈ [leftParen, rightParen, asterisk, escape, 0x00] ∨ 0x7f < byte

/-- Replace every such byte by a backslash and two digits. -/
def escapeWith (digits : UInt8 → UInt8 × UInt8) (value : ByteString) : ByteString :=
  value.flatMap fun byte =>
    if mustEscape byte then [escape, (digits byte).1, (digits byte).2] else [byte]

/-- An escaped value encodes the value, whatever its bytes. -/
theorem encodes_escapeWith {digits : UInt8 → UInt8 × UInt8}
    (hdigits : ∀ byte, hexByte (digits byte).1 (digits byte).2 = some byte) (value : ByteString) :
    Encodes value (escapeWith digits value) := by
  have hnormal (byte : UInt8) : mustEscape byte = false → isNormal byte = true := by
    apply forall_byte byte
    decide +kernel
  induction value with
  | nil => exact .nil
  | cons byte value ih =>
    rw [escapeWith, List.flatMap_cons]
    cases hbyte : mustEscape byte with
    | true => exact .escaped (hdigits byte) ih
    | false => exact .normal (hnormal byte hbyte) ih

/-- The test that an attribute has a value. -/
def equality (attr value : ByteString) : Filter := .item (.simple attr .equal value)

/-- The text of such a test, its value encoded. -/
def equalityText (attr text : ByteString) : ByteString :=
  leftParen :: (attr ++ equals :: (text ++ [rightParen]))

/-- A test for equality before other filters. -/
theorem Spells.equality {attr value text : ByteString} (hattr : IsAttribute attr)
    (hvalue : Encodes value text) {others : List Filter} {rest : ByteString}
    (hothers : Spells others rest) :
    Spells (equality attr value :: others) (equalityText attr text ++ rest) := by
  have hitem := Spells.item (.simple .equal hattr hvalue) hothers
  simpa [equalityText, LdapFilter.equality, Comparison.mark] using hitem

/-- Tests of one attribute for the values of a list. -/
theorem spells_equalities {attr : ByteString} (hattr : IsAttribute attr)
    {encode : ByteString → ByteString} (hencode : ∀ value, Encodes value (encode value))
    (values : List ByteString) :
    Spells (values.map (equality attr))
      (values.flatMap fun value => equalityText attr (encode value)) := by
  induction values with
  | nil => exact .nil
  | cons value values ih => exact .equality hattr (hencode value) ih

end LdapFilter
