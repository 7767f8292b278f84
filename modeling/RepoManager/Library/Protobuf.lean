import Mathlib.Algebra.Order.Group.Nat
import RepoManager.Library.LexicalPath

/-!
# The wire format of protocol buffers

A message is a sequence of fields. A field is a varint tag, which holds its number and its wire
type, and a payload; a group is a sequence of tokens between two tags of its number. A reader that
does not know a number skips the field, whatever its wire type is.

`fields` is what a reader sees of a message. `fields_encode` reads every written sequence back,
and `fields_append` says that messages are concatenated field by field. What a message means is
read off its fields number by number, by `texts` and `numbers` and their last items.
-/

namespace Protobuf

/-! ## Varints -/

/-- A number in groups of seven bits, the lowest first, in at most so many bytes after the
first. -/
def varintUpTo : ℕ → ℕ → ByteString
  | 0, value => [UInt8.ofNat (value % 0x80)]
  | more + 1, value =>
    if value < 0x80 then [UInt8.ofNat value]
    else UInt8.ofNat (0x80 + value % 0x80) :: varintUpTo more (value / 0x80)

/-- A varint has at most ten bytes. -/
def encodeVarint (value : ℕ) : ByteString := varintUpTo 9 value

/-- A number of at most so many bytes after the first, and what follows it. -/
def readVarintUpTo : ℕ → ByteString → Option (ℕ × ByteString)
  | _, [] => none
  | 0, byte :: rest => if byte.toNat < 0x80 then some (byte.toNat, rest) else none
  | more + 1, byte :: rest =>
    if byte.toNat < 0x80 then some (byte.toNat, rest)
    else (readVarintUpTo more rest).map fun high =>
      (byte.toNat - 0x80 + 0x80 * high.1, high.2)

/-- The varint at the start of some bytes, and what follows it. -/
def readVarint (bytes : ByteString) : Option (ℕ × ByteString) := readVarintUpTo 9 bytes

/-- A number that fits is read as it was written. -/
theorem readVarintUpTo_varintUpTo (more value : ℕ) (h : value < 0x80 ^ (more + 1))
    (rest : ByteString) :
    readVarintUpTo more (varintUpTo more value ++ rest) = some (value, rest) := by
  induction more generalizing value with
  | zero =>
    have hbyte : (UInt8.ofNat (value % 0x80)).toNat = value := by
      rw [UInt8.toNat_ofNat']
      omega
    simp only [varintUpTo, List.cons_append, List.nil_append, readVarintUpTo, hbyte]
    rw [if_pos (by omega)]
  | succ more ih =>
    by_cases hsmall : value < 0x80
    · have hbyte : (UInt8.ofNat value).toNat = value := by
        rw [UInt8.toNat_ofNat']
        omega
      rw [varintUpTo, if_pos hsmall, List.cons_append, List.nil_append, readVarintUpTo, hbyte,
        if_pos hsmall]
    · have hbyte : (UInt8.ofNat (0x80 + value % 0x80)).toNat = 0x80 + value % 0x80 := by
        rw [UInt8.toNat_ofNat']
        omega
      have hhigh : value / 0x80 < 0x80 ^ (more + 1) := by
        rw [Nat.div_lt_iff_lt_mul (by decide)]
        exact h
      rw [varintUpTo, if_neg hsmall, List.cons_append, readVarintUpTo, hbyte, if_neg (by omega),
        ih _ hhigh, Option.map_some]
      simp only [Option.some.injEq, Prod.mk.injEq, and_true]
      omega

/-- A number below `2 ^ 64` is read as it was written. -/
theorem readVarint_encodeVarint {value : ℕ} (h : value < 2 ^ 64) (rest : ByteString) :
    readVarint (encodeVarint value ++ rest) = some (value, rest) :=
  readVarintUpTo_varintUpTo 9 value (h.trans_le (by decide)) rest

/-- Reading a number takes at least one byte. -/
theorem length_readVarintUpTo {more : ℕ} {bytes rest : ByteString} {value : ℕ}
    (h : readVarintUpTo more bytes = some (value, rest)) : rest.length < bytes.length := by
  induction more generalizing bytes value with
  | zero =>
    cases bytes with
    | nil => simp [readVarintUpTo] at h
    | cons byte tail =>
      simp only [readVarintUpTo] at h
      split at h
      · simp only [Option.some.injEq, Prod.mk.injEq] at h
        rw [← h.2]
        simp
      · cases h
  | succ more ih =>
    cases bytes with
    | nil => simp [readVarintUpTo] at h
    | cons byte tail =>
      simp only [readVarintUpTo] at h
      split at h
      · simp only [Option.some.injEq, Prod.mk.injEq] at h
        rw [← h.2]
        simp
      · obtain ⟨⟨high, after⟩, hhigh, heq⟩ := Option.map_eq_some_iff.mp h
        simp only [Prod.mk.injEq] at heq
        obtain ⟨-, rfl⟩ := heq
        exact (ih hhigh).trans (by simp)

/-- A varint has at least one byte. -/
theorem length_encodeVarint_pos (value : ℕ) : 0 < (encodeVarint value).length := by
  unfold encodeVarint varintUpTo
  split <;> simp

/-! ## Tokens -/

/-- The payload of a field that is no group. -/
inductive Value where
  | varint (value : ℕ)
  | fixed64 (content : ByteString)
  | bytes (content : ByteString)
  | fixed32 (content : ByteString)
  deriving DecidableEq

/-- What one tag introduces. -/
inductive Token where
  | field (number : ℕ) (value : Value)
  | startGroup (number : ℕ)
  | endGroup (number : ℕ)
  deriving DecidableEq

/-- The tag of a field number and a wire type. -/
def tag (number wireType : ℕ) : ByteString := encodeVarint (8 * number + wireType)

/-- The bytes of a token. -/
def Token.encode : Token → ByteString
  | .field number (.varint value) => tag number 0 ++ encodeVarint value
  | .field number (.fixed64 content) => tag number 1 ++ content
  | .field number (.bytes content) => tag number 2 ++ (encodeVarint content.length ++ content)
  | .startGroup number => tag number 3
  | .endGroup number => tag number 4
  | .field number (.fixed32 content) => tag number 5 ++ content

/-- So many bytes, and what follows them. -/
def readCount (count : ℕ) (bytes : ByteString) : Option (ByteString × ByteString) :=
  if count ≤ bytes.length then some (bytes.take count, bytes.drop count) else none

/-- The token of a field number and a wire type, and what follows it. -/
def readPayload (number : ℕ) : ℕ → ByteString → Option (Token × ByteString)
  | 0, bytes => (readVarint bytes).map fun read => (.field number (.varint read.1), read.2)
  | 1, bytes => (readCount 8 bytes).map fun read => (.field number (.fixed64 read.1), read.2)
  | 2, bytes =>
    (readVarint bytes).bind fun count =>
      (readCount count.1 count.2).map fun read => (.field number (.bytes read.1), read.2)
  | 3, bytes => some (.startGroup number, bytes)
  | 4, bytes => some (.endGroup number, bytes)
  | 5, bytes => (readCount 4 bytes).map fun read => (.field number (.fixed32 read.1), read.2)
  | _, _ => none

/-- The token at the start of some bytes, and what follows it. -/
def readToken (bytes : ByteString) : Option (Token × ByteString) :=
  (readVarint bytes).bind fun tag => readPayload (tag.1 / 8) (tag.1 % 8) tag.2

/-- What a writer can write as a payload. -/
def Value.Writable : Value → Prop
  | .varint value => value < 2 ^ 64
  | .fixed64 content => content.length = 8
  | .bytes content => content.length < 2 ^ 64
  | .fixed32 content => content.length = 4

/-- What a writer can write as a field number. -/
def WritableNumber (number : ℕ) : Prop := number < 2 ^ 29

/-- What a writer can write as a token. -/
def Token.Writable : Token → Prop
  | .field number value => WritableNumber number ∧ value.Writable
  | .startGroup number => WritableNumber number
  | .endGroup number => WritableNumber number

/-- A tag is read as it was written. -/
theorem readToken_tag {number wireType : ℕ} (hnumber : WritableNumber number)
    (hwire : wireType < 8) (rest : ByteString) :
    readToken (tag number wireType ++ rest) = readPayload number wireType rest := by
  unfold WritableNumber at hnumber
  have hdiv : (8 * number + wireType) / 8 = number := by omega
  have hmod : (8 * number + wireType) % 8 = wireType := by omega
  rw [readToken, tag, readVarint_encodeVarint (by omega), Option.bind_some, hdiv, hmod]

/-- Bytes are read as they were written. -/
theorem readCount_append (content rest : ByteString) :
    readCount content.length (content ++ rest) = some (content, rest) := by
  rw [readCount, if_pos (by simp), List.take_left, List.drop_left]

/-- A token is read as it was written. -/
theorem readToken_encode {token : Token} (h : token.Writable) (rest : ByteString) :
    readToken (token.encode ++ rest) = some (token, rest) := by
  cases token with
  | startGroup number => exact readToken_tag h (by decide) rest
  | endGroup number => exact readToken_tag h (by decide) rest
  | field number value =>
    obtain ⟨hnumber, hvalue⟩ := h
    cases value with
    | varint value =>
      rw [Token.encode, List.append_assoc, readToken_tag hnumber (by decide), readPayload,
        readVarint_encodeVarint hvalue, Option.map_some]
    | fixed64 content =>
      have hlength : content.length = 8 := hvalue
      rw [Token.encode, List.append_assoc, readToken_tag hnumber (by decide), readPayload,
        ← hlength, readCount_append, Option.map_some]
    | bytes content =>
      rw [Token.encode, List.append_assoc, readToken_tag hnumber (by decide), readPayload,
        List.append_assoc, readVarint_encodeVarint hvalue, Option.bind_some, readCount_append,
        Option.map_some]
    | fixed32 content =>
      have hlength : content.length = 4 := hvalue
      rw [Token.encode, List.append_assoc, readToken_tag hnumber (by decide), readPayload,
        ← hlength, readCount_append, Option.map_some]

/-- Counted bytes come from what is read. -/
theorem length_readCount {count : ℕ} {bytes content rest : ByteString}
    (h : readCount count bytes = some (content, rest)) : rest.length ≤ bytes.length := by
  unfold readCount at h
  split at h
  · simp only [Option.some.injEq, Prod.mk.injEq] at h
    rw [← h.2, List.length_drop]
    omega
  · cases h

/-- What follows a payload comes from what is read. -/
theorem length_readPayload {number wireType : ℕ} {bytes rest : ByteString} {token : Token}
    (h : readPayload number wireType bytes = some (token, rest)) : rest.length ≤ bytes.length := by
  unfold readPayload at h
  split at h
  · obtain ⟨⟨value, after⟩, hvalue, heq⟩ := Option.map_eq_some_iff.mp h
    obtain ⟨-, rfl⟩ := Prod.mk.inj heq
    exact (length_readVarintUpTo hvalue).le
  · obtain ⟨⟨content, after⟩, hcontent, heq⟩ := Option.map_eq_some_iff.mp h
    obtain ⟨-, rfl⟩ := Prod.mk.inj heq
    exact length_readCount hcontent
  · obtain ⟨⟨count, middle⟩, hcount, hread⟩ := Option.bind_eq_some_iff.mp h
    obtain ⟨⟨content, after⟩, hcontent, heq⟩ := Option.map_eq_some_iff.mp hread
    obtain ⟨-, rfl⟩ := Prod.mk.inj heq
    exact (length_readCount hcontent).trans (length_readVarintUpTo hcount).le
  · obtain ⟨-, rfl⟩ := Prod.mk.inj (Option.some.inj h)
    exact le_rfl
  · obtain ⟨-, rfl⟩ := Prod.mk.inj (Option.some.inj h)
    exact le_rfl
  · obtain ⟨⟨content, after⟩, hcontent, heq⟩ := Option.map_eq_some_iff.mp h
    obtain ⟨-, rfl⟩ := Prod.mk.inj heq
    exact length_readCount hcontent
  · cases h

/-- Reading a token takes at least one byte. -/
theorem length_readToken {bytes rest : ByteString} {token : Token}
    (h : readToken bytes = some (token, rest)) : rest.length < bytes.length := by
  obtain ⟨⟨tag, after⟩, htag, hpayload⟩ := Option.bind_eq_some_iff.mp h
  exact (length_readPayload hpayload).trans_lt (length_readVarintUpTo htag)

/-- The content of a length-delimited field and what follows it come from what is read. -/
theorem length_readToken_bytes {bytes content rest : ByteString} {number : ℕ}
    (h : readToken bytes = some (.field number (.bytes content), rest)) :
    content.length + rest.length < bytes.length := by
  obtain ⟨⟨tag, after⟩, htag, hpayload⟩ := Option.bind_eq_some_iff.mp h
  have hafter := length_readVarintUpTo htag
  simp only at hpayload hafter
  unfold readPayload at hpayload
  split at hpayload
  · simp at hpayload
  · simp at hpayload
  · obtain ⟨⟨count, middle⟩, hcount, hread⟩ := Option.bind_eq_some_iff.mp hpayload
    obtain ⟨⟨found, last⟩, hfound, heq⟩ := Option.map_eq_some_iff.mp hread
    simp only [Prod.mk.injEq, Token.field.injEq, Value.bytes.injEq] at heq
    obtain ⟨⟨-, rfl⟩, rfl⟩ := heq
    have hmiddle := length_readVarintUpTo hcount
    unfold readCount at hfound
    split at hfound
    · simp only [Option.some.injEq, Prod.mk.injEq] at hfound
      rw [← hfound.1, ← hfound.2, List.length_take, List.length_drop]
      omega
    · cases hfound
  · simp at hpayload
  · simp at hpayload
  · simp at hpayload
  · cases hpayload

/-- A token has at least one byte. -/
theorem length_encode_pos (token : Token) : 0 < token.encode.length := by
  cases token with
  | startGroup number => exact length_encodeVarint_pos _
  | endGroup number => exact length_encodeVarint_pos _
  | field number value =>
    cases value with
    | varint value =>
      rw [Token.encode, List.length_append]
      exact Nat.add_pos_left (length_encodeVarint_pos _) _
    | fixed64 content =>
      rw [Token.encode, List.length_append]
      exact Nat.add_pos_left (length_encodeVarint_pos _) _
    | bytes content =>
      rw [Token.encode, List.length_append]
      exact Nat.add_pos_left (length_encodeVarint_pos _) _
    | fixed32 content =>
      rw [Token.encode, List.length_append]
      exact Nat.add_pos_left (length_encodeVarint_pos _) _

/-! ## Groups -/

/-- Tokens in which every group that is opened is closed. -/
inductive Nested : List Token → Prop where
  | nil : Nested []
  | field (number : ℕ) (value : Value) {rest : List Token} (hrest : Nested rest) :
    Nested (.field number value :: rest)
  | group (number : ℕ) {content rest : List Token} (hcontent : Nested content)
    (hrest : Nested rest) :
    Nested (.startGroup number :: (content ++ .endGroup number :: rest))

/-- Skip to the end of the open groups, the innermost first, in at most so many tokens. -/
def skipGroupsUpTo : ℕ → List ℕ → ByteString → Option ByteString
  | _, [], bytes => some bytes
  | 0, _ :: _, _ => none
  | fuel + 1, number :: outer, bytes =>
    match readToken bytes with
    | none => none
    | some (.field _ _, rest) => skipGroupsUpTo fuel (number :: outer) rest
    | some (.startGroup inner, rest) => skipGroupsUpTo fuel (inner :: number :: outer) rest
    | some (.endGroup last, rest) =>
      if last = number then skipGroupsUpTo fuel outer rest else none

/-- Skip the rest of a group with this number. -/
def skipGroup (number : ℕ) (bytes : ByteString) : Option ByteString :=
  skipGroupsUpTo bytes.length [number] bytes

/-- The bytes of some tokens. -/
def encodeTokens (tokens : List Token) : ByteString := tokens.flatMap Token.encode

/-- There are no more tokens than bytes. -/
theorem length_le_length_encodeTokens (tokens : List Token) :
    tokens.length ≤ (encodeTokens tokens).length := by
  induction tokens with
  | nil => exact le_rfl
  | cons token rest ih =>
    have hpos := length_encode_pos token
    simp only [encodeTokens, List.flatMap_cons, List.length_append, List.length_cons] at ih ⊢
    omega

/-- Inside of a group, complete content is skipped token by token. -/
theorem skipGroupsUpTo_nested {content : List Token} (h : Nested content)
    (hwritable : ∀ token ∈ content, token.Writable) (fuel number : ℕ) (outer : List ℕ)
    (rest : ByteString) :
    skipGroupsUpTo (content.length + fuel) (number :: outer) (encodeTokens content ++ rest) =
      skipGroupsUpTo fuel (number :: outer) rest := by
  induction h generalizing fuel number outer rest with
  | nil => simp [encodeTokens]
  | field inner value hrest ih =>
    obtain ⟨hhead, htail⟩ := List.forall_mem_cons.mp hwritable
    rw [List.length_cons, Nat.add_right_comm, encodeTokens, List.flatMap_cons, List.append_assoc,
      skipGroupsUpTo, readToken_encode hhead]
    exact ih htail fuel number outer rest
  | @group inner content after hcontent hafter ihcontent ihafter =>
    obtain ⟨hstart, hothers⟩ := List.forall_mem_cons.mp hwritable
    obtain ⟨hinside, hothers⟩ := List.forall_mem_append.mp hothers
    obtain ⟨hend, houtside⟩ := List.forall_mem_cons.mp hothers
    have hfuel : (Token.startGroup inner :: (content ++ .endGroup inner :: after)).length + fuel =
        content.length + (after.length + fuel + 1) + 1 := by
      simp only [List.length_cons, List.length_append]
      omega
    have hbytes : encodeTokens (.startGroup inner :: (content ++ .endGroup inner :: after)) ++ rest =
        (Token.startGroup inner).encode ++ (encodeTokens content ++
          ((Token.endGroup inner).encode ++ (encodeTokens after ++ rest))) := by
      simp [encodeTokens]
    rw [hfuel, hbytes, skipGroupsUpTo, readToken_encode hstart]
    simp only
    rw [ihcontent hinside, skipGroupsUpTo, readToken_encode hend]
    simp only [if_true]
    exact ihafter houtside fuel number outer rest

/-- A group is skipped up to its end. -/
theorem skipGroup_encode {content : List Token} (h : Nested content)
    (hwritable : ∀ token ∈ content, token.Writable) {number : ℕ}
    (hnumber : WritableNumber number) (rest : ByteString) :
    skipGroup number (encodeTokens content ++ ((Token.endGroup number).encode ++ rest)) =
      some rest := by
  have hlength := length_le_length_encodeTokens content
  have hpos := length_encode_pos (.endGroup number)
  obtain ⟨fuel, hfuel⟩ : ∃ fuel, (encodeTokens content ++
      ((Token.endGroup number).encode ++ rest)).length = content.length + (fuel + 1) := by
    refine ⟨(encodeTokens content ++ ((Token.endGroup number).encode ++ rest)).length -
      content.length - 1, ?_⟩
    simp only [List.length_append]
    omega
  have hend : (Token.endGroup number).Writable := hnumber
  rw [skipGroup, hfuel, skipGroupsUpTo_nested h hwritable, skipGroupsUpTo, readToken_encode hend]
  simp [skipGroupsUpTo]

/-- What follows a group comes from what is read. -/
theorem length_skipGroupsUpTo {fuel : ℕ} {stack : List ℕ} {bytes rest : ByteString}
    (h : skipGroupsUpTo fuel stack bytes = some rest) : rest.length ≤ bytes.length := by
  induction fuel generalizing stack bytes with
  | zero =>
    cases stack with
    | nil =>
      obtain rfl := Option.some.inj h
      exact le_rfl
    | cons number outer => cases h
  | succ fuel ih =>
    cases stack with
    | nil =>
      obtain rfl := Option.some.inj h
      exact le_rfl
    | cons number outer =>
      rw [skipGroupsUpTo] at h
      split at h
      · cases h
      next hread => exact (ih h).trans (length_readToken hread).le
      next hread => exact (ih h).trans (length_readToken hread).le
      next hread =>
        split at h
        · exact (ih h).trans (length_readToken hread).le
        · cases h

/-! ## Messages -/

/-- A field as a reader sees it; the content of a group is skipped. -/
structure Field where
  number : ℕ
  value : Option Value
  deriving DecidableEq

/-- The fields of a message, of which there are at most so many: up to the end of the bytes or
to the end of an enclosing group. -/
def fieldsUpTo : ℕ → ByteString → Option (List Field)
  | _, [] => some []
  | 0, _ :: _ => none
  | fuel + 1, bytes =>
    match readToken bytes with
    | none => none
    | some (.endGroup _, _) => some []
    | some (.field number value, rest) =>
      (fieldsUpTo fuel rest).map (⟨number, some value⟩ :: ·)
    | some (.startGroup number, rest) =>
      (skipGroup number rest).bind fun rest => (fieldsUpTo fuel rest).map (⟨number, none⟩ :: ·)

/-- The fields of a message in the order in which they are read. -/
def fields (bytes : ByteString) : Option (List Field) := fieldsUpTo bytes.length bytes

/-- Counting further than there are bytes makes no difference. -/
theorem fieldsUpTo_congr {fuel other : ℕ} {bytes : ByteString} (hfuel : bytes.length ≤ fuel)
    (hother : bytes.length ≤ other) : fieldsUpTo fuel bytes = fieldsUpTo other bytes := by
  induction fuel generalizing other bytes with
  | zero =>
    obtain rfl := List.length_eq_zero_iff.mp (Nat.le_zero.mp hfuel)
    cases other <;> rfl
  | succ fuel ih =>
    cases bytes with
    | nil => cases other <;> rfl
    | cons byte rest =>
      cases other with
      | zero => simp at hother
      | succ other =>
        simp only [fieldsUpTo]
        cases hread : readToken (byte :: rest) with
        | none => rfl
        | some read =>
          obtain ⟨token, after⟩ := read
          have hlength := length_readToken hread
          have hafter (last : ByteString) (hlast : last.length ≤ after.length) :
              fieldsUpTo fuel last = fieldsUpTo other last := ih (by omega) (by omega)
          cases token with
          | endGroup number => rfl
          | field number value => simp only [hafter after le_rfl]
          | startGroup number =>
            cases hskip : skipGroup number after with
            | none => simp only [hskip, Option.bind_none]
            | some last =>
              simp only [hskip, Option.bind_some, hafter last (length_skipGroupsUpTo hskip)]

/-- The empty message has no fields. -/
@[simp]
theorem fields_nil : fields [] = some [] := rfl

/-- A message that begins with a field. -/
theorem fields_of_field {bytes rest : ByteString} {number : ℕ} {value : Value}
    (h : readToken bytes = some (.field number value, rest)) :
    fields bytes = (fields rest).map (⟨number, some value⟩ :: ·) := by
  have hlength := length_readToken h
  cases bytes with
  | nil => simp at hlength
  | cons byte tail =>
    have hrest : rest.length ≤ tail.length := Nat.le_of_lt_succ hlength
    simp only [fields, List.length_cons, fieldsUpTo, h, fieldsUpTo_congr hrest le_rfl]

/-- A message that begins with a group. -/
theorem fields_of_startGroup {bytes rest : ByteString} {number : ℕ}
    (h : readToken bytes = some (.startGroup number, rest)) {after : ByteString}
    (hskip : skipGroup number rest = some after) :
    fields bytes = (fields after).map (⟨number, none⟩ :: ·) := by
  have hlength := length_readToken h
  have hskipped := length_skipGroupsUpTo hskip
  cases bytes with
  | nil => simp at hlength
  | cons byte tail =>
    have hafter : after.length ≤ tail.length := hskipped.trans (Nat.le_of_lt_succ hlength)
    simp only [fields, List.length_cons, fieldsUpTo, h, hskip, Option.bind_some,
      fieldsUpTo_congr hafter le_rfl]

/-- A field or a group as it is written. -/
inductive Item where
  | plain (number : ℕ) (value : Value)
  | group (number : ℕ) (content : List Token)

namespace Item

/-- The number of an item. -/
def number : Item → ℕ
  | .plain number _ => number
  | .group number _ => number

/-- The bytes of an item. -/
def encode : Item → ByteString
  | .plain number value => (Token.field number value).encode
  | .group number content =>
    (Token.startGroup number).encode ++ (encodeTokens content ++ (Token.endGroup number).encode)

/-- What a reader sees of an item. -/
def field : Item → Field
  | .plain number value => ⟨number, some value⟩
  | .group number _ => ⟨number, none⟩

/-- What a writer can write as an item. -/
def Writable : Item → Prop
  | .plain number value => WritableNumber number ∧ value.Writable
  | .group number content =>
    WritableNumber number ∧ Nested content ∧ ∀ token ∈ content, token.Writable

/-- The number of an item is the number of its field. -/
@[simp]
theorem number_field (item : Item) : item.field.number = item.number := by
  cases item with
  | plain number value => rfl
  | group number content => rfl

/-- An item is read as one field. -/
theorem fields_encode_append {item : Item} (h : item.Writable) (rest : ByteString) :
    fields (item.encode ++ rest) = (fields rest).map (item.field :: ·) := by
  cases item with
  | plain number value =>
    have htoken : (Token.field number value).Writable := h
    exact fields_of_field (readToken_encode htoken rest)
  | group number content =>
    obtain ⟨hnumber, hnested, hcontent⟩ := h
    have htoken : (Token.startGroup number).Writable := hnumber
    rw [encode, List.append_assoc, List.append_assoc]
    exact fields_of_startGroup (readToken_encode htoken _)
      (skipGroup_encode hnested hcontent hnumber rest)

end Item

/-- The bytes of a message. -/
def encode (items : List Item) : ByteString := items.flatMap Item.encode

/-- A message that follows written items is read after them. -/
theorem fields_encode_append {items : List Item} (h : ∀ item ∈ items, item.Writable)
    (rest : ByteString) :
    fields (encode items ++ rest) = (fields rest).map (items.map Item.field ++ ·) := by
  induction items with
  | nil => simp [encode]
  | cons item items ih =>
    obtain ⟨hitem, hitems⟩ := List.forall_mem_cons.mp h
    rw [encode, List.flatMap_cons, List.append_assoc, Item.fields_encode_append hitem, ← encode,
      ih hitems, Option.map_map]
    rfl

/-- A written message is read item by item. -/
theorem fields_encode {items : List Item} (h : ∀ item ∈ items, item.Writable) :
    fields (encode items) = some (items.map Item.field) := by
  have hread := fields_encode_append h []
  simpa using hread

/-- Items that say the same about some numbers, in whatever order the numbers come and whatever
is written under other numbers. -/
def Agree (numbers : List ℕ) (first second : List Item) : Prop :=
  ∀ number ∈ numbers, first.filter (fun item => item.number = number) =
    second.filter (fun item => item.number = number)

/-- Items agree with themselves. -/
theorem Agree.refl (numbers : List ℕ) (items : List Item) : Agree numbers items items :=
  fun _ _ => rfl

/-- An item of one of the numbers is written on both sides. -/
theorem Agree.mem {numbers : List ℕ} {first second : List Item} (h : Agree numbers first second)
    {item : Item} (hmem : item ∈ first) (hnumber : item.number ∈ numbers) : item ∈ second := by
  have hfirst : item ∈ first.filter fun other => other.number = item.number := by
    simp [hmem]
  rw [h item.number hnumber] at hfirst
  exact List.mem_of_mem_filter hfirst

/-- Agreement goes both ways. -/
theorem Agree.symm {numbers : List ℕ} {first second : List Item}
    (h : Agree numbers first second) : Agree numbers second first :=
  fun number hnumber => (h number hnumber).symm

/-- The fields of a number are the items of that number as a reader sees them. -/
theorem filter_map_field (number : ℕ) (items : List Item) :
    (items.map Item.field).filter (fun field => field.number = number) =
      (items.filter fun item => item.number = number).map Item.field := by
  rw [List.filter_map]
  simp [Function.comp_def]

/-- The content of a length-delimited item is part of the message. -/
theorem length_content_lt {items : List Item} {number : ℕ} {content : ByteString}
    (h : .plain number (.bytes content) ∈ items) : content.length < (encode items).length := by
  obtain ⟨before, after, rfl⟩ := List.append_of_mem h
  have htag := length_encodeVarint_pos (8 * number + 2)
  simp only [encode, List.flatMap_append, List.flatMap_cons, Item.encode, Token.encode, tag,
    List.length_append]
  omega

/-! ## What the fields mean -/

/-- The content of a length-delimited field. -/
def Field.bytes (field : Field) : Option ByteString :=
  match field.value with
  | some (.bytes content) => some content
  | _ => none

/-- The value of a varint field. -/
def Field.varint (field : Field) : Option ℕ :=
  match field.value with
  | some (.varint value) => some value
  | _ => none

/-- The content of a field is shorter than the message. -/
theorem length_bytes_lt {bytes content : ByteString} {read : List Field} {field : Field}
    (h : fields bytes = some read) (hmem : field ∈ read) (hbytes : field.bytes = some content) :
    content.length < bytes.length := by
  have hcount (fuel : ℕ) : ∀ bytes read, fieldsUpTo fuel bytes = some read → field ∈ read →
      content.length < bytes.length := by
    induction fuel with
    | zero =>
      intro bytes read hread hfield
      cases bytes with
      | nil =>
        rw [← Option.some.inj hread] at hfield
        cases hfield
      | cons byte rest => cases hread
    | succ fuel ih =>
      intro bytes read hread hfield
      cases bytes with
      | nil =>
        rw [← Option.some.inj hread] at hfield
        cases hfield
      | cons byte tail =>
        rw [fieldsUpTo] at hread
        · split at hread
          · cases hread
          · rw [← Option.some.inj hread] at hfield
            cases hfield
          · next number value rest htoken =>
            obtain ⟨others, hothers, rfl⟩ := Option.map_eq_some_iff.mp hread
            obtain rfl | hlater := List.mem_cons.mp hfield
            · cases value with
              | bytes found =>
                obtain rfl := Option.some.inj hbytes
                exact Nat.lt_of_le_of_lt (Nat.le_add_right _ _) (length_readToken_bytes htoken)
              | varint value => cases hbytes
              | fixed64 found => cases hbytes
              | fixed32 found => cases hbytes
            · exact (ih rest others hothers hlater).trans (length_readToken htoken)
          · next number rest htoken =>
            obtain ⟨after, hskip, hafter⟩ := Option.bind_eq_some_iff.mp hread
            obtain ⟨others, hothers, rfl⟩ := Option.map_eq_some_iff.mp hafter
            obtain rfl | hlater := List.mem_cons.mp hfield
            · cases hbytes
            · exact (ih after others hothers hlater).trans
                ((length_skipGroupsUpTo hskip).trans_lt (length_readToken htoken))
        · simp
  exact hcount bytes.length bytes read h hmem

section Meaning

variable {α Message : Type*} (read : Field → Option α) (number : ℕ)

/-- The values of a number, in the order of the fields. -/
def values (fields : List Field) : List α :=
  (fields.filter fun field => field.number = number).filterMap read

/-- A further field of the number adds its value. -/
theorem values_concat_self {field : Field} {value : α} (hnumber : field.number = number)
    (hread : read field = some value) (fields : List Field) :
    values read number (fields ++ [field]) = values read number fields ++ [value] := by
  simp [values, hnumber, hread]

/-- A further field of another number adds nothing. -/
theorem values_concat_of_ne {field : Field} (hnumber : field.number ≠ number)
    (fields : List Field) :
    values read number (fields ++ [field]) = values read number fields := by
  simp [values, hnumber]

/-- The values of a number in two messages, one after the other. -/
theorem values_append (first second : List Field) :
    values read number (first ++ second) =
      values read number first ++ values read number second := by
  simp [values]

variable {read number}

/-- Items that agree on a number have the same values of it. -/
theorem Agree.values_eq {numbers : List ℕ} {first second : List Item}
    (h : Agree numbers first second) (hnumber : number ∈ numbers) :
    values read number (first.map Item.field) = values read number (second.map Item.field) := by
  rw [values, values, filter_map_field, filter_map_field, h number hnumber]

/-- Reading fields one after another succeeds when each of them is accepted, and then the result
is any message that follows the fields step by step. -/
theorem foldlM_eq_some_iff {step : Message → Field → Option Message} {Accepts : Field → Prop}
    {meaning : List Field → Message}
    (hstep : ∀ fields field, (Accepts field ∧ step (meaning fields) field =
      some (meaning (fields ++ [field]))) ∨ (¬ Accepts field ∧ step (meaning fields) field = none))
    (fields : List Field) (message : Message) :
    fields.foldlM step (meaning []) = some message ↔
      (∀ field ∈ fields, Accepts field) ∧ message = meaning fields := by
  induction fields using List.reverseRecOn generalizing message with
  | nil => simp [eq_comm]
  | append_singleton fields field ih =>
    rw [List.foldlM_append, Option.bind_eq_bind, Option.bind_eq_some_iff]
    constructor
    · rintro ⟨before, hbefore, hlast⟩
      obtain ⟨haccepts, rfl⟩ := (ih before).mp hbefore
      rw [List.foldlM_cons] at hlast
      obtain ⟨hfield, heq⟩ | ⟨hfield, heq⟩ := hstep fields field
      · rw [heq] at hlast
        refine ⟨?_, (Option.some.inj hlast).symm⟩
        simpa [or_imp, forall_and] using ⟨haccepts, hfield⟩
      · rw [heq] at hlast
        cases hlast
    · rintro ⟨haccepts, rfl⟩
      obtain ⟨hbefore, hfield⟩ := List.forall_mem_append.mp haccepts
      refine ⟨meaning fields, (ih _).mpr ⟨hbefore, rfl⟩, ?_⟩
      obtain ⟨-, heq⟩ | ⟨hnot, -⟩ := hstep fields field
      · rw [List.foldlM_cons, heq]
        rfl
      · exact absurd (hfield field (List.mem_singleton_self _)) hnot

/-- A class that accepts what it does not know, and whose messages mean what their known fields
say, reads the same from items that agree on the known numbers. -/
theorem Agree.deserialize_eq {deserialize : ByteString → Option Message}
    {Accepts : Field → Prop} {meaning : List Field → Message}
    (hread : ∀ bytes message, deserialize bytes = some message ↔
      ∃ read, fields bytes = some read ∧ (∀ field ∈ read, Accepts field) ∧ message = meaning read)
    {numbers : List ℕ} (haccepts : ∀ field, field.number ∉ numbers → Accepts field)
    (hmeaning : ∀ first second : List Item, Agree numbers first second →
      meaning (first.map Item.field) = meaning (second.map Item.field))
    {first second : List Item} (hfirst : ∀ item ∈ first, item.Writable)
    (hsecond : ∀ item ∈ second, item.Writable) (h : Agree numbers first second) :
    deserialize (encode first) = deserialize (encode second) := by
  have hstep {first second : List Item} (hfirst : ∀ item ∈ first, item.Writable)
      (hsecond : ∀ item ∈ second, item.Writable) (h : Agree numbers first second)
      {message : Message} (hmessage : deserialize (encode first) = some message) :
      deserialize (encode second) = some message := by
    obtain ⟨read, hfields, hall, rfl⟩ := (hread _ _).mp hmessage
    rw [fields_encode hfirst] at hfields
    obtain rfl := Option.some.inj hfields
    refine (hread _ _).mpr ⟨second.map Item.field, fields_encode hsecond, ?_,
      hmeaning first second h⟩
    intro field hfield
    obtain ⟨item, hitem, rfl⟩ := List.mem_map.mp hfield
    by_cases hnumber : item.number ∈ numbers
    · exact hall _ (List.mem_map_of_mem (h.symm.mem hitem hnumber))
    · exact haccepts _ (by rwa [Item.number_field])
  apply Option.ext
  intro message
  exact ⟨hstep hfirst hsecond h, hstep hsecond hfirst h.symm⟩

/-- Steps that agree on the fields read the same message. -/
theorem foldlM_congr {step other : Message → Field → Option Message} {fields : List Field}
    (h : ∀ field ∈ fields, ∀ message, step message field = other message field)
    (message : Message) : fields.foldlM step message = fields.foldlM other message := by
  induction fields generalizing message with
  | nil => rfl
  | cons field fields ih =>
    obtain ⟨hfield, hfields⟩ := List.forall_mem_cons.mp h
    rw [List.foldlM_cons, List.foldlM_cons, hfield]
    exact congrArg _ (funext (ih hfields))

end Meaning

end Protobuf
