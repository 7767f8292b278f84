import Mathlib.Data.List.DropRight
import RepoManager.Library.LexicalPath

/-!
# The path of a URL, from a string to a server

How a browser reads an absolute `http` URL from a string, up to the path it requests, and how a
server decodes that path. Strings are their UTF-8 bytes. The browser trims the string, removes
tabs and line breaks, splits off query and fragment, reads `\` as `/`, resolves dot segments and
percent-encodes what may not stand in a path; the server replaces every percent escape by its
byte and refuses a malformed one.

No step makes a path longer. What is written after the root of a site therefore arrives there
as it was written exactly when no step changes it, which `arrives_iff` turns into a condition on
its bytes.
-/

open LexicalPath

namespace UrlPath

/-- The byte `%`. -/
def percent : UInt8 := 0x25

/-- The byte `?`. -/
def question : UInt8 := 0x3f

/-- The byte `#`. -/
def hash : UInt8 := 0x23

/-- The byte `\`. -/
def backslash : UInt8 := 0x5c

/-- ASCII tab or newline. -/
def isNewline (byte : UInt8) : Bool := byte = 0x09 ∨ byte = 0x0a ∨ byte = 0x0d

/-- C0 control or space. -/
def isBlank (byte : UInt8) : Bool := byte ≤ 0x20

/-- The end of a path: a query or a fragment begins. -/
def endsPath (byte : UInt8) : Bool := byte = question ∨ byte = hash

/-- The end of an authority: a path, a query or a fragment begins. -/
def endsAuthority (byte : UInt8) : Bool := byte = slash ∨ byte = backslash ∨ endsPath byte

/-- ASCII lower case. -/
def lower (byte : UInt8) : UInt8 := if 0x41 ≤ byte ∧ byte ≤ 0x5a then byte + 0x20 else byte

/-- A single-dot path segment. -/
def isDot (elem : ByteString) : Bool := elem.map lower ∈ [ascii ".", ascii "%2e"]

/-- A double-dot path segment. -/
def isDotDot (elem : ByteString) : Bool :=
  elem.map lower ∈ [ascii "..", ascii ".%2e", ascii "%2e.", ascii "%2e%2e"]

/-- One element of a path that is not the last, against the elements above it. -/
def enter (above : List ByteString) (elem : ByteString) : List ByteString :=
  if isDotDot elem then above.dropLast else if isDot elem then above else above ++ [elem]

/-- Resolve the dot segments of a path, below the elements above it. -/
def resolve (above : List ByteString) : List ByteString → List ByteString
  | [] => above
  | [last] =>
    if isDotDot last then above.dropLast ++ [[]]
    else if isDot last then above ++ [[]]
    else above ++ [last]
  | elem :: next :: rest => resolve (enter above elem) (next :: rest)

/-- The path percent-encode set. -/
def inPathSet (byte : UInt8) : Bool :=
  byte ≤ 0x20 ∨ 0x7f ≤ byte ∨ byte ∈ ascii "\"#<>?^\x60\x7b\x7d"

/-- A hexadecimal digit. -/
def hexDigit (value : UInt8) : UInt8 := if value < 10 then 0x30 + value else 0x37 + value

/-- Percent-encode one byte. -/
def encodeByte (byte : UInt8) : ByteString :=
  if inPathSet byte then [percent, hexDigit (byte / 16), hexDigit (byte % 16)] else [byte]

/-- Percent-encode a path segment. -/
def encode (bytes : ByteString) : ByteString := bytes.flatMap encodeByte

/-- The elements of a path, each after a slash. -/
def joinSlash (elems : List ByteString) : ByteString := elems.flatMap fun elem => slash :: elem

/-- What follows `://`. -/
def afterScheme : ByteString → Option ByteString
  | [] => none
  | byte :: rest => if ascii "://" <+: byte :: rest then some (rest.drop 2) else afterScheme rest

/-- A backslash is read as a slash. -/
def unslash (byte : UInt8) : UInt8 := if byte = backslash then slash else byte

/-- The path elements of a string that begins with the path of a URL. -/
def pathElements (path : ByteString) : List ByteString :=
  let path := (path.takeWhile fun byte => !endsPath byte).map unslash
  if path = [] then [[]] else resolve [] (components path).tail

/-- The path that a browser requests for an absolute URL. -/
def pathname (url : ByteString) : Option ByteString :=
  let url := ((url.dropWhile isBlank).rdropWhile isBlank).filter fun byte => !isNewline byte
  (afterScheme url).map fun rest =>
    joinSlash ((pathElements (rest.dropWhile fun byte => !endsAuthority byte)).map encode)

/-- The value of a hexadecimal digit. -/
def hexValue (byte : UInt8) : Option UInt8 :=
  if 0x30 ≤ byte ∧ byte ≤ 0x39 then some (byte - 0x30)
  else if 0x41 ≤ byte ∧ byte ≤ 0x46 then some (byte - 0x37)
  else if 0x61 ≤ byte ∧ byte ≤ 0x66 then some (byte - 0x57)
  else none

/-- Decode the percent escapes of a path; a malformed escape is an error. -/
def decode : ByteString → Option ByteString
  | [] => some []
  | byte :: rest =>
    if byte = percent then
      match rest with
      | high :: low :: rest =>
        match hexValue high, hexValue low with
        | some high, some low => (decode rest).map fun bytes => (16 * high + low) :: bytes
        | _, _ => none
      | _ => none
    else (decode rest).map fun bytes => byte :: bytes

/-! ## Percent-encoding is undone -/

section Bytes

variable (byte : UInt8)

/-- A property of all bytes, by their numbers. -/
theorem forall_byte {P : UInt8 → Prop} (h : ∀ n : Fin 256, P (UInt8.ofNat n)) : P byte := by
  have hbyte := h ⟨byte.toNat, UInt8.toNat_lt byte⟩
  rwa [UInt8.ofNat_toNat] at hbyte

/-- A hexadecimal digit is not encoded. -/
theorem hexValue_of_inPathSet : inPathSet byte = true → hexValue byte = none := by
  apply forall_byte byte
  decide +kernel

/-- The digits of an encoded byte are read back. -/
theorem hexValue_hexDigit : hexValue (hexDigit (byte / 16)) = some (byte / 16) ∧
    hexValue (hexDigit (byte % 16)) = some (byte % 16) ∧ 16 * (byte / 16) + byte % 16 = byte := by
  apply forall_byte byte
  decide +kernel

end Bytes

/-- A byte that is no percent sign stands for itself. -/
theorem decode_cons_of_ne {byte : UInt8} (h : byte ≠ percent) (rest : ByteString) :
    decode (byte :: rest) = (decode rest).map fun bytes => byte :: bytes := by
  cases rest with
  | nil => simp [decode, h]
  | cons next rest => cases rest <;> simp [decode, h]

/-- A percent sign and two more bytes. -/
theorem decode_percent (high low : UInt8) (rest : ByteString) :
    decode (percent :: high :: low :: rest) =
      match hexValue high, hexValue low with
      | some high, some low => (decode rest).map fun bytes => (16 * high + low) :: bytes
      | _, _ => none := by
  rw [decode, if_pos rfl]

/-- A percent sign without a first digit is an error. -/
theorem decode_percent_of_none {high : UInt8} (h : hexValue high = none) (rest : ByteString) :
    decode (percent :: high :: rest) = none := by
  cases rest with
  | nil => rfl
  | cons low rest => rw [decode_percent, h]

/-- A percent sign without two digits is an error. -/
theorem decode_percent_of_malformed {high low : UInt8}
    (h : ∀ first second, hexValue high = some first → hexValue low = some second → False)
    (rest : ByteString) : decode (percent :: high :: low :: rest) = none := by
  rw [decode_percent]
  split
  · next first second hfirst hsecond => exact absurd hsecond (h first second hfirst)
  · rfl

/-- What is too short for an escape. -/
theorem short_of_not_cons_cons {rest : ByteString}
    (h : ∀ high low tail, rest = high :: low :: tail → False) :
    rest = [] ∨ ∃ byte, rest = [byte] := by
  match rest with
  | [] => exact .inl rfl
  | [byte] => exact .inr ⟨byte, rfl⟩
  | high :: low :: tail => exact absurd rfl (h high low tail)

/-- An encoded byte at the front is decoded. -/
theorem decode_encodeByte {byte : UInt8} (hbyte : byte ≠ percent) (rest : ByteString) :
    decode (encodeByte byte ++ rest) = (decode rest).map fun bytes => byte :: bytes := by
  unfold encodeByte
  split
  · obtain ⟨hhigh, hlow, hsum⟩ := hexValue_hexDigit byte
    simp only [List.cons_append, List.nil_append, decode_percent, hhigh, hlow, hsum]
  · exact decode_cons_of_ne hbyte rest

/-- Encoding changes nothing for the decoder: percent signs and digits are not encoded. -/
theorem decode_encode (bytes : ByteString) : decode (encode bytes) = decode bytes := by
  have hpercent : hexValue percent = none := by decide
  have hsign : encodeByte percent = [percent] := by decide
  have hplain : ∀ byte, ¬ inPathSet byte → encodeByte byte = [byte] := fun byte h => if_neg h
  have hcoded : ∀ byte, inPathSet byte → ∃ high low, encodeByte byte = [percent, high, low] :=
    fun byte h => ⟨_, _, if_pos h⟩
  have hcons : ∀ byte rest, encode (byte :: rest) = encodeByte byte ++ encode rest :=
    fun byte rest => List.flatMap_cons ..
  -- an encoded byte after a percent sign is an error before and after encoding
  have herror : ∀ byte rest, inPathSet byte →
      decode (encode (percent :: byte :: rest)) = decode (percent :: byte :: rest) := by
    intro byte rest hbyte
    obtain ⟨high, low, hencode⟩ := hcoded byte hbyte
    rw [decode_percent_of_none (hexValue_of_inPathSet byte hbyte), hcons, hcons, hsign, hencode]
    exact decode_percent_of_none hpercent _
  induction bytes using decode.induct with
  | case1 => rfl
  | case2 high low rest highValue lowValue hlow hhigh ih =>
    have hhighPlain : ¬ inPathSet high := fun h => by simp [hexValue_of_inPathSet high h] at hhigh
    have hlowPlain : ¬ inPathSet low := fun h => by simp [hexValue_of_inPathSet low h] at hlow
    rw [hcons, hcons, hcons, hsign, hplain high hhighPlain, hplain low hlowPlain]
    simp only [List.cons_append, List.nil_append, decode_percent, hhigh, hlow, ih]
  | case3 high low rest hnone =>
    by_cases hhigh : inPathSet high
    · exact herror high (low :: rest) hhigh
    · rw [decode_percent_of_malformed hnone, hcons, hcons, hcons, hsign, hplain high hhigh]
      by_cases hlow : inPathSet low
      · obtain ⟨first, second, hencode⟩ := hcoded low hlow
        rw [hencode]
        simp only [List.cons_append, List.nil_append, decode_percent, hpercent]
        cases hexValue high <;> rfl
      · rw [hplain low hlow]
        exact decode_percent_of_malformed hnone _
  | case4 rest hshort =>
    rcases short_of_not_cons_cons hshort with rfl | ⟨byte, rfl⟩
    · rfl
    · by_cases hbyte : inPathSet byte
      · exact herror byte [] hbyte
      · rw [hcons, hcons, hsign, hplain byte hbyte]
        rfl
  | case5 byte rest hbyte ih => rw [hcons, decode_encodeByte hbyte, ih, decode_cons_of_ne hbyte]

/-- Decoding shortens what has an escape and leaves the rest as it is. -/
theorem length_decode_le {bytes decoded : ByteString} (h : decode bytes = some decoded) :
    decoded.length ≤ bytes.length ∧
      (decoded.length = bytes.length → percent ∉ bytes ∧ decoded = bytes) := by
  induction bytes using decode.induct generalizing decoded with
  | case1 =>
    obtain rfl := Option.some.inj h
    exact ⟨Nat.le_refl _, fun _ => ⟨List.not_mem_nil, rfl⟩⟩
  | case2 high low rest highValue lowValue hlow hhigh ih =>
    simp only [decode_percent, hhigh, hlow] at h
    obtain ⟨inner, hinner, rfl⟩ := Option.map_eq_some_iff.mp h
    have hle := (ih hinner).1
    simp only [List.length_cons]
    omega
  | case3 high low rest hnone =>
    rw [decode_percent_of_malformed hnone] at h
    exact nomatch h
  | case4 rest hshort =>
    rcases short_of_not_cons_cons hshort with rfl | ⟨byte, rfl⟩
    · exact nomatch h
    · exact nomatch h
  | case5 byte rest hbyte ih =>
    rw [decode_cons_of_ne hbyte] at h
    obtain ⟨inner, hinner, rfl⟩ := Option.map_eq_some_iff.mp h
    obtain ⟨hle, heq⟩ := ih hinner
    simp only [List.length_cons]
    refine ⟨by omega, fun hlength => ?_⟩
    obtain ⟨hnot, rfl⟩ := heq (by omega)
    exact ⟨List.not_mem_cons_of_ne_of_not_mem (Ne.symm hbyte) hnot, rfl⟩

/-- What has no percent sign is decoded as it is. -/
theorem decode_of_notMem {bytes : ByteString} (h : percent ∉ bytes) : decode bytes = some bytes := by
  induction bytes with
  | nil => rfl
  | cons byte rest ih =>
    have hbyte : byte ≠ percent := fun heq => h (heq ▸ List.mem_cons_self)
    rw [decode_cons_of_ne hbyte, ih fun hrest => h (List.mem_cons_of_mem _ hrest)]
    rfl


/-- A path is decoded element by element: no escape spans a slash. -/
theorem decode_append_slash (left right : ByteString) :
    decode (left ++ slash :: right) = (decode left).bind fun before =>
      (decode right).map fun after => before ++ slash :: after := by
  induction left using decode.induct with
  | case1 => exact decode_cons_of_ne (by decide) right
  | case2 high low rest highValue lowValue hlow hhigh ih =>
    simp only [List.cons_append, decode_percent, hhigh, hlow, ih]
    cases decode rest <;> cases decode right <;> rfl
  | case3 high low rest hnone =>
    rw [decode_percent_of_malformed hnone]
    exact decode_percent_of_malformed hnone _
  | case4 rest hshort =>
    rcases short_of_not_cons_cons hshort with rfl | ⟨byte, rfl⟩
    · exact decode_percent_of_none (by decide) right
    · have hslash : hexValue slash = none := by decide
      simp only [List.cons_append, List.nil_append, decode_percent, hslash]
      cases hexValue byte <;> rfl
  | case5 byte rest hbyte ih =>
    rw [List.cons_append, decode_cons_of_ne hbyte, ih, decode_cons_of_ne hbyte]
    cases decode rest <;> cases decode right <;> rfl

/-- The decoded parts of a path around a slash. -/
theorem decode_append_slash_eq_some_iff (left right path : ByteString) :
    decode (left ++ slash :: right) = some path ↔ ∃ before after, decode left = some before ∧
      decode right = some after ∧ before ++ slash :: after = path := by
  simp only [decode_append_slash, Option.bind_eq_some_iff, Option.map_eq_some_iff]
  exact exists_congr fun before => by simp only [exists_and_left]

/-! ## Dot segments -/

/-- No element of a path is a dot segment. -/
def Dotless (elems : List ByteString) : Prop := ∀ elem ∈ elems, ¬ isDot elem ∧ ¬ isDotDot elem

@[simp] theorem joinSlash_append (left right : List ByteString) :
    joinSlash (left ++ right) = joinSlash left ++ joinSlash right :=
  List.flatMap_append

@[simp] theorem joinSlash_cons (elem : ByteString) (rest : List ByteString) :
    joinSlash (elem :: rest) = slash :: (elem ++ joinSlash rest) :=
  rfl

/-- Joining the elements of a path gives it back after a slash. -/
theorem joinSlash_components (path : ByteString) : joinSlash (components path) = slash :: path := by
  have hjoin : ∀ elems : List ByteString, elems ≠ [] →
      joinSlash elems = slash :: [slash].intercalate elems := by
    intro elems hne
    induction elems with
    | nil => exact absurd rfl hne
    | cons elem rest ih =>
      cases rest with
      | nil => simp [joinSlash]
      | cons next rest =>
        rw [joinSlash_cons, ih (List.cons_ne_nil _ _), List.intercalate_cons_cons]
        simp
  have hpath : [slash].intercalate (components path) = path := List.intercalate_splitOn slash
  rw [hjoin (components path) (components_ne_nil path), hpath]

/-- What is not the last element is entered before the rest is resolved. -/
theorem resolve_append (above first rest : List ByteString) (hrest : rest ≠ []) :
    resolve above (first ++ rest) = resolve (first.foldl enter above) rest := by
  induction first generalizing above with
  | nil => rfl
  | cons elem first ih =>
    rw [List.foldl_cons, ← ih]
    obtain ⟨next, others, hnext⟩ := List.exists_cons_of_ne_nil
      (List.append_ne_nil_of_right_ne_nil first hrest)
    rw [List.cons_append, hnext, resolve]

/-- A dot segment is not empty. -/
theorem ne_nil_of_isDot {elem : ByteString} (h : isDotDot elem ∨ isDot elem) : elem ≠ [] := by
  rintro rfl
  exact absurd h (by decide)

/-- A dot segment leads to a place or above it. -/
theorem enter_prefix (above : List ByteString) {elem : ByteString}
    (h : isDotDot elem ∨ isDot elem) : enter above elem <+: above := by
  unfold enter
  split
  · exact List.dropLast_prefix above
  · next hlast =>
    rw [if_pos (h.resolve_left hlast)]

/-- Every other element leads below the place. -/
theorem enter_eq_concat (above : List ByteString) {elem : ByteString}
    (h : ¬ isDot elem ∧ ¬ isDotDot elem) : enter above elem = above ++ [elem] := by
  rw [enter, if_neg h.2, if_neg h.1]

/-- The elements of a path are no dot segments when neither the first nor the others are. -/
theorem dotless_cons {elem : ByteString} {rest : List ByteString} :
    Dotless (elem :: rest) ↔ (¬ isDot elem ∧ ¬ isDotDot elem) ∧ Dotless rest :=
  List.forall_mem_cons

/-- The length of a path with one more element. -/
theorem length_joinSlash_cons (elem : ByteString) (rest : List ByteString) :
    (joinSlash (elem :: rest)).length = 1 + elem.length + (joinSlash rest).length := by
  rw [joinSlash_cons, List.length_cons, List.length_append]
  omega

/-- Dot segments shorten a path, also when they lead above its start. -/
theorem resolve_cases (above elems : List ByteString) (helems : elems ≠ []) :
    (Dotless elems ∧ resolve above elems = above ++ elems) ∨ ¬ Dotless elems ∧
      ∃ kept rest, kept <+: above ∧ rest ≠ [] ∧ resolve above elems = kept ++ rest ∧
        (joinSlash rest).length < (joinSlash elems).length := by
  have hshorter : ∀ elem, isDotDot elem ∨ isDot elem →
      (joinSlash [[]]).length < (joinSlash [elem]).length := by
    intro elem helem
    have hpos := List.length_pos_iff.mpr (ne_nil_of_isDot helem)
    simp only [length_joinSlash_cons, List.length_nil]
    omega
  induction above, elems using resolve.induct with
  | case1 above => exact absurd rfl helems
  | case2 above last hlast =>
    refine .inr ⟨fun h => (dotless_cons.mp h).1.2 hlast, above.dropLast, [[]],
      List.dropLast_prefix above, List.cons_ne_nil _ _, ?_, hshorter last (.inl hlast)⟩
    rw [resolve, if_pos hlast]
  | case3 above last hlast hsingle =>
    refine .inr ⟨fun h => (dotless_cons.mp h).1.1 hsingle, above, [[]],
      List.prefix_refl above, List.cons_ne_nil _ _, ?_, hshorter last (.inr hsingle)⟩
    rw [resolve, if_neg hlast, if_pos hsingle]
  | case4 above last hlast hsingle =>
    refine .inl ⟨dotless_cons.mpr ⟨⟨hsingle, hlast⟩, nofun⟩, ?_⟩
    rw [resolve, if_neg hlast, if_neg hsingle]
  | case5 above elem next rest ih =>
    rw [resolve, length_joinSlash_cons elem]
    by_cases helem : isDotDot elem ∨ isDot elem
    · have hbelow := enter_prefix above helem
      have hnot : ¬ Dotless (elem :: next :: rest) := fun h =>
        helem.elim (dotless_cons.mp h).1.2 (dotless_cons.mp h).1.1
      rcases ih (List.cons_ne_nil _ _) with ⟨-, heq⟩ | ⟨-, kept, after, hkept, hne, heq, hlt⟩
      · exact .inr ⟨hnot, _, _, hbelow, List.cons_ne_nil _ _, heq, by omega⟩
      · exact .inr ⟨hnot, kept, after, hkept.trans hbelow, hne, heq, by omega⟩
    · obtain ⟨hlast, hsingle⟩ := not_or.mp helem
      rw [enter_eq_concat above ⟨hsingle, hlast⟩] at ih ⊢
      rcases ih (List.cons_ne_nil _ _) with
        ⟨hdotless, heq⟩ | ⟨hnot, kept, after, hkept, hne, heq, hlt⟩
      · refine .inl ⟨dotless_cons.mpr ⟨⟨hsingle, hlast⟩, hdotless⟩, ?_⟩
        rw [heq, List.append_assoc, List.singleton_append]
      · have hcons : ¬ Dotless (elem :: next :: rest) := fun h => hnot (dotless_cons.mp h).2
        rcases List.prefix_concat_iff.mp hkept with rfl | hkept
        · refine .inr ⟨hcons, above, elem :: after, List.prefix_refl above, List.cons_ne_nil _ _,
            ?_, ?_⟩
          · rw [heq, List.append_assoc, List.singleton_append]
          · rw [length_joinSlash_cons]
            omega
        · exact .inr ⟨hcons, kept, after, hkept, hne, heq, by omega⟩

/-! ## What the browser reads after a slash -/

/-- A string that ends a URL, as the browser reads it. -/
def readText (text : ByteString) : ByteString :=
  (((text.rdropWhile isBlank).filter fun byte => !isNewline byte).takeWhile
    fun byte => !endsPath byte).map unslash

/-- A byte that does not stand for itself in a path. -/
def reserved (byte : UInt8) : Bool :=
  byte = percent ∨ byte = backslash ∨ endsPath byte ∨ isNewline byte

/-- Removing blanks at the end stops at a byte that is none. -/
theorem rdropWhile_append_cons {p : UInt8 → Bool} {byte : UInt8} (h : p byte = false)
    (left right : ByteString) :
    (left ++ byte :: right).rdropWhile p = left ++ byte :: right.rdropWhile p := by
  have hsplit : (left ++ byte :: right).reverse = right.reverse ++ byte :: left.reverse := by simp
  rw [List.rdropWhile, hsplit, List.dropWhile_append, List.rdropWhile]
  split
  · next hall =>
    rw [List.dropWhile_cons_of_neg (by simp [h]), List.isEmpty_iff.mp hall]
    simp
  · simp

section Bytes

variable (byte : UInt8)

/-- A line break is blank. -/
theorem not_isNewline : isBlank byte = false → isNewline byte = false := by
  apply forall_byte byte
  decide +kernel

/-- Lower case touches neither the dot nor the percent sign. -/
theorem lower_eq : (lower byte = 0x2e → byte = 0x2e) ∧ (lower byte = percent → byte = percent) := by
  apply forall_byte byte
  decide +kernel

/-- No reserved byte but the percent sign is left. -/
theorem unslash_not_reserved : endsPath byte = false → isNewline byte = false →
    unslash byte ≠ backslash ∧ endsPath (unslash byte) = false ∧ isNewline (unslash byte) = false := by
  apply forall_byte byte
  decide +kernel

end Bytes

/-- An element without escape is a dot segment only as it is written. -/
theorem not_isDot {elem : ByteString} (hdot : elem ≠ dot) (hdotDot : elem ≠ dotDot)
    (h : percent ∉ elem) : ¬ isDot elem ∧ ¬ isDotDot elem := by
  have hescape : ∀ text : ByteString, percent ∈ text → elem.map lower ≠ text := by
    rintro text htext rfl
    obtain ⟨byte, hbyte, heq⟩ := List.mem_map.mp htext
    exact h ((lower_eq byte).2 heq ▸ hbyte)
  have hdots : ∀ count, elem.map lower = List.replicate count 0x2e →
      elem = List.replicate count 0x2e := by
    intro count heq
    obtain ⟨hlength, hall⟩ := List.eq_replicate_iff.mp heq
    refine List.eq_replicate_iff.mpr ⟨by simpa using hlength, fun byte hbyte => ?_⟩
    exact (lower_eq byte).1 (hall _ (List.mem_map_of_mem hbyte))
  constructor
  · intro hmem
    simp only [isDot, List.mem_cons, List.not_mem_nil, or_false, decide_eq_true_eq] at hmem
    rcases hmem with heq | heq
    · exact hdot (hdots 1 heq)
    · exact hescape _ (by decide) heq
  · intro hmem
    simp only [isDotDot, List.mem_cons, List.not_mem_nil, or_false, decide_eq_true_eq] at hmem
    rcases hmem with heq | heq | heq | heq
    · exact hdotDot (hdots 2 heq)
    · exact hescape _ (by decide) heq
    · exact hescape _ (by decide) heq
    · exact hescape _ (by decide) heq

/-- A path name without escape is no dot segment. -/
theorem not_isDot_segment (name : Segment) (h : percent ∉ name.val) :
    ¬ isDot name.val ∧ ¬ isDotDot name.val :=
  not_isDot name.property.2.2.1 name.property.2.2.2 h

/-- What is read has no reserved byte but the percent sign. -/
theorem readText_not_reserved {text : ByteString} {byte : UInt8} (h : byte ∈ readText text)
    (hpercent : byte ≠ percent) : reserved byte = false := by
  obtain ⟨source, hsource, rfl⟩ := List.mem_map.mp h
  have hpath : endsPath source = false := by simpa using List.mem_takeWhile_imp hsource
  have hfilter := List.mem_filter.mp ((List.takeWhile_prefix _).subset hsource)
  have hnewline : isNewline source = false := by simpa using hfilter.2
  obtain ⟨hback, hends, hline⟩ := unslash_not_reserved source hpath hnewline
  simp [reserved, hpercent, hback, hends, hline]

/-- Reading does not make a string longer. -/
theorem length_readText_le (text : ByteString) :
    (readText text).length ≤ (text.rdropWhile isBlank).length := by
  rw [readText, List.length_map]
  exact (List.takeWhile_prefix _).length_le.trans (List.length_filter_le _ _)

/-- A string is read as it is when it has no reserved byte and no blank at its end. -/
theorem readText_eq_self_iff {text : ByteString} (hpercent : percent ∉ text) :
    readText text = text ↔
      (∀ byte ∈ text, reserved byte = false) ∧ ∀ hne : text ≠ [], ¬ isBlank (text.getLast hne) := by
  constructor
  · intro heq
    have hlength := length_readText_le text
    rw [heq] at hlength
    refine ⟨fun byte hbyte => ?_, ?_⟩
    · exact readText_not_reserved (heq ▸ hbyte) fun h => hpercent (h ▸ hbyte)
    · exact List.rdropWhile_eq_self_iff.mp
        ((List.rdropWhile_prefix isBlank (l := text)).eq_of_length_le hlength)
  · rintro ⟨hplain, hlast⟩
    have hbytes : ∀ byte ∈ text, unslash byte = byte ∧ endsPath byte = false ∧
        isNewline byte = false := by
      intro byte hbyte
      have hreserved := hplain byte hbyte
      simp only [reserved, decide_eq_false_iff_not, not_or, Bool.not_eq_true] at hreserved
      exact ⟨if_neg hreserved.2.1, hreserved.2.2.1, hreserved.2.2.2⟩
    rw [readText, List.rdropWhile_eq_self_iff.mpr hlast,
      List.filter_eq_self.mpr fun byte hbyte => by simp [(hbytes byte hbyte).2.2],
      List.takeWhile_eq_self_iff.mpr fun byte hbyte => by simp [(hbytes byte hbyte).2.1]]
    exact (List.map_congr_left fun byte hbyte => (hbytes byte hbyte).1).trans (List.map_id' text)

/-- A slash is read as such, and what stands before it keeps its end. -/
theorem readText_append_slash {root : ByteString} (hroot : ∀ byte ∈ root, endsPath byte = false)
    (tail : ByteString) :
    readText (root ++ slash :: tail) =
      (root.filter fun byte => !isNewline byte).map unslash ++ slash :: readText tail := by
  have hslash : ∀ rest : ByteString, ((slash :: rest).filter fun byte => !isNewline byte) =
      slash :: rest.filter fun byte => !isNewline byte :=
    fun rest => List.filter_cons_of_pos (by decide)
  have hkept : ∀ byte ∈ root.filter fun byte => !isNewline byte, (!endsPath byte) = true := by
    intro byte hbyte
    rw [hroot byte (List.mem_of_mem_filter hbyte)]
    rfl
  rw [readText, rdropWhile_append_cons (by decide), List.filter_append, hslash,
    List.takeWhile_append_of_pos hkept, List.takeWhile_cons_of_pos (by decide), List.map_append,
    List.map_cons]
  rfl

/-! ## From the root of a site -/

/-- Scheme and authority of an absolute URL. -/
structure Origin where
  secure : Bool
  authority : ByteString
  nonempty : authority ≠ []
  graphic : ∀ byte ∈ authority, isBlank byte = false ∧ endsAuthority byte = false

/-- The start of the URLs of an origin, up to its authority. -/
def Origin.bytes (origin : Origin) : ByteString :=
  ascii (if origin.secure then "https" else "http") ++ (ascii "://" ++ origin.authority)

/-- No byte of an authority is a slash or ends a path. -/
theorem Origin.authority_ne (origin : Origin) :
    ∀ byte ∈ origin.authority, byte ≠ slash ∧ endsPath byte = false := by
  intro byte hbyte
  have hends := (origin.graphic byte hbyte).2
  simp only [endsAuthority, decide_eq_false_iff_not, not_or, Bool.not_eq_true] at hends
  exact ⟨hends.1, hends.2.2⟩

/-- An origin does not end with a slash. -/
theorem Origin.bytes_eq_concat (origin : Origin) :
    ∃ start byte, origin.bytes = start ++ [byte] ∧ byte ≠ slash := by
  have hlast := origin.authority_ne _ (List.getLast_mem origin.nonempty)
  refine ⟨ascii (if origin.secure then "https" else "http") ++
    (ascii "://" ++ origin.authority.dropLast), origin.authority.getLast origin.nonempty, ?_,
    hlast.1⟩
  rw [Origin.bytes, List.append_assoc, List.append_assoc, List.dropLast_concat_getLast]

/-- The decoded path with which a request for a URL arrives. -/
def arrives (url : ByteString) : Option ByteString := (pathname url).bind decode

/-- The elements of a path that begins with a slash. -/
theorem pathElements_slash (rest : ByteString) :
    pathElements (slash :: (rest.rdropWhile isBlank).filter fun byte => !isNewline byte) =
      resolve [] (components (readText rest)) := by
  have hread : ((slash :: (rest.rdropWhile isBlank).filter fun byte => !isNewline byte).takeWhile
      fun byte => !endsPath byte).map unslash = slash :: readText rest := by
    rw [List.takeWhile_cons_of_pos (by decide), List.map_cons]
    rfl
  have hcomponents : components (slash :: readText rest) = [] :: components (readText rest) :=
    components_append [] _
  simp only [pathElements, hread, if_neg (List.cons_ne_nil _ _), hcomponents, List.tail_cons]

/-- What the browser splits off is scheme and authority. -/
theorem pathname_origin (origin : Origin) (rest : ByteString) :
    pathname (origin.bytes ++ slash :: rest) =
      some (joinSlash ((resolve [] (components (readText rest))).map encode)) := by
  have hstart : ∀ after, (origin.bytes ++ after).dropWhile isBlank = origin.bytes ++ after := by
    intro after
    rw [Origin.bytes]
    cases origin.secure <;> rfl
  have hkept : (origin.bytes.filter fun byte => !isNewline byte) = origin.bytes := by
    have hauthority : (origin.authority.filter fun byte => !isNewline byte) = origin.authority := by
      apply List.filter_eq_self.mpr
      intro byte hbyte
      rw [not_isNewline byte (origin.graphic byte hbyte).1]
      rfl
    rw [Origin.bytes, List.filter_append, List.filter_append, hauthority]
    cases origin.secure <;> rfl
  have hscheme : ∀ after, afterScheme (origin.bytes ++ after) = some (origin.authority ++ after) := by
    intro after
    rw [Origin.bytes]
    cases origin.secure <;> rfl
  have hends : ∀ byte ∈ origin.authority, (!endsAuthority byte) = true := by
    intro byte hbyte
    rw [(origin.graphic byte hbyte).2]
    rfl
  have hslash : ((slash :: rest.rdropWhile isBlank).filter fun byte => !isNewline byte) =
      slash :: (rest.rdropWhile isBlank).filter fun byte => !isNewline byte :=
    List.filter_cons_of_pos (by decide)
  have hpath : ∀ after : ByteString, ((slash :: after).dropWhile fun byte => !endsAuthority byte) =
      slash :: after :=
    fun after => List.dropWhile_cons_of_neg (by decide)
  simp only [pathname, hstart, rdropWhile_append_cons (show isBlank slash = false by decide),
    List.filter_append, hkept, hslash, hscheme, Option.map_some,
    List.dropWhile_append_of_pos hends, hpath, pathElements_slash]

/-- Encoding the elements of a path is encoding the path. -/
theorem joinSlash_encode (elems : List ByteString) :
    joinSlash (elems.map encode) = encode (joinSlash elems) := by
  induction elems with
  | nil => rfl
  | cons elem rest ih =>
    rw [List.map_cons, joinSlash_cons, joinSlash_cons, ih, encode, encode, encode,
      List.flatMap_cons, List.flatMap_append]
    rfl

/-- What arrives are the elements of the path that the browser reads. -/
theorem arrives_origin (origin : Origin) (rest : ByteString) :
    arrives (origin.bytes ++ slash :: rest) =
      decode (joinSlash (resolve [] (components (readText rest)))) := by
  rw [arrives, pathname_origin, Option.bind_some, joinSlash_encode, decode_encode]

/-- A text that means itself as the end of a path. -/
def Plain (text : ByteString) : Prop :=
  (∀ byte ∈ text, reserved byte = false) ∧ (∀ hne : text ≠ [], ¬ isBlank (text.getLast hne)) ∧
    Dotless (components text)

/-- Above a place the decoded path is not longer. -/
theorem length_place_le {kept above : List ByteString} {before place : ByteString}
    (hkept : kept <+: above) (habove : decode (joinSlash above) = some place)
    (hbefore : decode (joinSlash kept) = some before) : before.length ≤ place.length := by
  obtain ⟨rest, rfl⟩ := hkept
  cases rest with
  | nil =>
    rw [List.append_nil, hbefore] at habove
    rw [Option.some.inj habove]
  | cons elem rest =>
    rw [joinSlash_append, joinSlash_cons] at habove
    obtain ⟨start, after, hstart, -, rfl⟩ := (decode_append_slash_eq_some_iff ..).mp habove
    rw [hbefore] at hstart
    rw [Option.some.inj hstart, List.length_append]
    omega

/-- What stands below the root of a site arrives there as it is written exactly when it is
plain. -/
theorem arrives_iff {origin : Origin} {root place : ByteString}
    (hroot : ∀ byte ∈ root, endsPath byte = false)
    (hopen : arrives (origin.bytes ++ slash :: (root ++ [slash])) = some (place ++ [slash]))
    (tail : ByteString) :
    arrives (origin.bytes ++ slash :: (root ++ slash :: tail)) = some (place ++ slash :: tail) ↔
      Plain tail := by
  -- the root is read once, before anything that stands below it
  let above := (components ((root.filter fun byte => !isNewline byte).map unslash)).foldl enter []
  have hread : ∀ text, arrives (origin.bytes ++ slash :: (root ++ slash :: text)) =
      decode (joinSlash (resolve above (components (readText text)))) := by
    intro text
    rw [arrives_origin, readText_append_slash hroot, components_append,
      resolve_append _ _ _ (components_ne_nil (readText text))]
  have habove : decode (joinSlash above) = some place := by
    rw [hread] at hopen
    have hempty : joinSlash (resolve above (components (readText []))) = joinSlash above ++ [slash] :=
      joinSlash_append above [[]]
    rw [hempty] at hopen
    obtain ⟨before, after, hbefore, hafter, heq⟩ := (decode_append_slash_eq_some_iff ..).mp hopen
    obtain rfl := Option.some.inj hafter
    rw [hbefore, List.append_cancel_right heq]
  have hshort : (readText tail).length ≤ tail.length :=
    (length_readText_le tail).trans (List.rdropWhile_prefix isBlank tail).length_le
  rw [hread]
  rcases resolve_cases above (components (readText tail)) (components_ne_nil _) with
    ⟨hdotless, heq⟩ | ⟨hnot, kept, after, hkept, hne, heq, hlt⟩
  · have hdecode : decode (joinSlash above ++ slash :: readText tail) =
        some (place ++ slash :: tail) ↔ decode (readText tail) = some tail := by
      rw [decode_append_slash, habove]
      simp
    rw [heq, joinSlash_append, joinSlash_components, hdecode]
    constructor
    · intro h
      obtain ⟨hle, hequal⟩ := length_decode_le h
      obtain ⟨hpercent, hself⟩ := hequal (Nat.le_antisymm hle hshort)
      obtain ⟨hbytes, hlast⟩ := (readText_eq_self_iff (hself ▸ hpercent)).mp hself.symm
      exact ⟨hbytes, hlast, hself ▸ hdotless⟩
    · rintro ⟨hbytes, hlast, -⟩
      have hpercent : percent ∉ tail := fun h => absurd (hbytes percent h) (by decide)
      rw [(readText_eq_self_iff hpercent).mpr ⟨hbytes, hlast⟩]
      exact decode_of_notMem hpercent
  · constructor
    · intro h
      obtain ⟨elem, others, rfl⟩ := List.exists_cons_of_ne_nil hne
      rw [heq, joinSlash_append, joinSlash_cons] at h
      obtain ⟨before, rest, hbefore, hrest, hpath⟩ := (decode_append_slash_eq_some_iff ..).mp h
      have hplace := length_place_le hkept habove hbefore
      have htail := (length_decode_le hrest).1
      have hlength := congrArg List.length hpath
      rw [joinSlash_cons, joinSlash_components] at hlt
      simp only [List.length_append, List.length_cons] at hlength hlt htail
      omega
    · rintro ⟨hbytes, hlast, hdotless⟩
      have hpercent : percent ∉ tail := fun h => absurd (hbytes percent h) (by decide)
      rw [(readText_eq_self_iff hpercent).mpr ⟨hbytes, hlast⟩] at hnot
      exact absurd hdotless hnot

example : arrives (ascii "http://localhost:3001/kes/files/noarch/a b#c.rpm") =
    some (ascii "/kes/files/noarch/a b") := by
  decide +kernel

/-! ## Paths that need no escape -/

/-- `unreserved` -/
def isUnreserved (byte : UInt8) : Bool :=
  (0x61 ≤ lower byte ∧ lower byte ≤ 0x7a) ∨ (0x30 ≤ byte ∧ byte ≤ 0x39) ∨
    byte ∈ [0x2d, 0x2e, 0x5f, 0x7e]

/-- A path of unreserved characters and slashes without dot segments. -/
structure Unescaped (path : ByteString) : Prop where
  bytes : ∀ byte ∈ path, isUnreserved byte ∨ byte = slash
  dotless : ∀ elem ∈ components path, elem ≠ dot ∧ elem ≠ dotDot

/-- Such a byte stands for itself everywhere. -/
theorem isUnreserved_or_slash (byte : UInt8) : isUnreserved byte ∨ byte = slash →
    reserved byte = false ∧ isBlank byte = false ∧ inPathSet byte = false := by
  apply forall_byte byte
  decide +kernel

/-- Paths around a slash. -/
theorem unescaped_append_slash {left right : ByteString} :
    Unescaped (left ++ slash :: right) ↔ Unescaped left ∧ Unescaped right := by
  constructor
  · rintro ⟨hbytes, hdotless⟩
    rw [components_append] at hdotless
    rw [List.forall_mem_append] at hbytes hdotless
    exact ⟨⟨hbytes.1, hdotless.1⟩, (List.forall_mem_cons.mp hbytes.2).2, hdotless.2⟩
  · rintro ⟨hleft, hright⟩
    refine ⟨?_, ?_⟩
    · exact List.forall_mem_append.mpr
        ⟨hleft.bytes, List.forall_mem_cons.mpr ⟨.inr rfl, hright.bytes⟩⟩
    · rw [components_append]
      exact List.forall_mem_append.mpr ⟨hleft.dotless, hright.dotless⟩

/-- A path without its last slashes. -/
theorem Unescaped.rdropWhile {path : ByteString} (h : Unescaped path) :
    Unescaped (path.rdropWhile (· = slash)) := by
  induction path using List.reverseRecOn with
  | nil => exact h
  | append_singleton path byte ih =>
    by_cases hbyte : byte = slash
    · subst hbyte
      rw [List.rdropWhile_concat_pos _ _ _ (by simp)]
      exact ih (unescaped_append_slash.mp h).1
    · rwa [List.rdropWhile_concat_neg _ _ _ (by simp [hbyte])]

/-- A path after its first slash. -/
theorem Unescaped.tail {path : ByteString} (hrooted : path.head? = some slash)
    (h : Unescaped path) : ∃ rest, path = slash :: rest ∧ Unescaped rest := by
  cases path with
  | nil => simp at hrooted
  | cons byte rest =>
    obtain rfl : byte = slash := by simpa using hrooted
    exact ⟨rest, rfl, ((@unescaped_append_slash [] rest).mp h).2⟩

/-- A path without its last slash. -/
theorem Unescaped.dropLast {path : ByteString} (h : Unescaped path)
    (hlast : path.getLast? = some slash) : Unescaped path.dropLast := by
  obtain ⟨start, rfl⟩ := List.getLast?_eq_some_iff.mp hlast
  rw [List.dropLast_concat]
  exact (unescaped_append_slash.mp h).1

/-- A browser requests such a path as it is written. -/
theorem pathname_of_unescaped (origin : Origin) {path : ByteString}
    (hrooted : path.head? = some slash) (h : Unescaped path) :
    pathname (origin.bytes ++ path) = some path := by
  obtain ⟨rest, rfl, hrest⟩ := h.tail hrooted
  have hbytes (byte : UInt8) (hbyte : byte ∈ rest) :=
    isUnreserved_or_slash byte (hrest.bytes byte hbyte)
  have hpercent : percent ∉ rest := fun hmem => absurd (hbytes percent hmem).1 (by decide)
  have hread : readText rest = rest := by
    refine (readText_eq_self_iff hpercent).mpr ⟨fun byte hbyte => (hbytes byte hbyte).1, ?_⟩
    intro hne
    simp [(hbytes _ (List.getLast_mem hne)).2.1]
  have hdotless : Dotless (components rest) := by
    intro elem helem
    have hmem : percent ∉ elem := by
      intro hmem
      have hpath : percent ∈ joinSlash (components rest) :=
        List.mem_flatMap.mpr ⟨elem, helem, List.mem_cons_of_mem _ hmem⟩
      rw [joinSlash_components] at hpath
      exact hpercent ((List.mem_cons.mp hpath).resolve_left (by decide))
    exact not_isDot (hrest.dotless elem helem).1 (hrest.dotless elem helem).2 hmem
  have hencode : encode (slash :: rest) = slash :: rest := by
    have hall : ∀ byte ∈ slash :: rest, encodeByte byte = [byte] := by
      refine List.forall_mem_cons.mpr ⟨rfl, fun byte hbyte => ?_⟩
      simp [encodeByte, (hbytes byte hbyte).2.2]
    rw [encode, List.flatMap_congr hall, List.flatMap_singleton']
  rw [pathname_origin, hread]
  rcases resolve_cases [] (components rest) (components_ne_nil rest) with ⟨-, heq⟩ | ⟨hnot, -⟩
  · rw [heq, List.nil_append, joinSlash_encode, joinSlash_components, hencode]
  · exact absurd hdotless hnot

end UrlPath
