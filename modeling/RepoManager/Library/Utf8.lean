import Mathlib.Algebra.Order.BigOperators.Group.List
import Mathlib.Algebra.Order.Group.Nat
import RepoManager.Library.LexicalPath

/-!
# The characters of a byte string

A byte string is read as UTF-8, one character after another: the longest well-formed sequence at
the start, or a single byte that stands for U+FFFD. Every byte belongs to exactly one character,
so the text is the concatenation of their bytes.

A text is valid when no character of it is such a single byte.
-/

namespace Utf8

/-- A character as it was read: its value and the bytes it was read from. -/
structure Rune where
  value : ℕ
  bytes : ByteString
  deriving DecidableEq

/-- U+FFFD, the replacement character. -/
def runeError : ℕ := 0xfffd

/-- A byte after the first two of a character, or after the first of a short one. -/
def isTail (byte : UInt8) : Bool := 0x80 ≤ byte ∧ byte ≤ 0xbf

/-- The bytes allowed after the first byte of a character of three or four bytes. -/
def isSecond (first byte : UInt8) : Bool :=
  if first = 0xe0 then 0xa0 ≤ byte ∧ byte ≤ 0xbf
  else if first = 0xed then 0x80 ≤ byte ∧ byte ≤ 0x9f
  else if first = 0xf0 then 0x90 ≤ byte ∧ byte ≤ 0xbf
  else if first = 0xf4 then 0x80 ≤ byte ∧ byte ≤ 0x8f
  else isTail byte

/-- The six bits of a byte after the first. -/
def tailBits (byte : UInt8) : ℕ := byte.toNat % 64

/-- The length of a character that begins with this byte; none does when it is zero. -/
def width (first : UInt8) : ℕ :=
  if first < 0x80 then 1
  else if 0xc2 ≤ first ∧ first ≤ 0xdf then 2
  else if 0xe0 ≤ first ∧ first ≤ 0xef then 3
  else if 0xf0 ≤ first ∧ first ≤ 0xf4 then 4
  else 0

/-- The well-formed character that this byte begins. -/
def wellFormed (a : UInt8) (rest : ByteString) : Option Rune :=
  match width a, rest with
  | 1, _ => some ⟨a.toNat, [a]⟩
  | 2, b :: _ =>
    if isTail b then some ⟨64 * (a.toNat % 32) + tailBits b, [a, b]⟩ else none
  | 3, b :: c :: _ =>
    if isSecond a b ∧ isTail c then
      some ⟨4096 * (a.toNat % 16) + 64 * tailBits b + tailBits c, [a, b, c]⟩
    else none
  | 4, b :: c :: d :: _ =>
    if isSecond a b ∧ isTail c ∧ isTail d then
      some ⟨262144 * (a.toNat % 8) + 4096 * tailBits b + 64 * tailBits c + tailBits d,
        [a, b, c, d]⟩
    else none
  | _, _ => none

/-- `utf8.DecodeRune` on a text that begins with this byte. -/
def decodeRune (first : UInt8) (rest : ByteString) : Rune :=
  (wellFormed first rest).getD ⟨runeError, [first]⟩

/-- At most so many characters from the start of a text. -/
def runesUpTo : ℕ → ByteString → List Rune
  | 0, _ => []
  | _ + 1, [] => []
  | fuel + 1, byte :: rest =>
    decodeRune byte rest ::
      runesUpTo fuel ((byte :: rest).drop (decodeRune byte rest).bytes.length)

/-- The characters of a text. -/
def runes (text : ByteString) : List Rune := runesUpTo text.length text

/-- A single byte read as the replacement character. -/
def Rune.Invalid (rune : Rune) : Prop := rune.value = runeError ∧ rune.bytes.length = 1

instance (rune : Rune) : Decidable rune.Invalid := inferInstanceAs (Decidable (_ ∧ _))

/-- The bytes of a character, by its number. -/
def encodeRune (value : ℕ) : ByteString :=
  if value < 0x80 then [UInt8.ofNat value]
  else if value < 0x800 then [UInt8.ofNat (0xc0 + value / 64), UInt8.ofNat (0x80 + value % 64)]
  else if value < 0x10000 then
    [UInt8.ofNat (0xe0 + value / 4096), UInt8.ofNat (0x80 + value / 64 % 64),
      UInt8.ofNat (0x80 + value % 64)]
  else
    [UInt8.ofNat (0xf0 + value / 262144), UInt8.ofNat (0x80 + value / 4096 % 64),
      UInt8.ofNat (0x80 + value / 64 % 64), UInt8.ofNat (0x80 + value % 64)]

/-- The bytes of a character, where a single byte that is none becomes a replacement character. -/
def Rune.repaired (rune : Rune) : ByteString :=
  if rune.Invalid then encodeRune runeError else rune.bytes

/-- A text with replacement characters in place of the bytes that are no characters. -/
def repaired (text : ByteString) : ByteString := (runes text).flatMap Rune.repaired

/-- Every character is well-formed. -/
def Valid (text : ByteString) : Prop := ∀ rune ∈ runes text, ¬ rune.Invalid

instance (text : ByteString) : Decidable (Valid text) :=
  inferInstanceAs (Decidable (∀ _ ∈ _, _))

/-- The forms of a character, by the width of its first byte. -/
inductive Form (first : UInt8) : ByteString → Rune → Prop where
  | one {rest : ByteString} (hwidth : width first = 1) : Form first rest ⟨first.toNat, [first]⟩
  | two {b : UInt8} {rest : ByteString} (hwidth : width first = 2) (hb : isTail b) :
    Form first (b :: rest) ⟨64 * (first.toNat % 32) + tailBits b, [first, b]⟩
  | three {b c : UInt8} {rest : ByteString} (hwidth : width first = 3)
    (hbytes : isSecond first b ∧ isTail c) :
    Form first (b :: c :: rest)
      ⟨4096 * (first.toNat % 16) + 64 * tailBits b + tailBits c, [first, b, c]⟩
  | four {b c d : UInt8} {rest : ByteString} (hwidth : width first = 4)
    (hbytes : isSecond first b ∧ isTail c ∧ isTail d) :
    Form first (b :: c :: d :: rest)
      ⟨262144 * (first.toNat % 8) + 4096 * tailBits b + 64 * tailBits c + tailBits d,
        [first, b, c, d]⟩

/-- A character is well-formed when it has one of the forms. -/
theorem wellFormed_iff {first : UInt8} {rest : ByteString} {rune : Rune} :
    wellFormed first rest = some rune ↔ Form first rest rune := by
  constructor
  · intro h
    unfold wellFormed at h
    split at h
    · next hwidth =>
      obtain rfl := Option.some.inj h
      exact .one hwidth
    · next hwidth =>
      obtain ⟨hb, h⟩ := Option.ite_none_right_eq_some.mp h
      obtain rfl := Option.some.inj h
      exact .two hwidth hb
    · next hwidth =>
      obtain ⟨hbytes, h⟩ := Option.ite_none_right_eq_some.mp h
      obtain rfl := Option.some.inj h
      exact .three hwidth hbytes
    · next hwidth =>
      obtain ⟨hbytes, h⟩ := Option.ite_none_right_eq_some.mp h
      obtain rfl := Option.some.inj h
      exact .four hwidth hbytes
    · cases h
  · intro h
    cases h with
    | one hwidth => simp [wellFormed, hwidth]
    | two hwidth hb => simp [wellFormed, hwidth, hb]
    | three hwidth hbytes => simp [wellFormed, hwidth, hbytes]
    | four hwidth hbytes => simp [wellFormed, hwidth, hbytes]

/-- A well-formed character is read from the start of the text. -/
theorem Form.isPrefix {first : UInt8} {rest : ByteString} {rune : Rune} (h : Form first rest rune) :
    rune.bytes ≠ [] ∧ rune.bytes <+: first :: rest := by
  cases h <;> simp

/-- Every character is read from the start of its text. -/
theorem isPrefix_decodeRune (first : UInt8) (rest : ByteString) :
    (decodeRune first rest).bytes ≠ [] ∧ (decodeRune first rest).bytes <+: first :: rest := by
  rw [decodeRune]
  cases h : wellFormed first rest with
  | none => exact ⟨List.cons_ne_nil first [], List.prefix_append [first] rest⟩
  | some rune => exact (wellFormed_iff.mp h).isPrefix

/-- The fuel does not matter once it covers the text. -/
theorem runesUpTo_eq {fuel : ℕ} {text : ByteString} (h : text.length ≤ fuel) :
    runesUpTo fuel text = runes text := by
  induction fuel using Nat.strong_induction_on generalizing text with
  | _ fuel ih =>
    cases text with
    | nil => cases fuel <;> rfl
    | cons first rest =>
      obtain ⟨fuel, rfl⟩ : ∃ n, fuel = n + 1 := Nat.exists_eq_add_one.mpr (by simp at h; omega)
      have hpos := List.length_pos_iff.mpr (isPrefix_decodeRune first rest).1
      have hdrop : ((first :: rest).drop (decodeRune first rest).bytes.length).length ≤
          rest.length := by
        rw [List.length_drop, List.length_cons]
        omega
      have hfuel : rest.length ≤ fuel := Nat.le_of_succ_le_succ h
      rw [runes, List.length_cons, runesUpTo, runesUpTo, ih fuel (Nat.lt_succ_self _)
        (hdrop.trans hfuel)]
      rcases hfuel.lt_or_eq with hlt | heq
      · rw [ih rest.length (by omega) hdrop]
      · rw [heq, ih fuel (Nat.lt_succ_self _) (hdrop.trans hfuel)]

@[simp] theorem runes_nil : runes [] = [] := rfl

/-- The first character, and those of the rest. -/
theorem runes_cons (first : UInt8) (rest : ByteString) :
    runes (first :: rest) = decodeRune first rest ::
      runes ((first :: rest).drop (decodeRune first rest).bytes.length) := by
  have hpos := List.length_pos_iff.mpr (isPrefix_decodeRune first rest).1
  rw [runes, List.length_cons, runesUpTo, runesUpTo_eq]
  rw [List.length_drop, List.length_cons]
  omega

/-- Reading splits off one character after another. -/
theorem runes_induction {motive : ByteString → Prop} (nil : motive [])
    (cons : ∀ first rest,
      motive ((first :: rest).drop (decodeRune first rest).bytes.length) →
        motive (first :: rest)) (text : ByteString) : motive text := by
  generalize hlength : text.length = n
  induction n using Nat.strong_induction_on generalizing text with
  | _ n ih =>
    cases text with
    | nil => exact nil
    | cons first rest =>
      have hpos := List.length_pos_iff.mpr (isPrefix_decodeRune first rest).1
      refine cons first rest (ih _ ?_ _ rfl)
      rw [← hlength, List.length_drop, List.length_cons]
      omega

/-- The bytes of the characters are the text. -/
theorem flatMap_runes (text : ByteString) : (runes text).flatMap Rune.bytes = text := by
  induction text using runes_induction with
  | nil => rfl
  | cons first rest ih =>
    rw [runes_cons, List.flatMap_cons, ih]
    exact List.prefix_iff_eq_append.mp (isPrefix_decodeRune first rest).2

/-- No character is without bytes. -/
theorem bytes_ne_nil {text : ByteString} {rune : Rune} (h : rune ∈ runes text) :
    rune.bytes ≠ [] := by
  induction text using runes_induction with
  | nil => exact absurd h List.not_mem_nil
  | cons first rest ih =>
    rw [runes_cons, List.mem_cons] at h
    rcases h with rfl | h
    · exact (isPrefix_decodeRune first rest).1
    · exact ih h

/-- The byte of a number, for a byte. -/
private theorem ofNat_eq {byte : UInt8} {n : ℕ} (h : n = byte.toNat) : UInt8.ofNat n = byte := by
  rw [h, UInt8.ofNat_toNat]

/-- The first bytes of each length. -/
theorem width_range (first : UInt8) :
    (width first = 1 → first.toNat < 0x80) ∧
      (width first = 2 → 0xc2 ≤ first.toNat ∧ first.toNat ≤ 0xdf) ∧
      (width first = 3 → 0xe0 ≤ first.toNat ∧ first.toNat ≤ 0xef) ∧
      (width first = 4 → 0xf0 ≤ first.toNat ∧ first.toNat ≤ 0xf4) := by
  simp only [width, UInt8.lt_iff_toNat_lt, UInt8.le_iff_toNat_le, UInt8.reduceToNat]
  split
  · omega
  · split
    · omega
    · split
      · omega
      · split <;> omega

/-- The bytes after the first two. -/
theorem isTail_range {byte : UInt8} (h : isTail byte = true) :
    0x80 ≤ byte.toNat ∧ byte.toNat ≤ 0xbf := by
  simpa only [isTail, decide_eq_true_eq, UInt8.le_iff_toNat_le, UInt8.reduceToNat] using h

/-- The bytes after the first one. -/
theorem isSecond_range {first byte : UInt8} (h : isSecond first byte = true) :
    0x80 ≤ byte.toNat ∧ byte.toNat ≤ 0xbf ∧ (first.toNat = 0xe0 → 0xa0 ≤ byte.toNat) ∧
      (first.toNat = 0xf0 → 0x90 ≤ byte.toNat) := by
  have hfirst (n : UInt8) : first = n ↔ first.toNat = n.toNat := UInt8.toNat_inj.symm
  simp only [isSecond, isTail, hfirst, UInt8.le_iff_toNat_le, UInt8.reduceToNat] at h
  split at h
  · simp only [decide_eq_true_eq] at h
    omega
  · split at h
    · simp only [decide_eq_true_eq] at h
      omega
    · split at h
      · simp only [decide_eq_true_eq] at h
        omega
      · split at h
        · simp only [decide_eq_true_eq] at h
          omega
        · simp only [decide_eq_true_eq] at h
          omega

section Encode

variable {value : ℕ} {a b c d : UInt8}

/-- A character of two bytes. -/
theorem encodeRune_two (hlow : 0x80 ≤ value) (hhigh : value < 0x800)
    (ha : 0xc0 + value / 64 = a.toNat) (hb : 0x80 + value % 64 = b.toNat) :
    encodeRune value = [a, b] := by
  rw [encodeRune, if_neg (by omega), if_pos hhigh, ofNat_eq ha, ofNat_eq hb]

/-- A character of three bytes. -/
theorem encodeRune_three (hlow : 0x800 ≤ value) (hhigh : value < 0x10000)
    (ha : 0xe0 + value / 4096 = a.toNat) (hb : 0x80 + value / 64 % 64 = b.toNat)
    (hc : 0x80 + value % 64 = c.toNat) : encodeRune value = [a, b, c] := by
  rw [encodeRune, if_neg (by omega), if_neg (by omega), if_pos hhigh, ofNat_eq ha, ofNat_eq hb,
    ofNat_eq hc]

/-- A character of four bytes. -/
theorem encodeRune_four (hlow : 0x10000 ≤ value) (ha : 0xf0 + value / 262144 = a.toNat)
    (hb : 0x80 + value / 4096 % 64 = b.toNat) (hc : 0x80 + value / 64 % 64 = c.toNat)
    (hd : 0x80 + value % 64 = d.toNat) : encodeRune value = [a, b, c, d] := by
  rw [encodeRune, if_neg (by omega), if_neg (by omega), if_neg (by omega), ofNat_eq ha,
    ofNat_eq hb, ofNat_eq hc, ofNat_eq hd]

end Encode

section WellFormed

variable {first : UInt8} {rest : ByteString} {rune : Rune}

/-- A well-formed character is the encoding of its number. -/
theorem Form.encode (h : Form first rest rune) : rune.bytes = encodeRune rune.value := by
  obtain ⟨hone, htwo, hthree, hfour⟩ := width_range first
  cases h with
  | one hwidth => rw [encodeRune, if_pos (hone hwidth), UInt8.ofNat_toNat]
  | two hwidth hb =>
    have ha := htwo hwidth
    have hb := isTail_range hb
    simp only [tailBits]
    exact (encodeRune_two (by omega) (by omega) (by omega) (by omega)).symm
  | three hwidth hbytes =>
    have ha := hthree hwidth
    have hb := isSecond_range hbytes.1
    have hc := isTail_range hbytes.2
    simp only [tailBits]
    exact (encodeRune_three (by omega) (by omega) (by omega) (by omega) (by omega)).symm
  | four hwidth hbytes =>
    have ha := hfour hwidth
    have hb := isSecond_range hbytes.1
    have hc := isTail_range hbytes.2.1
    have hd := isTail_range hbytes.2.2
    simp only [tailBits]
    exact (encodeRune_four (by omega) (by omega) (by omega) (by omega) (by omega)).symm

/-- The bytes of a well-formed character that is not ASCII are not ASCII. -/
theorem Form.high (h : Form first rest rune) (hvalue : ¬ rune.value < 0x80) :
    ∀ byte ∈ rune.bytes, 0x80 ≤ byte.toNat := by
  obtain ⟨hone, htwo, hthree, hfour⟩ := width_range first
  cases h with
  | one hwidth => exact absurd (hone hwidth) hvalue
  | two hwidth hb =>
    have ha := htwo hwidth
    have hb := isTail_range hb
    simp only [List.forall_mem_cons]
    exact ⟨by omega, by omega, nofun⟩
  | three hwidth hbytes =>
    have ha := hthree hwidth
    have hb := isSecond_range hbytes.1
    have hc := isTail_range hbytes.2
    simp only [List.forall_mem_cons]
    exact ⟨by omega, by omega, by omega, nofun⟩
  | four hwidth hbytes =>
    have ha := hfour hwidth
    have hb := isSecond_range hbytes.1
    have hc := isTail_range hbytes.2.1
    have hd := isTail_range hbytes.2.2
    simp only [List.forall_mem_cons]
    exact ⟨by omega, by omega, by omega, by omega, nofun⟩

/-- A single byte is a character only below `0x80`. -/
theorem wellFormed_not_invalid (h : wellFormed first rest = some rune) : ¬ rune.Invalid := by
  rintro ⟨hvalue, hlength⟩
  rw [(wellFormed_iff.mp h).encode, hvalue] at hlength
  revert hlength
  decide

/-- What follows a well-formed character does not matter. -/
theorem wellFormed_append (h : wellFormed first rest = some rune) :
    ∃ tail more, rune.bytes = first :: tail ∧ rest = tail ++ more ∧
      ∀ other, wellFormed first (tail ++ other) = some rune := by
  simp only [wellFormed_iff] at h ⊢
  cases h with
  | one hwidth => exact ⟨[], _, rfl, rfl, fun _ => .one hwidth⟩
  | @two b _ hwidth hb => exact ⟨[b], _, rfl, rfl, fun _ => .two hwidth hb⟩
  | @three b c _ hwidth hbytes => exact ⟨[b, c], _, rfl, rfl, fun _ => .three hwidth hbytes⟩
  | @four b c d _ hwidth hbytes => exact ⟨[b, c, d], _, rfl, rfl, fun _ => .four hwidth hbytes⟩

/-- What is not well-formed is read as a single byte. -/
theorem decodeRune_invalid_iff : (decodeRune first rest).Invalid ↔ wellFormed first rest = none := by
  rw [decodeRune]
  cases h : wellFormed first rest with
  | none => exact iff_of_true ⟨rfl, rfl⟩ rfl
  | some rune => exact iff_of_false (wellFormed_not_invalid h) nofun

end WellFormed

/-! ## Valid texts -/

/-- The characters of a valid text, and of what follows it. -/
theorem runes_append {left : ByteString} (h : Valid left) (right : ByteString) :
    runes (left ++ right) = runes left ++ runes right := by
  induction left using runes_induction with
  | nil => rfl
  | cons first rest ih =>
    have hvalid : ¬ (decodeRune first rest).Invalid := h _ (by rw [runes_cons]; exact .head _)
    rw [decodeRune_invalid_iff] at hvalid
    obtain ⟨rune, hrune⟩ := Option.ne_none_iff_exists'.mp hvalid
    obtain ⟨tail, more, hbytes, rfl, hother⟩ := wellFormed_append hrune
    have hdecode : ∀ other, decodeRune first (tail ++ other) = rune := fun other => by
      rw [decodeRune, hother, Option.getD_some]
    have hdrop : ∀ other, (first :: (tail ++ other)).drop rune.bytes.length = other := fun other => by
      rw [hbytes, ← List.cons_append, List.drop_left' rfl]
    have hrunes : ∀ other, runes (first :: (tail ++ other)) = rune :: runes other := fun other => by
      rw [runes_cons, hdecode, hdrop]
    have hmore : Valid more := fun other hmem => h other (by
      rw [hrunes]
      exact .tail _ hmem)
    rw [hdecode, hdrop] at ih
    rw [List.cons_append, List.append_assoc, hrunes, hrunes, ih hmore, List.cons_append]

/-- Two valid texts after one another. -/
theorem Valid.append {left right : ByteString} (hleft : Valid left) (hright : Valid right) :
    Valid (left ++ right) := by
  intro rune hrune
  rw [runes_append hleft, List.mem_append] at hrune
  exact hrune.elim (hleft rune) (hright rune)

/-- A valid text for every item of a list. -/
theorem valid_flatMap {α : Type*} {items : List α} {text : α → ByteString}
    (h : ∀ item ∈ items, Valid (text item)) : Valid (items.flatMap text) := by
  induction items with
  | nil => exact fun rune hrune => absurd hrune List.not_mem_nil
  | cons item items ih =>
    rw [List.flatMap_cons]
    exact (h item List.mem_cons_self).append
      (ih fun other hmem => h other (List.mem_cons_of_mem _ hmem))

/-- An ASCII text is valid. -/
theorem valid_of_ascii {text : ByteString} (h : ∀ byte ∈ text, byte.toNat < 0x80) : Valid text := by
  induction text with
  | nil => exact fun rune hrune => absurd hrune List.not_mem_nil
  | cons first rest ih =>
    have hwidth : width first = 1 := by
      rw [width, if_pos]
      exact UInt8.lt_iff_toNat_lt.mpr (h first List.mem_cons_self)
    have hformed : wellFormed first [] = some ⟨first.toNat, [first]⟩ := by
      simp [wellFormed, hwidth]
    have hsingle : Valid [first] := by
      intro rune hrune
      rw [runes_cons, decodeRune, hformed] at hrune
      rw [List.mem_singleton.mp hrune]
      exact wellFormed_not_invalid hformed
    exact hsingle.append (ih fun byte hbyte => h byte (List.mem_cons_of_mem _ hbyte))

/-- A character that is well-formed is a valid text. -/
theorem valid_bytes {text : ByteString} {rune : Rune} (hmem : rune ∈ runes text)
    (h : ¬ rune.Invalid) : Valid rune.bytes := by
  induction text using runes_induction with
  | nil => exact absurd hmem List.not_mem_nil
  | cons first rest ih =>
    rw [runes_cons, List.mem_cons] at hmem
    rcases hmem with rfl | hmem
    · rw [decodeRune_invalid_iff] at h
      obtain ⟨rune, hrune⟩ := Option.ne_none_iff_exists'.mp h
      obtain ⟨tail, more, hbytes, -, hother⟩ := wellFormed_append hrune
      have hself : decodeRune first tail = rune := by
        have hown := hother []
        rw [List.append_nil] at hown
        rw [decodeRune, hown, Option.getD_some]
      rw [decodeRune, hrune, Option.getD_some, hbytes]
      intro other hmem
      rw [runes_cons, hself, hbytes, List.drop_length, runes_nil, List.mem_singleton] at hmem
      rw [hmem]
      exact wellFormed_not_invalid hrune
    · exact ih hmem

/-- A well-formed character is the encoding of its number. -/
theorem bytes_eq_encodeRune {text : ByteString} {rune : Rune} (hmem : rune ∈ runes text)
    (h : ¬ rune.Invalid) : rune.bytes = encodeRune rune.value := by
  induction text using runes_induction with
  | nil => exact absurd hmem List.not_mem_nil
  | cons first rest ih =>
    rw [runes_cons, List.mem_cons] at hmem
    rcases hmem with rfl | hmem
    · rw [decodeRune_invalid_iff] at h
      obtain ⟨rune, hrune⟩ := Option.ne_none_iff_exists'.mp h
      rw [decodeRune, hrune]
      exact (wellFormed_iff.mp hrune).encode
    · exact ih hmem

/-- The bytes of a character that is not ASCII are not ASCII. -/
theorem bytes_high {text : ByteString} {rune : Rune} (hmem : rune ∈ runes text)
    (h : ¬ rune.Invalid) (hvalue : ¬ rune.value < 0x80) :
    ∀ byte ∈ rune.bytes, 0x80 ≤ byte.toNat := by
  induction text using runes_induction with
  | nil => exact absurd hmem List.not_mem_nil
  | cons first rest ih =>
    rw [runes_cons, List.mem_cons] at hmem
    rcases hmem with rfl | hmem
    · rw [decodeRune_invalid_iff] at h
      obtain ⟨rune, hrune⟩ := Option.ne_none_iff_exists'.mp h
      rw [decodeRune, hrune, Option.getD_some] at hvalue ⊢
      exact (wellFormed_iff.mp hrune).high hvalue
    · exact ih hmem

/-- Repairing changes nothing exactly in a valid text. -/
theorem repaired_eq_iff (text : ByteString) : repaired text = text ↔ Valid text := by
  constructor
  · intro heq rune hrune hinvalid
    -- every replaced byte makes the text longer, and no other character makes it shorter
    have hlengths : ((runes text).map fun rune => rune.repaired.length).sum =
        ((runes text).map fun rune => rune.bytes.length).sum := by
      have hlength := congrArg List.length heq
      conv_rhs at hlength => rw [← flatMap_runes text]
      rwa [repaired, List.length_flatMap, List.length_flatMap] at hlength
    have hle : ∀ rune ∈ runes text, rune.bytes.length ≤ rune.repaired.length := by
      intro rune _
      rw [Rune.repaired]
      split
      · next hinvalid =>
        rw [hinvalid.2]
        decide
      · exact le_refl _
    have hlt := List.sum_lt_sum _ _ hle ⟨rune, hrune, by
      rw [Rune.repaired, if_pos hinvalid, hinvalid.2]
      decide⟩
    omega
  · intro hvalid
    conv_rhs => rw [← flatMap_runes text]
    rw [repaired]
    exact List.flatMap_congr fun rune hrune => by rw [Rune.repaired, if_neg (hvalid rune hrune)]

end Utf8
