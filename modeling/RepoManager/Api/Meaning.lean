import RepoManager.Api.Messages

/-!
# The fields of a message

What a class collects from the fields of a message, number by number: the last string or number,
and the values of a repeated field in their order. Beside each writer stand the values that it
writes, and that it writes none of another number.
-/

open Protobuf

namespace RepoManager

namespace Api

section Meaning

variable (reader : BinaryReader) (number : ℕ)

/-- The last string of a number, or the empty one. -/
def lastText (fields : List Field) : ByteString :=
  (values reader.readString number fields).getLastD []

/-- The last number of a number, or zero. -/
def lastNumber (fields : List Field) : ℕ := (values reader.readUint64 number fields).getLastD 0

variable {reader number}

/-- A further string of the number replaces the last one. -/
theorem lastText_concat_self {field : Field} {text : ByteString} (hnumber : field.number = number)
    (hread : reader.readString field = some text) (fields : List Field) :
    lastText reader number (fields ++ [field]) = text := by
  rw [lastText, values_concat_self reader.readString number hnumber hread]
  simp [List.getLastD_eq_getLast?]

/-- A field of another number changes no string. -/
theorem lastText_concat_of_ne {field : Field} (hnumber : field.number ≠ number)
    (fields : List Field) :
    lastText reader number (fields ++ [field]) = lastText reader number fields := by
  rw [lastText, values_concat_of_ne reader.readString number hnumber, lastText]

/-- A further number replaces the last one. -/
theorem lastNumber_concat_self {field : Field} {value : ℕ} (hnumber : field.number = number)
    (hread : reader.readUint64 field = some value) (fields : List Field) :
    lastNumber reader number (fields ++ [field]) = value := by
  rw [lastNumber, values_concat_self reader.readUint64 number hnumber hread]
  simp [List.getLastD_eq_getLast?]

/-- A field of another number changes no number. -/
theorem lastNumber_concat_of_ne {field : Field} (hnumber : field.number ≠ number)
    (fields : List Field) :
    lastNumber reader number (fields ++ [field]) = lastNumber reader number fields := by
  rw [lastNumber, values_concat_of_ne reader.readUint64 number hnumber, lastNumber]

/-- A length-delimited field is a string to the reader. -/
theorem isSome_readString (reader : BinaryReader) (field : Field) :
    (reader.readString field).isSome = field.bytes.isSome := Option.isSome_map

/-- A varint field is a number to the reader. -/
theorem isSome_readUint64 (reader : BinaryReader) (field : Field) :
    (reader.readUint64 field).isSome = field.varint.isSome := Option.isSome_map

end Meaning

section Written

variable {α : Type} (read : Field → Option α) (reader : BinaryReader) {number other : ℕ}

/-- Items of other numbers have no values of a number. -/
theorem values_of_ne {written : List Item} (h : ∀ item ∈ written, item.number ≠ number) :
    values read number (written.map Item.field) = [] := by
  rw [values, filter_map_field, List.filter_eq_nil_iff.mpr (by simpa using h)]
  rfl

/-- `writeText` writes items of its number. -/
theorem number_of_mem_writeText {value : ByteString} {item : Item}
    (h : item ∈ writeText number value) : item.number = number := by
  unfold writeText at h
  split at h
  · rw [List.mem_singleton.mp h]
    rfl
  · cases h

/-- `writeRepeatedString` writes items of its number. -/
theorem number_of_mem_writeRepeatedString {texts : List ByteString} {item : Item}
    (h : item ∈ writeRepeatedString number texts) : item.number = number := by
  obtain ⟨text, -, rfl⟩ := List.mem_map.mp h
  rfl

/-- `writeText` writes no values of another number. -/
theorem values_writeText_of_ne (h : other ≠ number) (value : ByteString) :
    values read number ((writeText other value).map Item.field) = [] :=
  values_of_ne read fun item hmem => by rwa [number_of_mem_writeText hmem]

/-- `writeRepeatedString` writes no values of another number. -/
theorem values_writeRepeatedString_of_ne (h : other ≠ number) (texts : List ByteString) :
    values read number ((writeRepeatedString other texts).map Item.field) = [] :=
  values_of_ne read fun item hmem => by rwa [number_of_mem_writeRepeatedString hmem]

/-- The string that `writeText` writes. -/
theorem values_writeText {value : ByteString} (h : Utf8.Valid value) :
    values reader.readString number ((writeText number value).map Item.field) =
      if value ≠ [] then [value] else [] := by
  by_cases hempty : value = []
  · simp [writeText, values, hempty]
  · simp [writeText, writeString, values, Item.field, hempty, BinaryReader.readString,
      Field.bytes, reader.text_of_valid value h]

/-- The strings that `writeRepeatedString` writes. -/
theorem values_writeRepeatedString {texts : List ByteString}
    (h : ∀ text ∈ texts, Utf8.Valid text) :
    values reader.readString number ((writeRepeatedString number texts).map Item.field) =
      texts := by
  induction texts with
  | nil => simp [writeRepeatedString, values]
  | cons text texts ih =>
    obtain ⟨htext, htexts⟩ := List.forall_mem_cons.mp h
    have hcons : (writeRepeatedString number (text :: texts)).map Item.field =
        [⟨number, some (.bytes text)⟩] ++ (writeRepeatedString number texts).map Item.field := rfl
    rw [hcons, values_append, ih htexts]
    simp [values, BinaryReader.readString, Field.bytes, reader.text_of_valid text htext]

/-- A string that is written unless it is empty, or else the empty one. -/
theorem getLastD_text (text : ByteString) :
    (if text ≠ [] then [text] else []).getLastD [] = text := by
  by_cases h : text = []
  · simp [h]
  · simp [h]

end Written

end Api

end RepoManager
