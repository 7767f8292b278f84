import RepoManager.Api.Meaning

/-!
# Packages on the wire

A package is determined by the fields of its message, number by number. An encoding writes those
that `serialize` writes, in any order of the numbers and with any further numbers in between.

Every encoding is read as the package, with the size as a double holds it, and `serialize` writes
an encoding.
-/

open Protobuf

namespace RepoManager

namespace Api

namespace RPM

/-- The numbers of the fields of a package. -/
def numbers : List ℕ := List.range' 1 16

/-- What the fields of a message say about a package. -/
def ofFields (reader : BinaryReader) (fields : List Field) : RPM where
  name := lastText reader 1 fields
  version := lastText reader 2 fields
  release := lastText reader 3 fields
  architecture := lastText reader 4 fields
  distribution := lastText reader 5 fields
  groups := values reader.readString 6 fields
  size := lastNumber reader 7 fields
  license := lastText reader 8 fields
  source := values reader.readString 9 fields
  buildTime := lastText reader 10 fields
  buildHost := lastText reader 11 fields
  vendor := lastText reader 12 fields
  packager := lastText reader 13 fields
  url := lastText reader 14 fields
  summary := lastText reader 15 fields
  description := lastText reader 16 fields

/-- A field that can be read: the size is a varint, and all else is length-delimited. -/
def Accepts (field : Field) : Prop :=
  field.number ∈ numbers → if field.number = 7 then field.varint.isSome else field.bytes.isSome

/-- Reading one more field. -/
theorem readField_ofFields (reader : BinaryReader) (fields : List Field) (field : Field) :
    (Accepts field ∧
        readField reader (ofFields reader fields) field =
          some (ofFields reader (fields ++ [field]))) ∨
      (¬ Accepts field ∧ readField reader (ofFields reader fields) field = none) := by
  unfold readField
  simp only
  split
  case h_7 hnumber =>
    cases hread : reader.readUint64 field with
    | none => simp [Accepts, ← isSome_readUint64 reader, hread, hnumber, numbers]
    | some value =>
      simp [Accepts, ← isSome_readUint64 reader, hread, hnumber, ofFields,
        lastNumber_concat_self hnumber hread, lastText_concat_of_ne, values_concat_of_ne]
  case h_17 =>
    simp only [imp_false] at *
    have hother : ∀ number ∈ numbers, field.number ≠ number := by
      simp [numbers, List.range', *]
    have htext (number : ℕ) (hnumber : number ∈ numbers) :
        lastText reader number (fields ++ [field]) = lastText reader number fields :=
      lastText_concat_of_ne (hother number hnumber) fields
    have hvalues (number : ℕ) (hnumber : number ∈ numbers) :
        values reader.readString number (fields ++ [field]) =
          values reader.readString number fields :=
      values_concat_of_ne reader.readString number (hother number hnumber) fields
    have hsize : lastNumber reader 7 (fields ++ [field]) = lastNumber reader 7 fields :=
      lastNumber_concat_of_ne (hother 7 (by decide)) fields
    refine .inl ⟨fun hmem => absurd rfl (hother _ hmem), ?_⟩
    simp (disch := decide) only [ofFields, htext, hvalues, hsize]
  all_goals
    next hnumber =>
    cases hread : reader.readString field with
    | none => simp [Accepts, ← isSome_readString reader, hread, hnumber, numbers]
    | some text =>
      simp [Accepts, ← isSome_readString reader, hread, hnumber, ofFields,
        lastText_concat_self hnumber hread, values_concat_self _ _ hnumber hread,
        lastText_concat_of_ne, lastNumber_concat_of_ne, values_concat_of_ne]

/-- Bytes are read as a package when they are a message whose known fields can be read; then the
package is what the fields say. -/
theorem deserialize_eq_some_iff (reader : BinaryReader) (bytes : ByteString) (message : RPM) :
    deserialize reader bytes = some message ↔
      ∃ read, fields bytes = some read ∧ (∀ field ∈ read, Accepts field) ∧
        message = ofFields reader read := by
  have hempty : empty = ofFields reader [] := rfl
  simp only [deserialize, Option.bind_eq_some_iff, hempty,
    foldlM_eq_some_iff (readField_ofFields reader)]

/-- The strings of a package. -/
def texts (message : RPM) : List ByteString :=
  [message.name, message.version, message.release, message.architecture, message.distribution,
    message.license, message.buildTime, message.buildHost, message.vendor, message.packager,
    message.url, message.summary, message.description] ++ message.groups ++ message.source

/-- An encoding of a package: its strings are UTF-8, and the fields of every known number are
those that `serialize` writes. -/
def Encodes (message : RPM) (bytes : ByteString) : Prop :=
  (∀ text ∈ texts message, Utf8.Valid text) ∧ ∃ written, (∀ item ∈ written, item.Writable) ∧
    Agree numbers written (items message) ∧ bytes = encode written

/-- The fields of a package that is written can be read. -/
theorem accepts_of_mem_items {message : RPM} {item : Item} (h : item ∈ items message) :
    Accepts item.field := by
  have htext (number : ℕ) (value : ByteString) (hnumber : number ≠ 7)
      (hmem : item ∈ writeText number value) : Accepts item.field := by
    unfold writeText at hmem
    split at hmem
    · obtain rfl := List.mem_singleton.mp hmem
      simp [Accepts, writeString, Item.field, Field.bytes, hnumber]
    · cases hmem
  have hrepeated (number : ℕ) (values : List ByteString) (hnumber : number ≠ 7)
      (hmem : item ∈ writeRepeatedString number values) : Accepts item.field := by
    obtain ⟨value, -, rfl⟩ := List.mem_map.mp hmem
    simp [Accepts, writeString, Item.field, Field.bytes, hnumber]
  simp only [items, List.mem_append] at h
  have hsize (hmem : item ∈ if message.size ≠ 0 then [writeUint64 7 message.size] else []) :
      Accepts item.field := by
    split at hmem
    · obtain rfl := List.mem_singleton.mp hmem
      simp [Accepts, writeUint64, Item.field, Field.varint]
    · cases hmem
  rcases h with
    ((((((((((((((h | h) | h) | h) | h) | h) | h) | h) | h) | h) | h) | h) | h) | h) | h) | h
  case inl.inl.inl.inl.inl.inl.inl.inl.inl.inr => exact hsize h
  all_goals first | exact htext _ _ (by decide) h | exact hrepeated _ _ (by decide) h

/-- What is written says what the package is, with its size as a number of the language. -/
theorem ofFields_items (reader : BinaryReader) {message : RPM}
    (htexts : ∀ text ∈ texts message, Utf8.Valid text) :
    ofFields reader ((items message).map Item.field) =
      { message with size := reader.number message.size } := by
  have hwritten : values reader.readUint64 7
      ((if message.size ≠ 0 then [writeUint64 7 message.size] else []).map Item.field) =
        if message.size ≠ 0 then [reader.number message.size] else [] := by
    split
    · simp [values, writeUint64, Item.field, BinaryReader.readUint64, Field.varint]
    · rfl
  have hstrings {number : ℕ} (h : 7 ≠ number) : values reader.readString number
      ((if message.size ≠ 0 then [writeUint64 7 message.size] else []).map Item.field) = [] := by
    refine values_of_ne _ fun item hmem => ?_
    split at hmem
    · rwa [List.mem_singleton.mp hmem]
    · cases hmem
  have hlast : (if message.size ≠ 0 then [reader.number message.size] else []).getLastD 0 =
      reader.number message.size := by
    by_cases h : message.size = 0
    · simp [h, reader.number_of_le 0 (Nat.zero_le _)]
    · simp [h]
  simp only [texts, List.mem_append, or_imp, forall_and, List.mem_cons, forall_eq,
    List.not_mem_nil, false_implies, and_true] at htexts
  obtain ⟨⟨⟨h₁, h₂, h₃, h₄, h₅, h₈, h₁₀, h₁₁, h₁₂, h₁₃, h₁₄, h₁₅, h₁₆⟩, h₆⟩, h₉⟩ := htexts
  simp (disch := decide) only [ofFields, lastText, lastNumber, items, List.map_append,
    values_append, hwritten, hstrings, values_writeText_of_ne, values_writeRepeatedString_of_ne,
    values_writeText reader h₁, values_writeText reader h₂, values_writeText reader h₃,
    values_writeText reader h₄, values_writeText reader h₅, values_writeRepeatedString reader h₆,
    values_writeText reader h₈, values_writeRepeatedString reader h₉, values_writeText reader h₁₀,
    values_writeText reader h₁₁, values_writeText reader h₁₂, values_writeText reader h₁₃,
    values_writeText reader h₁₄, values_writeText reader h₁₅, values_writeText reader h₁₆,
    List.append_nil, List.nil_append, getLastD_text, hlast]

/-- Items that agree on the known numbers say the same about the package. -/
theorem ofFields_congr (reader : BinaryReader) {first second : List Item}
    (h : Agree numbers first second) :
    ofFields reader (first.map Item.field) = ofFields reader (second.map Item.field) := by
  have hvalues {α : Type} (read : Field → Option α) (number : ℕ) (hnumber : number ∈ numbers) :
      values read number (first.map Item.field) = values read number (second.map Item.field) :=
    h.values_eq hnumber
  simp (disch := decide) only [ofFields, lastText, lastNumber, hvalues]

/-- Every encoding of a package is read as the package, with its size as a number of the
language. -/
theorem deserialize_of_encodes (reader : BinaryReader) {message : RPM} {bytes : ByteString}
    (h : Encodes message bytes) :
    deserialize reader bytes = some { message with size := reader.number message.size } := by
  obtain ⟨htexts, written, hwritable, hagree, rfl⟩ := h
  refine (deserialize_eq_some_iff reader _ _).mpr
    ⟨written.map Item.field, fields_encode hwritable, ?_, ?_⟩
  · intro field hmem hnumber
    obtain ⟨item, hitem, rfl⟩ := List.mem_map.mp hmem
    rw [Item.number_field] at hnumber
    have hknown := accepts_of_mem_items (hagree.mem hitem hnumber)
    exact hknown (by rwa [Item.number_field])
  · rw [ofFields_congr reader hagree, ofFields_items reader htexts]

/-- `serialize` writes an encoding. -/
theorem encodes_serialize {message : RPM} (htexts : ∀ text ∈ texts message, Utf8.Valid text)
    (hsize : message.size < 2 ^ 64) (hlength : (serialize message).length < 2 ^ 64) :
    Encodes message (serialize message) := by
  refine ⟨htexts, items message, fun item hmem => ?_, Agree.refl _ _, rfl⟩
  have hbytes (number : ℕ) (content : ByteString) (hnumber : WritableNumber number)
      (heq : item = .plain number (.bytes content)) : item.Writable := by
    rw [heq] at hmem ⊢
    exact ⟨hnumber, (length_content_lt hmem).trans hlength⟩
  have htext (number : ℕ) (value : ByteString) (hnumber : WritableNumber number)
      (h : item ∈ writeText number value) : item.Writable := by
    unfold writeText at h
    split at h
    · exact hbytes number value hnumber (List.mem_singleton.mp h)
    · cases h
  have hrepeated (number : ℕ) (values : List ByteString) (hnumber : WritableNumber number)
      (h : item ∈ writeRepeatedString number values) : item.Writable := by
    obtain ⟨value, -, rfl⟩ := List.mem_map.mp h
    exact hbytes number value hnumber rfl
  have hnumeral (h : item ∈ if message.size ≠ 0 then [writeUint64 7 message.size] else []) :
      item.Writable := by
    split at h
    · rw [List.mem_singleton.mp h]
      exact ⟨by unfold WritableNumber; decide, hsize⟩
    · cases h
  have hmem := hmem
  simp only [items, List.mem_append] at hmem
  rcases hmem with
    ((((((((((((((h | h) | h) | h) | h) | h) | h) | h) | h) | h) | h) | h) | h) | h) | h) | h
  case inl.inl.inl.inl.inl.inl.inl.inl.inl.inr => exact hnumeral h
  all_goals first
    | exact htext _ _ (by unfold WritableNumber; decide) h
    | exact hrepeated _ _ (by unfold WritableNumber; decide) h

end RPM

end Api

end RepoManager
