import RepoManager.Api.Meaning

/-!
# Files and folders on the wire

The messages with messages in them. A child is encoded on its own, in any of its encodings, and
its bytes are one field of its parent.

`Folders.deserialize` is recursive on the bytes of the children: `deserialize_eq` is the equation
of the code, and every encoding of a tree of folders, of any depth, is read as the tree.
-/

open Protobuf

namespace RepoManager

namespace Api

namespace File

/-- What the fields of a message say about a file. -/
def ofFields (reader : BinaryReader) (fields : List Field) : File := ⟨lastText reader 1 fields⟩

/-- A field that can be read. -/
def Accepts (field : Field) : Prop := field.number = 1 → field.bytes.isSome

/-- Reading one more field. -/
theorem readField_ofFields (reader : BinaryReader) (fields : List Field) (field : Field) :
    (Accepts field ∧
        readField reader (ofFields reader fields) field =
          some (ofFields reader (fields ++ [field]))) ∨
      (¬ Accepts field ∧ readField reader (ofFields reader fields) field = none) := by
  unfold readField
  split
  · next hnumber =>
    cases hread : reader.readString field with
    | none => simp [Accepts, ← isSome_readString reader, hread, hnumber]
    | some text =>
      simp [Accepts, ← isSome_readString reader, hread, ofFields,
        lastText_concat_self hnumber hread]
  · next hnumber =>
    exact .inl ⟨fun heq => absurd heq hnumber, by rw [ofFields, ofFields,
      lastText_concat_of_ne hnumber]⟩

/-- Bytes are read as a file when they are a message whose names can be read. -/
theorem deserialize_eq_some_iff (reader : BinaryReader) (bytes : ByteString) (message : File) :
    deserialize reader bytes = some message ↔
      ∃ read, fields bytes = some read ∧ (∀ field ∈ read, Accepts field) ∧
        message = ofFields reader read := by
  have hempty : (⟨[]⟩ : File) = ofFields reader [] := rfl
  simp only [deserialize, Option.bind_eq_some_iff, hempty,
    foldlM_eq_some_iff (readField_ofFields reader)]

/-- An encoding of a file. -/
def Encodes (message : File) (bytes : ByteString) : Prop :=
  Utf8.Valid message.name ∧ ∃ written, (∀ item ∈ written, item.Writable) ∧
    Agree [1] written message.items ∧ bytes = encode written

/-- Every encoding of a file is read as the file. -/
theorem deserialize_of_encodes (reader : BinaryReader) {message : File} {bytes : ByteString}
    (h : Encodes message bytes) : deserialize reader bytes = some message := by
  obtain ⟨hname, written, hwritable, hagree, rfl⟩ := h
  refine (deserialize_eq_some_iff reader _ _).mpr
    ⟨written.map Item.field, fields_encode hwritable, ?_, ?_⟩
  · intro field hmem hnumber
    obtain ⟨item, hitem, rfl⟩ := List.mem_map.mp hmem
    rw [Item.number_field] at hnumber
    have hknown := hagree.mem hitem (by simp [hnumber])
    unfold items writeText at hknown
    split at hknown
    · rw [List.mem_singleton.mp hknown]
      rfl
    · cases hknown
  · rw [ofFields, lastText, hagree.values_eq List.mem_cons_self, items,
      values_writeText reader hname, getLastD_text]

/-- `serialize` writes an encoding. -/
theorem encodes_serialize {message : File} (hname : Utf8.Valid message.name)
    (hlength : message.serialize.length < 2 ^ 64) : Encodes message message.serialize := by
  refine ⟨hname, message.items, fun item hmem => ?_, Agree.refl _ _, rfl⟩
  have hitem := hmem
  unfold items writeText at hitem
  split at hitem
  · obtain rfl := List.mem_singleton.mp hitem
    exact ⟨by unfold WritableNumber; decide, (length_content_lt hmem).trans hlength⟩
  · cases hitem

end File

/-! ## Messages in messages -/

section Children

variable {Message : Type} {callback : ByteString → Option Message} {number : ℕ}

/-- Parts that are read one by one are read together. -/
theorem map_callback {messages : List Message} {parts : List ByteString}
    (h : List.Forall₂ (fun message bytes => callback bytes = some message) messages parts) :
    parts.map callback = messages.map some := by
  induction h with
  | nil => rfl
  | cons hread _ ih => rw [List.map_cons, List.map_cons, hread, ih]

/-- The messages that `writeRepeatedMessage` writes, in their order. -/
theorem values_writeRepeatedMessage {messages : List Message} {parts : List ByteString}
    (h : parts.map callback = messages.map some) :
    values (BinaryReader.readMessage callback) number
      ((writeRepeatedMessage number parts).map Item.field) = messages := by
  have hread (bytes : ByteString) : BinaryReader.readMessage callback
      (Item.plain number (.bytes bytes)).field = callback bytes := rfl
  have hnumber : (writeRepeatedMessage number parts).filter (fun item => item.number = number) =
      writeRepeatedMessage number parts := by
    simp [writeRepeatedMessage, Item.number]
  rw [values, filter_map_field, hnumber, writeRepeatedMessage, List.filterMap_map,
    List.filterMap_map]
  simp only [Function.comp_def, hread]
  calc parts.filterMap callback = (parts.map callback).filterMap id := by
        rw [List.filterMap_map, Function.id_comp]
    _ = messages := by
        rw [h, List.filterMap_map, Function.id_comp, List.filterMap_some]

/-- What `writeRepeatedMessage` writes can be read. -/
theorem isSome_readMessage {messages : List Message} {parts : List ByteString}
    (h : parts.map callback = messages.map some) {item : Item}
    (hmem : item ∈ writeRepeatedMessage number parts) :
    (BinaryReader.readMessage callback item.field).isSome := by
  obtain ⟨bytes, hbytes, rfl⟩ := List.mem_map.mp hmem
  have hread : callback bytes ∈ messages.map some := h ▸ List.mem_map_of_mem hbytes
  obtain ⟨message, -, heq⟩ := List.mem_map.mp hread
  simp [BinaryReader.readMessage, Item.field, Field.bytes, ← heq]

end Children

namespace Files

/-- A field that can be read. -/
def Accepts (reader : BinaryReader) (field : Field) : Prop :=
  field.number = 1 → (BinaryReader.readMessage (File.deserialize reader) field).isSome

/-- What the fields of a message say about a list of files. -/
def ofFields (reader : BinaryReader) (fields : List Field) : Files :=
  ⟨values (BinaryReader.readMessage (File.deserialize reader)) 1 fields⟩

/-- Reading one more field. -/
theorem readField_ofFields (reader : BinaryReader) (fields : List Field) (field : Field) :
    (Accepts reader field ∧
        readField reader (ofFields reader fields) field =
          some (ofFields reader (fields ++ [field]))) ∨
      (¬ Accepts reader field ∧ readField reader (ofFields reader fields) field = none) := by
  unfold readField
  split
  · next hnumber =>
    cases hread : BinaryReader.readMessage (File.deserialize reader) field with
    | none => simp [Accepts, hread, hnumber]
    | some file => simp [Accepts, hread, ofFields, values_concat_self _ _ hnumber hread]
  · next hnumber =>
    exact .inl ⟨fun heq => absurd heq hnumber, by rw [ofFields, ofFields,
      values_concat_of_ne _ _ hnumber]⟩

/-- Bytes are read as a list of files when they are a message whose files can be read. -/
theorem deserialize_eq_some_iff (reader : BinaryReader) (bytes : ByteString) (message : Files) :
    deserialize reader bytes = some message ↔
      ∃ read, fields bytes = some read ∧ (∀ field ∈ read, Accepts reader field) ∧
        message = ofFields reader read := by
  have hempty : (⟨[]⟩ : Files) = ofFields reader [] := rfl
  simp only [deserialize, Option.bind_eq_some_iff, hempty,
    foldlM_eq_some_iff (readField_ofFields reader)]

/-- An encoding of a list of files, each in an encoding of its own. -/
def Encodes (message : Files) (bytes : ByteString) : Prop :=
  ∃ parts, List.Forall₂ File.Encodes message.files parts ∧
    ∃ written, (∀ item ∈ written, item.Writable) ∧
      Agree [1] written (writeRepeatedMessage 1 parts) ∧ bytes = encode written

/-- The names in an encoding are UTF-8. -/
theorem valid_of_encodes {message : Files} {bytes : ByteString} (h : Encodes message bytes) :
    ∀ file ∈ message.files, Utf8.Valid file.name := by
  obtain ⟨parts, hparts, -⟩ := h
  generalize message.files = files at hparts
  induction hparts with
  | nil => simp
  | cons hfile _ ih => exact List.forall_mem_cons.mpr ⟨hfile.1, ih⟩

/-- Every encoding of a list of files is read as the list. -/
theorem deserialize_of_encodes (reader : BinaryReader) {message : Files} {bytes : ByteString}
    (h : Encodes message bytes) : deserialize reader bytes = some message := by
  obtain ⟨parts, hparts, written, hwritable, hagree, rfl⟩ := h
  have hread : parts.map (File.deserialize reader) = message.files.map some :=
    map_callback (hparts.imp fun _ _ hfile => File.deserialize_of_encodes reader hfile)
  refine (deserialize_eq_some_iff reader _ _).mpr
    ⟨written.map Item.field, fields_encode hwritable, ?_, ?_⟩
  · intro field hmem hnumber
    obtain ⟨item, hitem, rfl⟩ := List.mem_map.mp hmem
    rw [Item.number_field] at hnumber
    exact isSome_readMessage hread (hagree.mem hitem (by simp [hnumber]))
  · rw [ofFields, hagree.values_eq List.mem_cons_self, values_writeRepeatedMessage hread]

/-- `serialize` writes an encoding. -/
theorem encodes_serialize {message : Files}
    (hnames : ∀ file ∈ message.files, Utf8.Valid file.name)
    (hlength : message.serialize.length < 2 ^ 64) : Encodes message message.serialize := by
  have hpart {bytes : ByteString} (hbytes : bytes ∈ message.files.map File.serialize) :
      bytes.length < 2 ^ 64 := by
    have hmem : .plain 1 (.bytes bytes) ∈ message.items := List.mem_map.mpr ⟨bytes, hbytes, rfl⟩
    exact (length_content_lt hmem).trans hlength
  refine ⟨message.files.map File.serialize, ?_, message.items, ?_, Agree.refl _ _, rfl⟩
  · rw [List.forall₂_map_right_iff, List.forall₂_same]
    intro file hfile
    exact File.encodes_serialize (hnames file hfile) (hpart (List.mem_map_of_mem hfile))
  · intro item hitem
    obtain ⟨bytes, hbytes, rfl⟩ := List.mem_map.mp hitem
    exact ⟨by unfold WritableNumber; decide, hpart hbytes⟩

end Files

/-! ## Trees of folders -/

namespace Folders

/-- The numbers of the fields of a folder. -/
def numbers : List ℕ := [1, 2, 3]

/-- The fields of a folder, given the bytes of its children. -/
def itemsWith (message : Folders) (parts : List ByteString) : List Item :=
  writeText 1 message.name ++ (message.root.map (writeBool 2)).toList ++
    writeRepeatedMessage 3 parts

/-- `serialize`, with the fields of the folder apart. -/
theorem serialize_eq (message : Folders) :
    message.serialize = encode (message.itemsWith (message.children.map serialize)) := by
  cases message
  rw [serialize, itemsWith]

section Reading

variable (reader : BinaryReader) (child : ByteString → Option Folders)

/-- A field that can be read, given how a child is read. -/
def Accepts (field : Field) : Prop :=
  (field.number = 1 → field.bytes.isSome) ∧ (field.number = 2 → field.varint.isSome) ∧
    (field.number = 3 → (BinaryReader.readMessage child field).isSome)

/-- What the fields of a message say about a folder, given how a child is read. -/
def ofFields (fields : List Field) : Folders where
  name := lastText reader 1 fields
  root := (values BinaryReader.readBool 2 fields).getLast?
  children := values (BinaryReader.readMessage child) 3 fields

/-- Reading one more field. -/
theorem readField_ofFields (fields : List Field) (field : Field) :
    (Accepts child field ∧
        readField reader child (ofFields reader child fields) field =
          some (ofFields reader child (fields ++ [field]))) ∨
      (¬ Accepts child field ∧
        readField reader child (ofFields reader child fields) field = none) := by
  unfold readField
  split
  · next hnumber =>
    cases hread : reader.readString field with
    | none => simp [Accepts, ← isSome_readString reader, hread, hnumber]
    | some text =>
      simp [Accepts, ← isSome_readString reader, hread, hnumber, ofFields,
        lastText_concat_self hnumber hread, values_concat_of_ne]
  · next hnumber =>
    cases hread : field.varint with
    | none => simp [Accepts, BinaryReader.readBool, hread, hnumber]
    | some value =>
      have hbool : BinaryReader.readBool field = some (decide (value ≠ 0)) := by
        simp [BinaryReader.readBool, hread]
      simp [Accepts, hread, hbool, hnumber, ofFields, values_concat_self _ _ hnumber hbool,
        lastText_concat_of_ne, values_concat_of_ne]
  · next hnumber =>
    cases hread : BinaryReader.readMessage child field with
    | none => simp [Accepts, hread, hnumber]
    | some message =>
      simp [Accepts, hread, hnumber, ofFields, values_concat_self _ _ hnumber hread,
        lastText_concat_of_ne, values_concat_of_ne]
  · next hname hroot hchild =>
    refine .inl ⟨⟨fun h => absurd h hname, fun h => absurd h hroot, fun h => absurd h hchild⟩, ?_⟩
    rw [ofFields, ofFields, lastText_concat_of_ne hname, values_concat_of_ne _ _ hroot,
      values_concat_of_ne _ _ hchild]

/-- Enough depth for the bytes is enough. -/
theorem deserializeUpTo_congr {depth other : ℕ} {bytes : ByteString}
    (hdepth : bytes.length < depth) (hother : bytes.length < other) :
    deserializeUpTo reader depth bytes = deserializeUpTo reader other bytes := by
  induction depth generalizing other bytes with
  | zero => exact absurd hdepth (Nat.not_lt_zero _)
  | succ depth ih =>
    cases other with
    | zero => exact absurd hother (Nat.not_lt_zero _)
    | succ other =>
      rw [deserializeUpTo, deserializeUpTo]
      cases hread : fields bytes with
      | none => rfl
      | some read =>
        refine foldlM_congr (fun field hfield message => ?_) empty
        have hchild : BinaryReader.readMessage (deserializeUpTo reader depth) field =
            BinaryReader.readMessage (deserializeUpTo reader other) field := by
          unfold BinaryReader.readMessage
          cases hbytes : field.bytes with
          | none => rfl
          | some content =>
            have hlength := length_bytes_lt hread hfield hbytes
            exact ih (by omega) (by omega)
        rw [readField, readField, hchild]

/-- The equation of `Folders.deserialize`: the children are read by the function itself. -/
theorem deserialize_eq (bytes : ByteString) :
    deserialize reader bytes = (fields bytes).bind fun fields =>
      fields.foldlM (readField reader (deserialize reader)) empty := by
  rw [deserialize, deserializeUpTo]
  cases hread : fields bytes with
  | none => rfl
  | some read =>
    refine foldlM_congr (fun field hfield message => ?_) empty
    have hchild : BinaryReader.readMessage (deserializeUpTo reader bytes.length) field =
        BinaryReader.readMessage (deserialize reader) field := by
      unfold BinaryReader.readMessage
      cases hbytes : field.bytes with
      | none => rfl
      | some content =>
        exact deserializeUpTo_congr reader (length_bytes_lt hread hfield hbytes)
          (Nat.lt_succ_self _)
    rw [readField, readField, hchild]

/-- Bytes are read as a folder when they are a message whose known fields can be read; then the
folder is what the fields say. -/
theorem deserialize_eq_some_iff (bytes : ByteString) (message : Folders) :
    deserialize reader bytes = some message ↔
      ∃ read, fields bytes = some read ∧
        (∀ field ∈ read, Accepts (deserialize reader) field) ∧
          message = ofFields reader (deserialize reader) read := by
  have hempty : empty = ofFields reader (deserialize reader) [] := rfl
  simp only [deserialize_eq reader bytes, Option.bind_eq_some_iff, hempty,
    foldlM_eq_some_iff (readField_ofFields reader (deserialize reader))]

end Reading

/-- An encoding of a tree of folders, each child in an encoding of its own. -/
inductive Encodes : Folders → ByteString → Prop where
  | intro {message : Folders} {parts : List ByteString} {written : List Item}
    (hname : Utf8.Valid message.name) (hlength : message.children.length = parts.length)
    (hchildren : ∀ pair ∈ message.children.zip parts, Encodes pair.1 pair.2)
    (hwritable : ∀ item ∈ written, item.Writable)
    (hagree : Agree numbers written (message.itemsWith parts)) :
    Encodes message (encode written)

section Written

variable {child : ByteString → Option Folders} {message : Folders} {parts : List ByteString}

/-- The fields of a folder that is written can be read. -/
theorem accepts_of_mem (hread : parts.map child = message.children.map some) {item : Item}
    (h : item ∈ message.itemsWith parts) : Accepts child item.field := by
  have hparts := h
  simp only [itemsWith, List.mem_append] at h
  rcases h with (h | h) | h
  · unfold writeText at h
    split at h
    · rw [List.mem_singleton.mp h]
      simp [Accepts, writeString, Item.field, Field.bytes]
    · cases h
  · obtain ⟨root, -, rfl⟩ := Option.map_eq_some_iff.mp (Option.mem_toList.mp h)
    simp [Accepts, writeBool, Item.field, Field.varint]
  · have hfield := isSome_readMessage hread h
    obtain ⟨bytes, -, rfl⟩ := List.mem_map.mp h
    exact ⟨fun hnumber => by simp [Item.field] at hnumber,
      fun hnumber => by simp [Item.field] at hnumber, fun _ => hfield⟩

/-- What is written says what the folder is. -/
theorem ofFields_itemsWith (reader : BinaryReader) (hname : Utf8.Valid message.name)
    (hread : parts.map child = message.children.map some) :
    ofFields reader child ((message.itemsWith parts).map Item.field) = message := by
  have hroot : values BinaryReader.readBool 2
      ((message.root.map (writeBool 2)).toList.map Item.field) = message.root.toList := by
    cases hfound : message.root with
    | none => rfl
    | some root => cases root <;> rfl
  have hroot_ne {α : Type} (read : Field → Option α) {number : ℕ} (h : 2 ≠ number) :
      values read number ((message.root.map (writeBool 2)).toList.map Item.field) = [] := by
    refine values_of_ne read fun item hmem => ?_
    obtain ⟨root, -, rfl⟩ := Option.map_eq_some_iff.mp (Option.mem_toList.mp hmem)
    exact h
  have hchildren_ne {α : Type} (read : Field → Option α) {number : ℕ} (h : 3 ≠ number) :
      values read number ((writeRepeatedMessage 3 parts).map Item.field) = [] := by
    refine values_of_ne read fun item hmem => ?_
    obtain ⟨bytes, -, rfl⟩ := List.mem_map.mp hmem
    exact h
  have hlast : message.root.toList.getLast? = message.root := by
    cases message.root <;> rfl
  simp (disch := decide) only [ofFields, lastText, itemsWith, List.map_append, values_append,
    values_writeText reader hname, values_writeText_of_ne, hroot, hroot_ne, hchildren_ne,
    values_writeRepeatedMessage hread, List.append_nil, List.nil_append, getLastD_text, hlast]
  cases message
  rfl

end Written

/-- Every encoding of a tree of folders is read as the tree. -/
theorem deserialize_of_encodes (reader : BinaryReader) {message : Folders} {bytes : ByteString}
    (h : Encodes message bytes) : deserialize reader bytes = some message := by
  induction h with
  | @intro message parts written hname hlength _ hwritable hagree ih =>
    have hread : parts.map (deserialize reader) = message.children.map some :=
      map_callback (List.forall₂_iff_zip.mpr ⟨hlength, fun hmem => ih _ hmem⟩)
    have hvalues {α : Type} (read : Field → Option α) (number : ℕ) (hnumber : number ∈ numbers) :
        values read number (written.map Item.field) =
          values read number ((message.itemsWith parts).map Item.field) :=
      hagree.values_eq hnumber
    refine (deserialize_eq_some_iff reader _ _).mpr
      ⟨written.map Item.field, fields_encode hwritable, ?_, ?_⟩
    · intro field hmem
      obtain ⟨item, hitem, rfl⟩ := List.mem_map.mp hmem
      have haccepts (hnumber : item.number ∈ numbers) :
          Accepts (deserialize reader) item.field :=
        accepts_of_mem hread (hagree.mem hitem hnumber)
      refine ⟨fun h => ?_, fun h => ?_, fun h => ?_⟩
      · exact (haccepts (by simp_all [numbers])).1 h
      · exact (haccepts (by simp_all [numbers])).2.1 h
      · exact (haccepts (by simp_all [numbers])).2.2 h
    · rw [← ofFields_itemsWith reader hname hread]
      simp (disch := decide) only [ofFields, lastText, hvalues]

/-- The names of a tree of folders. -/
def names : Folders → List ByteString
  | ⟨name, _, children⟩ => name :: children.flatMap names

/-- `serialize` writes an encoding. -/
theorem encodes_serialize : ∀ message : Folders, (∀ name ∈ message.names, Utf8.Valid name) →
    message.serialize.length < 2 ^ 64 → Encodes message message.serialize
  | ⟨name, root, children⟩, hnames, hlength => by
    rw [serialize_eq] at hlength ⊢
    rw [names, List.forall_mem_cons] at hnames
    obtain ⟨hname, hchildren⟩ := hnames
    have hpart {bytes : ByteString} (hbytes : bytes ∈ children.map serialize) :
        bytes.length < 2 ^ 64 := by
      have hmem : .plain 3 (.bytes bytes) ∈
          (⟨name, root, children⟩ : Folders).itemsWith (children.map serialize) :=
        List.mem_append_right _ (List.mem_map.mpr ⟨bytes, hbytes, rfl⟩)
      exact (length_content_lt hmem).trans hlength
    have hencodes : List.Forall₂ Encodes children (children.map serialize) := by
      rw [List.forall₂_map_right_iff, List.forall₂_same]
      intro child hchild
      exact encodes_serialize child
        (fun other hother => hchildren other (List.mem_flatMap.mpr ⟨child, hchild, hother⟩))
        (hpart (List.mem_map_of_mem hchild))
    refine .intro hname (by simp) (fun _ hpair => List.forall₂_zip hencodes hpair)
      (fun item hitem => ?_) (Agree.refl _ _)
    have hmem := hitem
    simp only [itemsWith, List.mem_append] at hitem
    rcases hitem with (h | h) | h
    · unfold writeText at h
      split at h
      · obtain rfl := List.mem_singleton.mp h
        exact ⟨by unfold WritableNumber; decide, (length_content_lt hmem).trans hlength⟩
      · cases h
    · obtain ⟨value, -, rfl⟩ := Option.map_eq_some_iff.mp (Option.mem_toList.mp h)
      refine ⟨by unfold WritableNumber; decide, ?_⟩
      cases value
      · exact Nat.two_pow_pos 64
      · exact Nat.one_lt_two_pow (by decide)
    · obtain ⟨bytes, hbytes, rfl⟩ := List.mem_map.mp h
      exact ⟨by unfold WritableNumber; decide, hpart hbytes⟩
termination_by message => sizeOf message
decreasing_by
  have hsize := List.sizeOf_lt_of_mem hchild
  simp only [mk.sizeOf_spec]
  omega

end Folders

end Api

end RepoManager
