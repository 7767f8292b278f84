import RepoManager.Library.Protobuf
import RepoManager.Library.Utf8
import RepoManager.Repository.Files

/-!
# The generated messages of the client

`www/src/api`: the classes that are generated from `proto/`, with what they write and what they
read. A message is read field by field in the order of the bytes; a scalar keeps its last value, a
repeated field collects its values, and a number that the class does not know is skipped.

The runtime is code of another package. `BinaryReader` says what is relied on: text that is UTF-8
is read as it is, and a number that a double holds is read exactly.
-/

open Protobuf

namespace RepoManager

namespace Api

/-- `BinaryReader`: how the bytes of a string and a 64-bit number become values of the language. -/
structure BinaryReader where
  text : ByteString → ByteString
  number : ℕ → ℕ
  text_of_valid : ∀ bytes, Utf8.Valid bytes → text bytes = bytes
  number_of_le : ∀ value ≤ 2 ^ 53, number value = value

namespace BinaryReader

variable (reader : BinaryReader)

/-- `readString` -/
def readString (field : Field) : Option ByteString := field.bytes.map reader.text

/-- `readUint64` -/
def readUint64 (field : Field) : Option ℕ := field.varint.map reader.number

/-- `readBool` -/
def readBool (field : Field) : Option Bool := field.varint.map fun value => value ≠ 0

/-- `readMessage`, with the callback on the bytes of the message. -/
def readMessage {Message : Type} (callback : ByteString → Option Message) (field : Field) :
    Option Message :=
  field.bytes.bind callback

end BinaryReader

/-- `writeString` -/
def writeString (number : ℕ) (value : ByteString) : Item := .plain number (.bytes value)

/-- `writeRepeatedString` -/
def writeRepeatedString (number : ℕ) (values : List ByteString) : List Item :=
  values.map (writeString number)

/-- `writeUint64` -/
def writeUint64 (number value : ℕ) : Item := .plain number (.varint value)

/-- `writeBool` -/
def writeBool (number : ℕ) (value : Bool) : Item := .plain number (.varint value.toNat)

/-- `writeRepeatedMessage`, on the bytes that the callback writes for each message. -/
def writeRepeatedMessage (number : ℕ) (messages : List ByteString) : List Item :=
  messages.map fun bytes => .plain number (.bytes bytes)

/-- A string is written unless it is empty. -/
def writeText (number : ℕ) (value : ByteString) : List Item :=
  if value.length ≠ 0 then [writeString number value] else []

/-! ## Files -/

/-- `Files.File` -/
structure File where
  name : ByteString
  deriving DecidableEq

/-- `Files` -/
structure Files where
  files : List File
  deriving DecidableEq

namespace File

/-- The fields that `File.serialize` writes. -/
def items (message : File) : List Item := writeText 1 message.name

/-- `File.serialize` -/
def serialize (message : File) : ByteString := encode message.items

/-- One pass of the loop of `File.deserialize`. -/
def readField (reader : BinaryReader) (message : File) (field : Field) : Option File :=
  match field.number with
  | 1 => (reader.readString field).map fun name => { message with name }
  | _ => some message

/-- `File.deserialize` -/
def deserialize (reader : BinaryReader) (bytes : ByteString) : Option File :=
  (fields bytes).bind fun fields => fields.foldlM (readField reader) ⟨[]⟩

end File

namespace Files

/-- The fields that `Files.serialize` writes. -/
def items (message : Files) : List Item :=
  writeRepeatedMessage 1 (message.files.map File.serialize)

/-- `Files.serialize` -/
def serialize (message : Files) : ByteString := encode message.items

/-- One pass of the loop of `Files.deserialize`. -/
def readField (reader : BinaryReader) (message : Files) (field : Field) : Option Files :=
  match field.number with
  | 1 =>
    (BinaryReader.readMessage (File.deserialize reader) field).map fun file =>
      { message with files := message.files ++ [file] }
  | _ => some message

/-- `Files.deserialize` -/
def deserialize (reader : BinaryReader) (bytes : ByteString) : Option Files :=
  (fields bytes).bind fun fields => fields.foldlM (readField reader) ⟨[]⟩

end Files

/-! ## Packages -/

namespace RPM

/-- A message of class `RPM` without fields. -/
def empty : RPM where
  name := []
  version := []
  release := []
  architecture := []
  distribution := []
  groups := []
  size := 0
  license := []
  source := []
  buildTime := []
  buildHost := []
  vendor := []
  url := []
  packager := []
  summary := []
  description := []

/-- The fields that `RPM.serialize` writes. -/
def items (message : RPM) : List Item :=
  writeText 1 message.name ++
    writeText 2 message.version ++
    writeText 3 message.release ++
    writeText 4 message.architecture ++
    writeText 5 message.distribution ++
    writeRepeatedString 6 message.groups ++
    (if message.size ≠ 0 then [writeUint64 7 message.size] else []) ++
    writeText 8 message.license ++
    writeRepeatedString 9 message.source ++
    writeText 10 message.buildTime ++
    writeText 11 message.buildHost ++
    writeText 12 message.vendor ++
    writeText 13 message.packager ++
    writeText 14 message.url ++
    writeText 15 message.summary ++
    writeText 16 message.description

/-- `RPM.serialize` -/
def serialize (message : RPM) : ByteString := encode (items message)

/-- One pass of the loop of `RPM.deserialize`. -/
def readField (reader : BinaryReader) (message : RPM) (field : Field) : Option RPM :=
  let readString := reader.readString field
  match field.number with
  | 1 => readString.map fun name => { message with name }
  | 2 => readString.map fun version => { message with version }
  | 3 => readString.map fun release => { message with release }
  | 4 => readString.map fun architecture => { message with architecture }
  | 5 => readString.map fun distribution => { message with distribution }
  | 6 => readString.map fun group => { message with groups := message.groups ++ [group] }
  | 7 => (reader.readUint64 field).map fun size => { message with size }
  | 8 => readString.map fun license => { message with license }
  | 9 => readString.map fun source => { message with source := message.source ++ [source] }
  | 10 => readString.map fun buildTime => { message with buildTime }
  | 11 => readString.map fun buildHost => { message with buildHost }
  | 12 => readString.map fun vendor => { message with vendor }
  | 13 => readString.map fun packager => { message with packager }
  | 14 => readString.map fun url => { message with url }
  | 15 => readString.map fun summary => { message with summary }
  | 16 => readString.map fun description => { message with description }
  | _ => some message

/-- `RPM.deserialize` -/
def deserialize (reader : BinaryReader) (bytes : ByteString) : Option RPM :=
  (fields bytes).bind fun fields => fields.foldlM (readField reader) empty

end RPM

/-! ## Folders -/

/-- `Folders`; `root` is `none` when the message does not have it. -/
structure Folders where
  name : ByteString
  root : Option Bool
  children : List Folders

namespace Folders

/-- A message of class `Folders` without fields. -/
def empty : Folders := ⟨[], none, []⟩

/-- `Folders.serialize` -/
def serialize : Folders → ByteString
  | ⟨name, root, children⟩ =>
    encode (writeText 1 name ++
      (root.map (writeBool 2)).toList ++
      writeRepeatedMessage 3 (children.map serialize))

/-- One pass of the loop of `Folders.deserialize`, given how a child is read. -/
def readField (reader : BinaryReader) (child : ByteString → Option Folders) (message : Folders)
    (field : Field) : Option Folders :=
  match field.number with
  | 1 => (reader.readString field).map fun name => { message with name }
  | 2 => (BinaryReader.readBool field).map fun root => { message with root := some root }
  | 3 =>
    (BinaryReader.readMessage child field).map fun folders =>
      { message with children := message.children ++ [folders] }
  | _ => some message

/-- A message whose children are nested at most so deep. -/
def deserializeUpTo (reader : BinaryReader) : ℕ → ByteString → Option Folders
  | 0, _ => none
  | depth + 1, bytes =>
    (fields bytes).bind fun fields =>
      fields.foldlM (readField reader (deserializeUpTo reader depth)) empty

/-- `Folders.deserialize`; a message is nested less deep than it has bytes. -/
def deserialize (reader : BinaryReader) (bytes : ByteString) : Option Folders :=
  deserializeUpTo reader (bytes.length + 1) bytes

end Folders

end Api

end RepoManager
