import RepoManager.Api.Replies

/-!
# Round trips of the generated classes

What each class writes it reads again, and what it reads does not depend on the order of the
numbers nor on numbers it does not know.
-/

open Protobuf

namespace RepoManager

namespace Api

/-- Every class reads back what it writes: strings that are UTF-8, packages with their size as a
double holds it, and folders of any depth. -/
theorem deserialize_serialize (reader : BinaryReader) :
    (∀ message : File, Utf8.Valid message.name → message.serialize.length < 2 ^ 64 →
      File.deserialize reader message.serialize = some message) ∧
    (∀ message : Files, (∀ file ∈ message.files, Utf8.Valid file.name) →
      message.serialize.length < 2 ^ 64 →
      Files.deserialize reader message.serialize = some message) ∧
    (∀ message : RPM, (∀ text ∈ RPM.texts message, Utf8.Valid text) → message.size < 2 ^ 64 →
      (RPM.serialize message).length < 2 ^ 64 →
      RPM.deserialize reader (RPM.serialize message) =
        some { message with size := reader.number message.size }) ∧
    ∀ message : Folders, (∀ name ∈ message.names, Utf8.Valid name) →
      message.serialize.length < 2 ^ 64 →
      Folders.deserialize reader message.serialize = some message := by
  refine ⟨?_, ?_, ?_, ?_⟩
  · intro message hname hlength
    exact File.deserialize_of_encodes reader (File.encodes_serialize hname hlength)
  · intro message hnames hlength
    exact Files.deserialize_of_encodes reader (Files.encodes_serialize hnames hlength)
  · intro message htexts hsize hlength
    exact RPM.deserialize_of_encodes reader (RPM.encodes_serialize htexts hsize hlength)
  · intro message hnames hlength
    exact Folders.deserialize_of_encodes reader (message.encodes_serialize hnames hlength)

/-- A tree of two levels is read back. -/
theorem sample_deserialize_serialize :
    Folders.deserialize .sample
        (Folders.serialize ⟨ascii "kes", some true, [.leaf (ascii "noarch")]⟩) =
      some ⟨ascii "kes", some true, [.leaf (ascii "noarch")]⟩ := by
  refine (deserialize_serialize .sample).2.2.2 _ ?_ ?_
  · simp only [Folders.names, Folders.leaf, List.flatMap_cons, List.flatMap_nil]
    decide
  · simp only [Folders.serialize, Folders.leaf, List.map_cons, List.map_nil]
    decide

end Api

end RepoManager
