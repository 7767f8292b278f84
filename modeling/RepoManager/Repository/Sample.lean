import RepoManager.Repository.Files

/-!
# A small wire format and a small package

Instances of the parameters of the repository layer on which the model can be evaluated: the
protocol-buffer encoding of names shorter than 126 bytes, with its round trip, and a package
whose header states its architecture and nothing else.
-/

open LexicalPath

namespace RepoManager

/-- A length-delimited field with number 1. -/
def shortField (bytes : ByteString) : ByteString :=
  0x0a :: UInt8.ofNat bytes.length :: bytes

/-- The fields of a message whose fields all have number 1. -/
def readShortFields : ℕ → ByteString → Option (List ByteString)
  | _, [] => some []
  | fuel + 1, 0x0a :: count :: rest =>
    if count.toNat ≤ rest.length then
      (readShortFields fuel (rest.drop count.toNat)).map (rest.take count.toNat :: ·)
    else none
  | _, _ => none

/-- Fields shorter than 256 bytes are read as they were written. -/
theorem readShortFields_flatten (fields : List ByteString) (fuel : ℕ)
    (hfuel : fields.length ≤ fuel) (hshort : ∀ field ∈ fields, field.length < 256) :
    readShortFields fuel (fields.map shortField).flatten = some fields := by
  induction fields generalizing fuel with
  | nil => cases fuel <;> rfl
  | cons field rest ih =>
    obtain ⟨fuel, rfl⟩ : ∃ smaller, fuel = smaller + 1 := ⟨fuel - 1, by
      rw [List.length_cons] at hfuel
      omega⟩
    have hcount : (UInt8.ofNat field.length).toNat = field.length :=
      UInt8.toNat_ofNat_of_lt' (hshort field List.mem_cons_self)
    have hrest := ih fuel (Nat.le_of_succ_le_succ hfuel) fun other hother =>
      hshort other (List.mem_cons_of_mem _ hother)
    simp [shortField, readShortFields, hcount, hrest]

/-- One field alone is read back. -/
theorem readShortFields_shortField {bytes : ByteString} (h : bytes.length < 256) :
    readShortFields 1 (shortField bytes) = some [bytes] := by
  have hone := readShortFields_flatten [bytes] 1 le_rfl (by simpa using h)
  simpa using hone

/-- There are no more fields than bytes. -/
theorem length_le_length_flatten (fields : List ByteString) :
    fields.length ≤ (fields.map shortField).flatten.length := by
  induction fields with
  | nil => exact le_rfl
  | cons field rest ih =>
    simp only [List.map_cons, List.flatten_cons, List.length_append, List.length_cons, shortField]
    omega

/-- Names shorter than 256 bytes are read as they were written. -/
theorem mapM_readShortFields (names : List ByteString) (h : ∀ name ∈ names, name.length < 256) :
    (names.map shortField).mapM (readShortFields 1) = some (names.map fun name => [name]) := by
  induction names with
  | nil => rfl
  | cons name rest ih =>
    have hname := readShortFields_shortField (h name List.mem_cons_self)
    have hrest := ih fun other hother => h other (List.mem_cons_of_mem _ hother)
    rw [List.map_cons, List.mapM_cons, hname, hrest]
    rfl

/-- The wire format of messages with short names. -/
def Proto.short : Proto where
  marshalFile name :=
    if name.length < 126 then .ok (shortField name) else .error (ascii "proto: name too long")
  unmarshalFile data := (readShortFields 1 data).map List.flatten
  marshalFiles names :=
    if ∀ name ∈ names, name.length < 126 then
      .ok ((names.map shortField).map shortField).flatten
    else .error (ascii "proto: name too long")
  unmarshalFiles data :=
    (readShortFields data.length data).bind fun fields =>
      (fields.mapM (readShortFields 1)).map fun names => names.map List.flatten
  marshalRPM _ := .error (ascii "proto: not supported")
  marshalFolders _ := .error (ascii "proto: not supported")
  file_roundTrip := by
    intro name data h
    split at h
    · next hshort =>
      obtain rfl := Except.ok.inj h
      rw [readShortFields_shortField (by omega)]
      simp
    · exact nomatch h
  files_roundTrip := by
    intro names data h
    split at h
    · next hshort =>
      obtain rfl := Except.ok.inj h
      have hfields := readShortFields_flatten (names.map shortField) _
        (length_le_length_flatten _) (by
          intro field hfield
          obtain ⟨name, hname, rfl⟩ := List.mem_map.mp hfield
          have := hshort name hname
          simp only [shortField, List.length_cons]
          omega)
      rw [hfields, Option.bind_some, mapM_readShortFields names fun name hname => by
        have := hshort name hname
        omega]
      simp [Function.comp_def]
    · exact nomatch h

/-- The lead, the signature and the header of a package that states its architecture alone. -/
def samplePrelude : ByteString :=
  [0xed, 0xab, 0xee, 0xdb, 3, 0, 0, 0, 0, 1] ++ List.replicate 66 0 ++ [0, 1, 0, 5] ++
    List.replicate 16 0 ++ [0x8e, 0xad, 0xe8, 1] ++ List.replicate 12 0 ++
    [0x8e, 0xad, 0xe8, 1, 0, 0, 0, 0, 0, 0, 0, 1, 0, 0, 0, 7] ++
    [0, 0, 3, 0xfe, 0, 0, 0, 6, 0, 0, 0, 0, 0, 0, 0, 1] ++ ascii "noarch" ++ [0]

/-- What is reported about that package. -/
def sampleRPM : RPM where
  name := []
  version := []
  release := []
  architecture := ascii "noarch"
  distribution := []
  groups := []
  size := 0
  license := []
  source := []
  buildTime := []
  buildHost := []
  vendor := []
  url := []
  packager := []
  summary := []
  description := []

/-- A package with a payload. -/
def samplePackage : ByteString := samplePrelude ++ [0x1f, 0x8b, 0x08]

/-- `rpm.Read` on the packages with that prelude. -/
def sampleRead : RpmRead := fun file =>
  if samplePrelude <+: file then (.ok sampleRPM, file.drop samplePrelude.length)
  else (.error (ascii "rpm: bad magic"), file)

/-- The package is read, and its payload is left. -/
theorem sampleRead_samplePackage :
    sampleRead samplePackage = (.ok sampleRPM, [0x1f, 0x8b, 0x08]) := by
  rw [samplePackage, sampleRead, if_pos (List.prefix_append _ _), List.drop_left]

end RepoManager
