import RepoManager.Api.Listing
import RepoManager.Api.Package
import RepoManager.Authorization
import RepoManager.Client.Details
import RepoManager.Store

/-!
# From the reply to the client

The server encodes with `proto.Marshal`, which is code of another package: `Marshal` says that it
writes some encoding of a message whose strings are UTF-8, and that it fails on others. With the
generated classes on the side of the client this is a wire format, so that what the handlers
answer is what the client gets to see.
-/

open LexicalPath

namespace RepoManager

namespace Api

/-- `proto.Marshal` on the messages of `proto/`: it writes an encoding, and it does not fail on
UTF-8 text of less than two gigabytes. -/
structure Marshal where
  file : File → Except GoError ByteString
  files : Files → Except GoError ByteString
  rpm : RPM → Except GoError ByteString
  folders : Folders → Except GoError ByteString
  file_encodes : ∀ message data, file message = .ok data → message.Encodes data
  files_encodes : ∀ message data, files message = .ok data → message.Encodes data
  rpm_encodes : ∀ message data, rpm message = .ok data → RPM.Encodes message data
  folders_encodes : ∀ message data, folders message = .ok data → message.Encodes data
  file_ok : ∀ message : File, Utf8.Valid message.name →
    message.serialize.length < 2 ^ 31 → ∃ data, file message = .ok data
  files_ok : ∀ message : Files, (∀ file ∈ message.files, Utf8.Valid file.name) →
    message.serialize.length < 2 ^ 31 → ∃ data, files message = .ok data
  rpm_ok : ∀ message : RPM, (∀ text ∈ RPM.texts message, Utf8.Valid text) →
    message.size < 2 ^ 64 → (RPM.serialize message).length < 2 ^ 31 → ∃ data, rpm message = .ok data
  folders_ok : ∀ message : Folders, (∀ name ∈ message.names, Utf8.Valid name) →
    message.serialize.length < 2 ^ 31 → ∃ data, folders message = .ok data

/-- A folder without children and without the flag of the root. -/
def Folders.leaf (name : ByteString) : Folders := ⟨name, none, []⟩

/-- The wire format between the server and the client. -/
def Marshal.proto (marshal : Marshal) (reader : BinaryReader) : Proto where
  marshalFile name := marshal.file ⟨name⟩
  unmarshalFile data := (File.deserialize reader data).map File.name
  marshalFiles names := marshal.files ⟨names.map File.mk⟩
  unmarshalFiles data :=
    (Files.deserialize reader data).map fun message => message.files.map File.name
  marshalRPM := marshal.rpm
  marshalFolders folders :=
    marshal.folders ⟨folders.name, folders.root, folders.children.map Folders.leaf⟩
  file_roundTrip := by
    intro name data h
    rw [File.deserialize_of_encodes reader (marshal.file_encodes _ data h)]
    rfl
  files_roundTrip := by
    intro names data h
    rw [Files.deserialize_of_encodes reader (marshal.files_encodes _ data h)]
    simp [Function.comp_def]

/-- A runtime that reads text and numbers as they are. -/
def BinaryReader.sample : BinaryReader where
  text bytes := bytes
  number value := value
  text_of_valid _ _ := rfl
  number_of_le _ _ := rfl

/-- A writer that writes the fields in the order of their numbers. -/
def Marshal.inOrder : Marshal where
  file message :=
    if Utf8.Valid message.name ∧ message.serialize.length < 2 ^ 64 then .ok message.serialize
    else .error (ascii "proto: field api.Files.File.name contains invalid UTF-8")
  files message :=
    if (∀ file ∈ message.files, Utf8.Valid file.name) ∧ message.serialize.length < 2 ^ 64 then
      .ok message.serialize
    else .error (ascii "proto: field api.Files.File.name contains invalid UTF-8")
  rpm message :=
    if (∀ text ∈ RPM.texts message, Utf8.Valid text) ∧ message.size < 2 ^ 64 ∧
        (RPM.serialize message).length < 2 ^ 64 then
      .ok (RPM.serialize message)
    else .error (ascii "proto: field api.RPM contains invalid UTF-8")
  folders message :=
    if (∀ name ∈ message.names, Utf8.Valid name) ∧ message.serialize.length < 2 ^ 64 then
      .ok message.serialize
    else .error (ascii "proto: field api.Folders.name contains invalid UTF-8")
  file_encodes := by
    intro message data h
    split at h
    · next hvalid =>
      obtain rfl := Except.ok.inj h
      exact File.encodes_serialize hvalid.1 hvalid.2
    · cases h
  files_encodes := by
    intro message data h
    split at h
    · next hvalid =>
      obtain rfl := Except.ok.inj h
      exact Files.encodes_serialize hvalid.1 hvalid.2
    · cases h
  rpm_encodes := by
    intro message data h
    split at h
    · next hvalid =>
      obtain rfl := Except.ok.inj h
      exact RPM.encodes_serialize hvalid.1 hvalid.2.1 hvalid.2.2
    · cases h
  folders_encodes := by
    intro message data h
    split at h
    · next hvalid =>
      obtain rfl := Except.ok.inj h
      exact message.encodes_serialize hvalid.1 hvalid.2
    · cases h
  file_ok := by
    intro message hvalid hlength
    exact ⟨_, if_pos ⟨hvalid, hlength.trans (by decide)⟩⟩
  files_ok := by
    intro message hvalid hlength
    exact ⟨_, if_pos ⟨hvalid, hlength.trans (by decide)⟩⟩
  rpm_ok := by
    intro message hvalid hsize hlength
    exact ⟨_, if_pos ⟨hvalid, hsize, hlength.trans (by decide)⟩⟩
  folders_ok := by
    intro message hvalid hlength
    exact ⟨_, if_pos ⟨hvalid, hlength.trans (by decide)⟩⟩

section Handlers

variable (marshal : Marshal) (reader : BinaryReader) {env : Externals} {vars : Mux.Vars}
  {req : Request} {world : World}

/-- A reply with data is the result of the service call for the repository. -/
theorem reply_eq_respondData_iff (data : ByteString)
    (call : Config.RepoVarPath → Except GoError ByteString) :
    (withRepoVarPath env vars world fun repo => .of (respondResult (call repo)) world).reply =
        respondData data ↔
      ∃ repo, world.config.getRepoVarPath env.cwd (repoVar vars) = .ok repo ∧
        call repo = .ok data := by
  unfold withRepoVarPath
  cases hrepo : world.config.getRepoVarPath env.cwd (repoVar vars) with
  | error panic => simp [Outcome.of, respondData]
  | ok repo =>
    cases hcall : call repo with
    | error err => simp [Outcome.of, hcall, respondResult, respondError, respondData]
    | ok found => simp [Outcome.of, hcall, respondResult, respondData]

/-- The files of a folder reach the client exactly when all their names are UTF-8; one file with
another name, and nobody can list the folder. -/
theorem handleFiles_decoded_iff (hproto : env.proto = marshal.proto reader)
    {repo : Config.RepoVarPath} {objects : List (Segment × Node)}
    (hrepo : world.config.getRepoVarPath env.cwd (repoVar vars) = .ok repo)
    (hobjects : getOdjectsInFolder world.tree (FilesService.dirPath repo.root repo.dir
      (clean (folderVar vars)) repo.name) = .ok objects)
    (hlength : (Files.serialize ⟨(FilesPath.fileNames objects).map File.mk⟩).length < 2 ^ 31) :
    (∃ data, (handleFiles env vars req world).reply = respondData data ∧
        Files.deserialize reader data = some ⟨(FilesPath.fileNames objects).map File.mk⟩) ↔
      ∀ name ∈ FilesPath.fileNames objects, Utf8.Valid name := by
  have hcall : FilesService.getFiles env.proto world.tree repo.root repo.dir
      (clean (folderVar vars)) repo.name =
        marshal.files ⟨(FilesPath.fileNames objects).map File.mk⟩ := by
    rw [FilesService.getFiles, FilesPath.getFiles, hobjects, hproto]
    rfl
  simp only [handleFiles, reply_eq_respondData_iff, hrepo, Except.ok.injEq, exists_eq_left', hcall]
  constructor
  · rintro ⟨data, hdata, -⟩ name hname
    exact Files.valid_of_encodes (marshal.files_encodes _ data hdata) ⟨name⟩
      (List.mem_map_of_mem hname)
  · intro hvalid
    obtain ⟨data, hdata⟩ := marshal.files_ok _ (by simpa using hvalid) hlength
    exact ⟨data, hdata, Files.deserialize_of_encodes reader (marshal.files_encodes _ data hdata)⟩

/-- The details of a file reach the panel as the package that was read, with the size as a double
holds it. -/
theorem handleFileInfo_decoded (hproto : env.proto = marshal.proto reader) {data : ByteString}
    (h : (handleFileInfo env vars req world).reply = respondData data) :
    ∃ repo content pkg, world.config.getRepoVarPath env.cwd (repoVar vars) = .ok repo ∧
      osReadFile world.tree (FilesService.filePath repo.root repo.dir (clean (folderVar vars))
        repo.name (clean (fileVar vars))) = .ok content ∧
      (env.rpmRead content).1 = .ok pkg ∧
      Details.Reply.metadata (RPM.deserialize reader) (.response data) =
        some { pkg with size := reader.number pkg.size } ∧
      (pkg.size ≤ 2 ^ 53 →
        Details.Reply.metadata (RPM.deserialize reader) (.response data) = some pkg) := by
  obtain ⟨repo, hrepo, hcall⟩ := (reply_eq_respondData_iff data _).mp h
  rw [FilesService.fileInfo, FilesPath.fileInfo, hproto] at hcall
  obtain ⟨content, hcontent, hread⟩ := bind_eq_ok_iff.mp hcall
  obtain ⟨pkg, hpkg, hdata⟩ := bind_eq_ok_iff.mp hread
  have hdecoded := RPM.deserialize_of_encodes reader (marshal.rpm_encodes pkg data hdata)
  refine ⟨repo, content, pkg, hrepo, hcontent, hpkg, hdecoded, fun hsize => ?_⟩
  rw [reader.number_of_le _ hsize] at hdecoded
  exact hdecoded

end Handlers

/-- The variables of a request for a file of the sample repository. -/
def sampleVars : Mux.Vars :=
  [(ascii "repoName", ascii "kes"), (ascii "folderId", ascii "noarch"),
    (ascii "fileId", ascii "kes.rpm")]

/-- The server with the fields in order on the wire. -/
def sampleEnv : Externals := { Externals.sample with proto := Marshal.inOrder.proto .sample }

/-- The folder of the sample package. -/
def sampleFolder : Location := UnixRepo.sample.dirOf noarch

/-- The server with one package. -/
def sampleWorld : World where
  config := World.sample.config
  tree := (FileTree.wayTo sampleFolder).put sampleFolder Store.kesRpm (.file samplePackage)
    (by rw [FileTree.node_wayTo, if_pos (List.prefix_refl _)])
    (by rw [FileTree.node_wayTo, if_neg (FileTree.not_child_prefix _ _)]; simp)

/-- The client gets the name of the sample package. -/
theorem sample_handleFiles_decoded :
    ∃ data, (handleFiles sampleEnv sampleVars sampleSignIn sampleWorld).reply = respondData data ∧
      Files.deserialize .sample data = some ⟨[⟨ascii "kes.rpm"⟩]⟩ := by
  have hrepo : sampleWorld.config.getRepoVarPath sampleEnv.cwd (repoVar sampleVars) =
      .ok ⟨ascii "/srv", ascii "kes", ascii "kes"⟩ := rfl
  have hobjects : getOdjectsInFolder sampleWorld.tree (FilesService.dirPath (ascii "/srv")
      (ascii "kes") (clean (folderVar sampleVars)) (ascii "kes")) =
        .ok [(Store.kesRpm, .file samplePackage)] := by
    rfl
  exact (handleFiles_decoded_iff Marshal.inOrder .sample rfl hrepo hobjects (by decide)).mpr
    (by decide)

/-- The panel gets the sample package. -/
theorem sample_handleFileInfo_decoded :
    ∃ data, (handleFileInfo sampleEnv sampleVars sampleSignIn sampleWorld).reply =
        respondData data ∧
      Details.Reply.metadata (RPM.deserialize .sample) (.response data) = some sampleRPM := by
  have hrepo : sampleWorld.config.getRepoVarPath sampleEnv.cwd (repoVar sampleVars) =
      .ok ⟨ascii "/srv", ascii "kes", ascii "kes"⟩ := rfl
  have hcontent : osReadFile sampleWorld.tree (FilesService.filePath (ascii "/srv") (ascii "kes")
      (clean (folderVar sampleVars)) (ascii "kes") (clean (fileVar sampleVars))) =
        .ok samplePackage := rfl
  have hread : (sampleEnv.rpmRead samplePackage).1 = .ok sampleRPM :=
    congrArg Prod.fst sampleRead_samplePackage
  obtain ⟨data, hdata⟩ :=
    Marshal.inOrder.rpm_ok sampleRPM (by decide) (by decide) (by decide)
  have hreply : (handleFileInfo sampleEnv sampleVars sampleSignIn sampleWorld).reply =
      respondData data := by
    refine (reply_eq_respondData_iff data _).mpr ⟨_, hrepo, ?_⟩
    rw [FilesService.fileInfo, FilesPath.fileInfo, hcontent]
    exact bind_eq_ok_iff.mpr ⟨samplePackage, rfl, bind_eq_ok_iff.mpr ⟨sampleRPM, hread, hdata⟩⟩
  obtain ⟨repo, content, pkg, hfound, hopened, hparsed, -, hshown⟩ :=
    handleFileInfo_decoded Marshal.inOrder .sample rfl hreply
  obtain rfl := Except.ok.inj (hrepo.symm.trans hfound)
  obtain rfl := Except.ok.inj (hcontent.symm.trans hopened)
  obtain rfl := Except.ok.inj (hread.symm.trans hparsed)
  exact ⟨data, hreply, hshown (by decide)⟩

end Api

end RepoManager
