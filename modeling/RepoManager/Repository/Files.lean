import RepoManager.Library.FileTree

/-!
# The repository of files

`internal/repository`: the functions that touch the file system. A path is resolved to a
location of the tree; the tree threads through every function, so that what a failing call
leaves behind is visible. Protocol-buffer encoding, RPM parsing and the shell are code of
other packages and enter as parameters.

`FileUploading` can fail at four points, two of them after its first side effect. `UploadFaults`
chooses which of them happen; `UploadFaults.none` is a run without I/O failures.
-/

open LexicalPath

namespace RepoManager

/-- The text of an `error`. -/
abbrev GoError := ByteString

/-- The system's text for a path that cannot be opened. -/
def errnoText : OpenError → ByteString
  | .notExist => ascii "no such file or directory"
  | .notDirectory => ascii "not a directory"
  | .isDirectory => ascii "is a directory"

/-- The text of a `PathError`. -/
def pathError (op path : ByteString) (err : OpenError) : GoError :=
  op ++ ascii " " ++ path ++ ascii ": " ++ errnoText err

/-- `os.Create` -/
def osCreate (tree : FileTree) (path : ByteString) : Except GoError FileTree :=
  match tree.create (absolute path) with
  | .ok created => .ok created
  | .error err => .error (pathError (ascii "open") path err)

/-- `os.ReadFile`; a directory is opened and fails to be read. -/
def osReadFile (tree : FileTree) (path : ByteString) : Except GoError ByteString :=
  match tree.readFile (absolute path) with
  | .ok content => .ok content
  | .error .isDirectory => .error (pathError (ascii "read") path .isDirectory)
  | .error err => .error (pathError (ascii "open") path err)

/-- `getOdjectsInFolder`; a file is opened and fails to be listed. -/
def getOdjectsInFolder (tree : FileTree) (path : ByteString) :
    Except GoError (List (Segment × Node)) :=
  match tree.readDir (absolute path) with
  | .ok objects => .ok objects
  | .error err =>
    let op := if (tree.node (absolute path)).isSome then ascii "readdirent" else ascii "open"
    .error (pathError op path err)

/-- A path is listed when its location can be read as a directory. -/
theorem getOdjectsInFolder_eq_ok_iff (tree : FileTree) (path : ByteString)
    (objects : List (Segment × Node)) :
    getOdjectsInFolder tree path = .ok objects ↔ tree.readDir (absolute path) = .ok objects := by
  rw [getOdjectsInFolder]
  cases tree.readDir (absolute path) with
  | error err => exact ⟨nofun, nofun⟩
  | ok found => simp only [Except.ok.injEq]

/-- What the handlers report about a package. -/
structure RPM where
  name : ByteString
  version : ByteString
  release : ByteString
  architecture : ByteString
  distribution : ByteString
  groups : List ByteString
  size : Nat
  license : ByteString
  source : List ByteString
  buildTime : ByteString
  buildHost : ByteString
  vendor : ByteString
  url : ByteString
  packager : ByteString
  summary : ByteString
  description : ByteString
  deriving DecidableEq

/-- A folder message: the root of a repository or one of its architectures. -/
structure Folders where
  name : ByteString
  root : Option Bool
  children : List ByteString
  deriving DecidableEq

/-- The wire format of the messages in `proto/`: what is encoded is decoded again. -/
structure Proto where
  marshalFile : ByteString → Except GoError ByteString
  unmarshalFile : ByteString → Option ByteString
  marshalFiles : List ByteString → Except GoError ByteString
  unmarshalFiles : ByteString → Option (List ByteString)
  marshalRPM : RPM → Except GoError ByteString
  marshalFolders : Folders → Except GoError ByteString
  file_roundTrip : ∀ name data, marshalFile name = .ok data → unmarshalFile data = some name
  files_roundTrip : ∀ names data, marshalFiles names = .ok data → unmarshalFiles data = some names

/-- `rpm.Read`: the parsed package, and what the reader still has to deliver. -/
abbrev RpmRead := ByteString → Except GoError RPM × ByteString

/-- A shell: standard output, standard error, the error of the run, and the tree it leaves. -/
abbrev Shell := ByteString → FileTree → (ByteString × ByteString × Option GoError) × FileTree

/-- The I/O failures that one upload meets. -/
structure UploadFaults where
  /-- `io.ReadAll` fails. -/
  readAll : Option GoError
  /-- `os.Create` fails although the path could be opened. -/
  create : Option GoError
  /-- `Write` stops with an error after some bytes. -/
  write : Option (Nat × GoError)

/-- No I/O failure. -/
def UploadFaults.none : UploadFaults := ⟨.none, .none, .none⟩

namespace FilesPath

/-- The names of the objects that are no directories. -/
def fileNames (objects : List (Segment × Node)) : List ByteString :=
  (objects.filter fun object => object.2 ≠ .dir).map fun object => object.1.val

/-- `FilesPath.GetFiles` -/
def getFiles (proto : Proto) (tree : FileTree) (dirPath : ByteString) :
    Except GoError ByteString := do
  let objects ← getOdjectsInFolder tree dirPath
  proto.marshalFiles (fileNames objects)

/-- `FilesPath.FileUploading`: the reply and the tree left behind. `file` is what the reader
still has to deliver. -/
def fileUploading (proto : Proto) (faults : UploadFaults) (tree : FileTree)
    (filePath file : ByteString) : Except GoError ByteString × FileTree :=
  match faults.readAll, faults.create with
  | some err, _ => (.error err, tree)
  | none, some err => (.error err, tree)
  | none, none =>
    match osCreate tree filePath with
    | .error err => (.error err, tree)
    | .ok created =>
      match faults.write with
      | some (count, err) => (.error err, created.write (absolute filePath) (file.take count))
      | none => (proto.marshalFile (base filePath), created.write (absolute filePath) file)

/-- `FilesPath.FileDownloading` -/
def fileDownloading (tree : FileTree) (filePath : ByteString) : Except GoError ByteString :=
  osReadFile tree filePath

/-- `FilesPath.FileInfo`: `rpm.Open` reads the file as `rpm.Read` does. -/
def fileInfo (proto : Proto) (rpmRead : RpmRead) (tree : FileTree) (filePath : ByteString) :
    Except GoError ByteString := do
  let content ← osReadFile tree filePath
  let pkg ← (rpmRead content).1
  proto.marshalRPM pkg

/-- `FilesPath.FileReindexes` on Unix. -/
def fileReindexes (shellout : Shell) (tree : FileTree) (exec repoPath repoName : ByteString) :
    Except GoError ByteString × FileTree :=
  let cmd := exec ++ ascii " " ++ repoPath ++ ascii " " ++ repoName
  match shellout cmd tree with
  | ((_, errout, some err), after) => (.error (err ++ ascii ", " ++ errout), after)
  | ((out, _, none), after) => (.ok out, after)

/-- A successful upload met no failure, opened its path and wrote the whole buffer. -/
theorem fileUploading_eq_ok_iff (proto : Proto) (faults : UploadFaults) (tree : FileTree)
    (filePath file data : ByteString) (after : FileTree) :
    fileUploading proto faults tree filePath file = (.ok data, after) ↔
      faults = .none ∧ ∃ created, tree.create (absolute filePath) = .ok created ∧
        after = created.write (absolute filePath) file ∧
        proto.marshalFile (base filePath) = .ok data := by
  obtain ⟨readAll, create, write⟩ := faults
  cases readAll with
  | some err => simp [fileUploading, UploadFaults.none]
  | none =>
    cases create with
    | some err => simp [fileUploading, UploadFaults.none]
    | none =>
      cases hcreate : tree.create (absolute filePath) with
      | error err => simp [fileUploading, osCreate, hcreate]
      | ok created =>
        cases write with
        | some fault => simp [fileUploading, osCreate, hcreate, UploadFaults.none]
        | none =>
          simp only [fileUploading, osCreate, hcreate, UploadFaults.none, Prod.mk.injEq,
            Except.ok.injEq, exists_eq_left', true_and]
          rw [and_comm, eq_comm (a := created.write _ _)]

/-- A directory lists the names of the files in it. -/
theorem mem_fileNames {tree : FileTree} {loc : Location} {objects : List (Segment × Node)}
    (hread : tree.readDir loc = .ok objects) (name : ByteString) :
    name ∈ fileNames objects ↔
      ∃ child : Segment, child.val = name ∧
        ∃ content, tree.node (loc ++ [child]) = some (.file content) := by
  simp only [fileNames, List.mem_map, List.mem_filter, decide_eq_true_eq]
  constructor
  · rintro ⟨⟨child, found⟩, ⟨hmem, hfile⟩, hname⟩
    cases found with
    | dir => exact absurd rfl hfile
    | file content => exact ⟨child, hname, content, (FileTree.mem_readDir hread ..).mp hmem⟩
  · rintro ⟨child, hname, content, hnode⟩
    exact ⟨(child, .file content), ⟨(FileTree.mem_readDir hread ..).mpr hnode, by simp⟩, hname⟩

/-- A directory lists each name once. -/
theorem nodup_fileNames {tree : FileTree} {loc : Location} {objects : List (Segment × Node)}
    (hread : tree.readDir loc = .ok objects) : (fileNames objects).Nodup := by
  have hnames := (FileTree.nodup_readDir hread).map Segment.val_injective
  rw [List.map_map] at hnames
  exact hnames.sublist (List.filter_sublist.map _)

/-- After opening and writing, a path holds exactly the buffer and all else is unchanged. -/
theorem node_write_create {tree created : FileTree} {loc : Location}
    (h : tree.create loc = .ok created) (file : ByteString) :
    (created.write loc file).node loc = some (.file file) ∧
      ∀ other, other ≠ loc → (created.write loc file).node other = tree.node other := by
  obtain ⟨hself, hothers⟩ := FileTree.create_ok h
  refine ⟨?_, fun other hother => ?_⟩
  · rw [FileTree.node_write_self hself, FileTree.overlay_nil]
  · rw [FileTree.node_write_of_ne _ _ hother, hothers other hother]

end FilesPath

namespace FoldersPath

/-- The only folders a repository shows. -/
def noSkip : List ByteString := [ascii "noarch", ascii "x86_64", ascii "x86_64-i586"]

/-- `FoldersPath.GetFolders` -/
def getFolders (proto : Proto) (tree : FileTree) (dirPath repoName : ByteString) :
    Except GoError ByteString := do
  let objects ← getOdjectsInFolder tree dirPath
  let shown := objects.filter fun object => object.2 = .dir ∧ object.1.val ∈ noSkip
  proto.marshalFolders ⟨repoName, some true, shown.map fun object => object.1.val⟩

end FoldersPath

end RepoManager
