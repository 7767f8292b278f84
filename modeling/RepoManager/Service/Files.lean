import RepoManager.Config
import RepoManager.Repository.Sample

/-!
# The files service

`internal/service/files.go` and `folders.go`: the paths under a repository and the checks of an
upload. An upload reads its body twice, first through `rpm.Read` and then through the
repository, and both reads share one reader.

A `UnixRepo` is a repository whose root is absolute and whose name has no separator. Every path
the service builds for it is a location below the directory of its packages.
-/

open LexicalPath

namespace RepoManager

namespace FilesService

/-- `fmt.Sprintf("RPMS.%s", repo_name)` -/
def rpmsDir (repoName : ByteString) : ByteString := ascii "RPMS." ++ repoName

/-- The directory of the packages of one architecture. -/
def dirPath (repoPath repoDir folder repoName : ByteString) : ByteString :=
  join [repoPath, repoDir, folder, rpmsDir repoName]

/-- The path that downloads and package information are read from. -/
def filePath (repoPath repoDir folderId repoName fileId : ByteString) : ByteString :=
  join [repoPath, repoDir, folderId, rpmsDir repoName, fileId]

/-- `FilesService.GetFiles` -/
def getFiles (proto : Proto) (tree : FileTree) (repoPath repoDir folder repoName : ByteString) :
    Except GoError ByteString :=
  FilesPath.getFiles proto tree (dirPath repoPath repoDir folder repoName)

/-- `FilesService.FileDownloading` -/
def fileDownloading (tree : FileTree) (repoPath repoDir folderId repoName fileId : ByteString) :
    Except GoError ByteString :=
  FilesPath.fileDownloading tree (filePath repoPath repoDir folderId repoName fileId)

/-- `FilesService.FileUploading`; the repository reads what `rpm.Read` left of the body. -/
def fileUploading (proto : Proto) (rpmRead : RpmRead) (faults : UploadFaults) (tree : FileTree)
    (repoPath repoDir folderId repoName fileName file : ByteString) :
    Except GoError ByteString × FileTree :=
  let repoPath := dirPath repoPath repoDir folderId repoName
  match rpmRead file with
  | (.error _, _) => (.error (ascii "Invalid file: '" ++ fileName ++ ascii "'"), tree)
  | (.ok pkg, rest) =>
    if pkg.architecture ≠ folderId then
      (.error (ascii "Incorrect package architecture, specified: '" ++ folderId ++
        ascii "' , file: '" ++ pkg.architecture ++ ascii "'"), tree)
    else FilesPath.fileUploading proto faults tree (join [repoPath, fileName]) rest

/-- `FilesService.FileInfo` -/
def fileInfo (proto : Proto) (rpmRead : RpmRead) (tree : FileTree)
    (repoPath repoDir folderId repoName fileId : ByteString) : Except GoError ByteString :=
  FilesPath.fileInfo proto rpmRead tree (filePath repoPath repoDir folderId repoName fileId)

/-- `FilesService.FileReindexes` -/
def fileReindexes (shellout : Shell) (tree : FileTree)
    (exec repoPath repoDir repoName : ByteString) : Except GoError ByteString × FileTree :=
  FilesPath.fileReindexes shellout tree exec (join [repoPath, repoDir]) repoName

end FilesService

namespace FoldersService

/-- `FoldersService.GetFolders` -/
def getFolders (proto : Proto) (tree : FileTree) (repoPath repoDir repoName : ByteString) :
    Except GoError ByteString :=
  FoldersPath.getFolders proto tree (join [repoPath, repoDir]) repoName

end FoldersService

/-! ## Where a repository keeps its files -/

/-- The values of `GetRepoVarPath` for a repository on Unix. -/
structure UnixRepo extends Config.RepoVarPath where
  isAbs_root : isAbs root = true
  slash_notMem_name : slash ∉ name

namespace UnixRepo

variable (repo : UnixRepo)

/-- The location of `Join(root, dir)`. -/
def top : Location := walk (absolute repo.root) repo.dir

/-- The name of the directory of packages, never `.` or `..`. -/
def rpms : Segment where
  val := FilesService.rpmsDir repo.name
  property := by
    have hway : ascii "RPMS." = [0x52, 0x50, 0x4d, 0x53, 0x2e] := by decide
    refine ⟨?_, ?_, ?_, ?_⟩
    · simp [FilesService.rpmsDir, hway]
    · simpa [FilesService.rpmsDir, hway, slash] using repo.slash_notMem_name
    · simp [FilesService.rpmsDir, hway, dot]
    · simp [FilesService.rpmsDir, hway, dotDot]

/-- The directory of the packages of one architecture. -/
def dirOf (folder : Segment) : Location := repo.top ++ [folder, repo.rpms]

/-- `Join(root, dir)` is the rendered location. -/
theorem join_top : join [repo.root, repo.dir] = render repo.top :=
  join_eq_render repo.isAbs_root [repo.dir]

/-- The directory the service opens. -/
theorem dirPath_eq (folder : Segment) :
    FilesService.dirPath repo.root repo.dir folder.val repo.name = render (repo.dirOf folder) := by
  have hrpms : FilesService.rpmsDir repo.name = repo.rpms.val := rfl
  rw [FilesService.dirPath, hrpms, join_eq_render repo.isAbs_root]
  simp [dirOf, top]

/-- A listing encodes the names in the directory. -/
theorem getFiles_eq (proto : Proto) (tree : FileTree) (folder : Segment) :
    FilesService.getFiles proto tree repo.root repo.dir folder.val repo.name =
      getOdjectsInFolder tree (render (repo.dirOf folder)) >>= fun objects =>
        proto.marshalFiles (FilesPath.fileNames objects) := by
  rw [FilesService.getFiles, dirPath_eq]
  rfl

/-- The file the service opens. -/
theorem filePath_eq (folder file : Segment) :
    FilesService.filePath repo.root repo.dir folder.val repo.name file.val =
      render (repo.dirOf folder ++ [file]) := by
  have hrpms : FilesService.rpmsDir repo.name = repo.rpms.val := rfl
  rw [FilesService.filePath, hrpms, join_eq_render repo.isAbs_root]
  simp [dirOf, top]

/-- The path an upload writes to: the file name is walked from the directory. -/
theorem uploadPath_eq (folder : Segment) (fileName : ByteString) :
    join [FilesService.dirPath repo.root repo.dir folder.val repo.name, fileName] =
      render (walk (repo.dirOf folder) fileName) := by
  rw [dirPath_eq, join_eq_render (isAbs_render _), absolute_render]
  rfl

/-- Distinct names of repositories give distinct directories of packages. -/
theorem rpms_inj {left right : UnixRepo} : left.rpms = right.rpms ↔ left.name = right.name := by
  constructor
  · intro h
    exact List.append_cancel_left (congrArg Segment.val h)
  · intro h
    exact Segment.ext (congrArg FilesService.rpmsDir h)

/-- The files of two repositories have the same location only when they are the same file. -/
theorem fileLocation_inj (left right : UnixRepo) (folder₁ folder₂ file₁ file₂ : Segment) :
    left.dirOf folder₁ ++ [file₁] = right.dirOf folder₂ ++ [file₂] ↔
      left.top = right.top ∧ left.name = right.name ∧ folder₁ = folder₂ ∧ file₁ = file₂ := by
  constructor
  · intro h
    obtain ⟨hdir, hfile⟩ := List.append_inj' h rfl
    obtain ⟨htop, hnames⟩ := List.append_inj' hdir rfl
    simp only [List.cons.injEq, and_true] at hfile hnames
    exact ⟨htop, rpms_inj.mp hnames.2, hnames.1, hfile⟩
  · rintro ⟨htop, hname, rfl, rfl⟩
    rw [dirOf, dirOf, htop, rpms_inj.mpr hname]

/-! ## What an upload does -/

/-- The location an upload with this file name writes to. -/
def uploadTarget (folder : Segment) (fileName : ByteString) : Location :=
  walk (repo.dirOf folder) fileName

/-- The conditions under which an upload is accepted, all on its input and on the tree before
it: the package is of the architecture of the folder, no I/O failure happens, the target can be
opened for writing, and its name can be encoded in the reply. -/
def UploadAccepted (proto : Proto) (rpmRead : RpmRead) (faults : UploadFaults) (tree : FileTree)
    (folder : Segment) (fileName file : ByteString) : Prop :=
  (∃ pkg, (rpmRead file).1 = .ok pkg ∧ pkg.architecture = folder.val) ∧ faults = .none ∧
    (∃ parent name, repo.uploadTarget folder fileName = parent ++ [name] ∧
      tree.node parent = some .dir ∧ tree.node (repo.uploadTarget folder fileName) ≠ some .dir) ∧
    ∃ data, proto.marshalFile (base (render (repo.uploadTarget folder fileName))) = .ok data

variable {repo} {proto : Proto} {rpmRead : RpmRead} {faults : UploadFaults} {tree : FileTree}
  {folder : Segment} {fileName file : ByteString}

/-- An upload to a folder, in terms of the location it writes to. -/
theorem fileUploading_eq :
    FilesService.fileUploading proto rpmRead faults tree repo.root repo.dir folder.val repo.name
        fileName file =
      match rpmRead file with
      | (.error _, _) => (.error (ascii "Invalid file: '" ++ fileName ++ ascii "'"), tree)
      | (.ok pkg, rest) =>
        if pkg.architecture ≠ folder.val then
          (.error (ascii "Incorrect package architecture, specified: '" ++ folder.val ++
            ascii "' , file: '" ++ pkg.architecture ++ ascii "'"), tree)
        else FilesPath.fileUploading proto faults tree
          (render (repo.uploadTarget folder fileName)) rest := by
  unfold FilesService.fileUploading
  simp only [uploadPath_eq]
  rfl

/-- A successful upload opened its target and wrote what `rpm.Read` had left of the body. -/
theorem fileUploading_eq_ok_iff {data : ByteString} {after : FileTree} :
    FilesService.fileUploading proto rpmRead faults tree repo.root repo.dir folder.val repo.name
        fileName file = (.ok data, after) ↔
      (∃ pkg, (rpmRead file).1 = .ok pkg ∧ pkg.architecture = folder.val) ∧ faults = .none ∧
        ∃ created, tree.create (repo.uploadTarget folder fileName) = .ok created ∧
          after = created.write (repo.uploadTarget folder fileName) (rpmRead file).2 ∧
          proto.marshalFile (base (render (repo.uploadTarget folder fileName))) = .ok data := by
  rw [fileUploading_eq]
  split
  · next err rest hread => simp [hread]
  · next pkg rest hread =>
    by_cases harch : pkg.architecture = folder.val
    · simp [hread, harch, FilesPath.fileUploading_eq_ok_iff]
    · simp [hread, harch]

/-- An upload succeeds exactly when it is accepted. -/
theorem fileUploading_isOk_iff :
    (∃ data, (FilesService.fileUploading proto rpmRead faults tree repo.root repo.dir folder.val
        repo.name fileName file).1 = .ok data) ↔
      repo.UploadAccepted proto rpmRead faults tree folder fileName file := by
  unfold UploadAccepted
  rw [← FileTree.create_eq_ok_iff]
  constructor
  · rintro ⟨data, hdata⟩
    obtain ⟨hpkg, hfaults, created, hcreate, -, hmarshal⟩ :=
      fileUploading_eq_ok_iff.mp (Prod.ext hdata rfl)
    exact ⟨hpkg, hfaults, ⟨created, hcreate⟩, ⟨data, hmarshal⟩⟩
  · rintro ⟨hpkg, hfaults, ⟨created, hcreate⟩, ⟨data, hmarshal⟩⟩
    exact ⟨data, congrArg Prod.fst
      (fileUploading_eq_ok_iff.mpr ⟨hpkg, hfaults, created, hcreate, rfl, hmarshal⟩)⟩

/-- After a successful upload the target holds what `rpm.Read` had left of the body, and every
other location is unchanged. -/
theorem node_fileUploading
    (h : repo.UploadAccepted proto rpmRead faults tree folder fileName file) :
    let after := (FilesService.fileUploading proto rpmRead faults tree repo.root repo.dir folder.val
      repo.name fileName file).2
    after.node (repo.uploadTarget folder fileName) = some (.file (rpmRead file).2) ∧
      ∀ other, other ≠ repo.uploadTarget folder fileName → after.node other = tree.node other := by
  obtain ⟨data, hdata⟩ := fileUploading_isOk_iff.mpr h
  obtain ⟨-, -, created, hcreate, hafter, -⟩ := fileUploading_eq_ok_iff.mp (Prod.ext hdata rfl)
  simp only [hafter]
  exact FilesPath.node_write_create hcreate _

/-- A repository below `/srv`. -/
def sample : UnixRepo where
  root := ascii "/srv"
  dir := ascii "kes"
  name := ascii "kes"
  isAbs_root := by decide
  slash_notMem_name := by decide

end UnixRepo

/-- The folder of the packages without architecture. -/
def noarch : Segment := ⟨ascii "noarch", by decide⟩

end RepoManager
