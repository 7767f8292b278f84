import RepoManager.Handler.Segments
import RepoManager.Service.FailedUpload

/-!
# Confinement of reads and writes

Reads: what the service replies is what the tree holds at the directory of packages or at its
named child, and two requests open one path only when they name the same repository, folder and
file.

Writes: the file name of an upload is not a path variable. The HTTP layer delivers the last
element of an arbitrary path, which can still be `.`, `..` or `/`; joined to the directory of
packages these lead to that directory or to its parent. `upload_confined_iff` is the exact
condition under which an upload stays below the directory.
-/

open LexicalPath

namespace RepoManager

/-- The names of the files in the directory at a location, encoded. -/
def listingAt (proto : Proto) (tree : FileTree) (loc : Location) : Except GoError ByteString :=
  match tree.readDir loc with
  | .ok children =>
    proto.marshalFiles ((children.filter fun child => child.2 ≠ .dir).map fun child => child.1.val)
  | .error err =>
    let op := if (tree.node loc).isSome then ascii "readdirent" else ascii "open"
    .error (pathError op (render loc) err)

/-- The content of the file at a location. -/
def contentAt (tree : FileTree) (loc : Location) : Except GoError ByteString :=
  match tree.node loc with
  | some (.file content) => .ok content
  | some .dir => .error (pathError (ascii "read") (render loc) .isDirectory)
  | none => .error (pathError (ascii "open") (render loc) (tree.missing loc))

/-- A listing by path is the one at the location. -/
theorem getFiles_render (proto : Proto) (tree : FileTree) (loc : Location) :
    FilesPath.getFiles proto tree (render loc) = listingAt proto tree loc := by
  unfold FilesPath.getFiles getOdjectsInFolder listingAt
  rw [absolute_render]
  cases tree.readDir loc <;> rfl

/-- Reading by path reads the file at the location. -/
theorem osReadFile_render (tree : FileTree) (loc : Location) :
    osReadFile tree (render loc) = contentAt tree loc := by
  have hmissing : tree.missing loc ≠ .isDirectory := by
    unfold FileTree.missing
    split <;> exact nofun
  unfold osReadFile contentAt FileTree.readFile
  rw [absolute_render]
  split <;> split at * <;> simp_all

/-- The listing is the one of the directory of packages, downloads and package information are of
its named child, and neither path is opened by a request for another repository, folder or file. -/
theorem reads_open_named_child (proto : Proto) (rpmRead : RpmRead) (left right : UnixRepo)
    (folder₁ folder₂ file₁ file₂ : Segment) :
    (∀ tree, FilesService.getFiles proto tree left.root left.dir (clean folder₁.val) left.name =
      listingAt proto tree (left.top ++ [folder₁, left.rpms])) ∧
    (∀ tree, FilesService.fileDownloading tree left.root left.dir (clean folder₁.val) left.name
        (clean file₁.val) =
      contentAt tree (left.top ++ [folder₁, left.rpms, file₁])) ∧
    (∀ tree, FilesService.fileInfo proto rpmRead tree left.root left.dir (clean folder₁.val)
        left.name (clean file₁.val) =
      contentAt tree (left.top ++ [folder₁, left.rpms, file₁]) >>= fun content =>
        (rpmRead content).1 >>= proto.marshalRPM) ∧
    join [left.root, left.dir] = render left.top ∧ left.rpms.val = ascii "RPMS." ++ left.name ∧
    (FilesService.filePath left.root left.dir (clean folder₁.val) left.name (clean file₁.val) =
        FilesService.filePath right.root right.dir (clean folder₂.val) right.name
          (clean file₂.val) ↔
      join [left.root, left.dir] = join [right.root, right.dir] ∧ left.name = right.name ∧
        folder₁ = folder₂ ∧ file₁ = file₂) := by
  have hchild : left.top ++ [folder₁, left.rpms, file₁] = left.dirOf folder₁ ++ [file₁] := by
    simp [UnixRepo.dirOf]
  simp only [clean_segment, hchild]
  refine ⟨fun tree => ?_, fun tree => ?_, fun tree => ?_, left.join_top, rfl, ?_⟩
  · rw [FilesService.getFiles, left.dirPath_eq, getFiles_render]
    rfl
  · rw [FilesService.fileDownloading, left.filePath_eq, FilesPath.fileDownloading,
      osReadFile_render]
  · rw [FilesService.fileInfo, left.filePath_eq, FilesPath.fileInfo, osReadFile_render]
  · rw [left.filePath_eq, right.filePath_eq, render_injective.eq_iff,
      UnixRepo.fileLocation_inj, left.join_top, right.join_top, render_injective.eq_iff]

/-- The repository of the sample, configured by another path. -/
def UnixRepo.sampleAgain : UnixRepo where
  root := ascii "/srv/kes/.."
  dir := ascii "./kes/"
  name := ascii "kes"
  isAbs_root := rfl
  slash_notMem_name := UnixRepo.sample.slash_notMem_name

/-- The one package of the sample is listed and downloaded, and the other configuration opens the
same file. -/
theorem sample_reads_open_named_child :
    FilesService.getFiles .short FilesService.sampleTree UnixRepo.sample.root UnixRepo.sample.dir
        (clean noarch.val) UnixRepo.sample.name = Proto.short.marshalFiles [ascii "kes.rpm"] ∧
      FilesService.fileDownloading FilesService.sampleTree UnixRepo.sample.root UnixRepo.sample.dir
        (clean noarch.val) UnixRepo.sample.name (clean FilesService.sampleFile.val) =
          .ok (ascii "package") ∧
      FilesService.filePath UnixRepo.sample.root UnixRepo.sample.dir (clean noarch.val)
          UnixRepo.sample.name (clean FilesService.sampleFile.val) =
        FilesService.filePath UnixRepo.sampleAgain.root UnixRepo.sampleAgain.dir
          (clean noarch.val) UnixRepo.sampleAgain.name (clean FilesService.sampleFile.val) := by
  obtain ⟨hlisting, hcontent, -, -, -, hpath⟩ := reads_open_named_child .short sampleRead
    UnixRepo.sample UnixRepo.sampleAgain noarch noarch FilesService.sampleFile
    FilesService.sampleFile
  refine ⟨(hlisting _).trans ?_, (hcontent _).trans ?_, hpath.mpr ⟨?_, rfl, rfl, rfl⟩⟩
  · rfl
  · rfl
  · decide +kernel

/-! ## Writes -/

/-- A successful upload of a file with this delivered name finds the directory of packages, and
changes nothing but the child of that name, which becomes a file. -/
def UploadConfined (proto : Proto) (rpmRead : RpmRead) (faults : UploadFaults) (tree : FileTree)
    (repo : UnixRepo) (folder : Segment) (fileName file : ByteString) : Prop :=
  ∀ data after, FilesService.fileUploading proto rpmRead faults tree repo.root repo.dir
      (clean folder.val) repo.name fileName file = (.ok data, after) →
    tree.node (repo.dirOf folder) = some .dir ∧
      ∃ child : Segment, child.val = fileName ∧
        (∃ content, after.node (repo.dirOf folder ++ [child]) = some (.file content)) ∧
        ∀ loc, loc ≠ repo.dirOf folder ++ [child] → after.node loc = tree.node loc

/-- The last element of a path is a path name unless it is one of three special names. -/
theorem isSegment_base_iff (raw : ByteString) :
    IsSegment (base raw) ↔ base raw ≠ dot ∧ base raw ≠ dotDot ∧ base raw ≠ [slash] := by
  constructor
  · rintro ⟨-, hslash, hdot, hparent⟩
    exact ⟨hdot, hparent, fun h => hslash (h ▸ List.mem_singleton_self slash)⟩
  · rintro ⟨hdot, hparent, hslash⟩
    have hraw : raw ≠ [] := by
      rintro rfl
      exact hdot rfl
    obtain ⟨hne, hnot⟩ := (base_cases hraw).resolve_left hslash
    exact ⟨hne, hnot, hdot, hparent⟩

/-- An upload stays below the directory of packages exactly when the delivered name is an ordinary
one, or when the upload is refused anyway. -/
theorem upload_confined_iff (proto : Proto) (rpmRead : RpmRead) (faults : UploadFaults)
    (tree : FileTree) (repo : UnixRepo) (folder : Segment) (raw file : ByteString) :
    UploadConfined proto rpmRead faults tree repo folder (base raw) file ↔
      (base raw ≠ dot ∧ base raw ≠ dotDot ∧ base raw ≠ [slash]) ∨
        ¬ repo.UploadAccepted proto rpmRead faults tree folder (base raw) file := by
  rw [← isSegment_base_iff]
  constructor
  · intro hconfined
    by_contra hneither
    obtain ⟨hname, haccepted⟩ := not_or.mp hneither
    obtain ⟨data, hdata⟩ := UnixRepo.fileUploading_isOk_iff.mpr (not_not.mp haccepted)
    rw [← clean_segment folder] at hdata
    obtain ⟨-, child, hchild, -⟩ := hconfined data _ (Prod.ext hdata rfl)
    exact hname (hchild ▸ child.property)
  · rintro hname data after hupload
    rw [clean_segment] at hupload
    have haccepted : repo.UploadAccepted proto rpmRead faults tree folder (base raw) file :=
      UnixRepo.fileUploading_isOk_iff.mp ⟨data, congrArg Prod.fst hupload⟩
    have hseg : IsSegment (base raw) := hname.resolve_right (not_not.mpr haccepted)
    have htarget : repo.uploadTarget folder (base raw) = repo.dirOf folder ++ [⟨base raw, hseg⟩] :=
      walk_segment _ ⟨base raw, hseg⟩
    obtain ⟨hself, hothers⟩ := UnixRepo.node_fileUploading haccepted
    obtain ⟨-, -, ⟨parent, name, hloc, hparent, -⟩, -⟩ := haccepted
    obtain ⟨rfl, -⟩ := List.append_inj' (htarget.symm.trans hloc) rfl
    rw [hupload, htarget] at hself hothers
    exact ⟨hparent, ⟨base raw, hseg⟩, rfl, ⟨_, hself⟩, hothers⟩

/-- An upload named `..` to a folder that does not exist succeeds and leaves the directory of
packages: it creates a file of the name of the folder. -/
theorem upload_dotDot_not_confined :
    ¬ UploadConfined .short sampleRead .none (.wayTo UnixRepo.sample.top) .sample noarch
      (base (ascii "..")) samplePackage := by
  intro hconfined
  have hbase : base (ascii "..") = dotDot := by decide
  have htarget : UnixRepo.sample.uploadTarget noarch dotDot = UnixRepo.sample.top ++ [noarch] := by
    rw [UnixRepo.uploadTarget, walk_dotDot]
    simp [UnixRepo.dirOf]
  have haccepted : UnixRepo.sample.UploadAccepted .short sampleRead .none
      (.wayTo UnixRepo.sample.top) noarch dotDot samplePackage := by
    rw [UnixRepo.UploadAccepted, htarget, base_render_child]
    refine ⟨⟨sampleRPM, by rw [sampleRead_samplePackage], rfl⟩, rfl, ⟨_, _, rfl, ?_, ?_⟩, ?_⟩
    · rw [FileTree.node_wayTo, if_pos (List.prefix_refl _)]
    · rw [FileTree.node_wayTo, if_neg (FileTree.not_child_prefix _ _)]
      simp
    · exact ⟨_, rfl⟩
  obtain ⟨data, hdata⟩ := UnixRepo.fileUploading_isOk_iff.mpr haccepted
  rw [← clean_segment noarch, ← hbase] at hdata
  obtain ⟨-, child, hchild, -⟩ := hconfined data _ (Prod.ext hdata rfl)
  exact child.property.2.2.2 (hchild.trans hbase)

end RepoManager
