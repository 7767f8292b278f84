import RepoManager.Library.TreeRegion
import RepoManager.Confinement

/-!
# The region of a repository

The locations that the requests to a repository read, and all that is above them. Whatever file
name an upload delivers, its target is in the region of its own repository. Uploads to another
repository stay outside: always when neither directory lies in the other, and for ordinary file
names also when two repositories of different names share one directory. The name `..` makes the
difference there, since it leaves the directory of packages.
-/

open LexicalPath

namespace RepoManager

namespace UnixRepo

variable (repo : UnixRepo)

/-- Where the requests to a repository read, and all that is above. -/
def region : FileTree.Region where
  carrier := {loc | ∃ folder file, loc <+: repo.dirOf folder ++ [file]}
  above := by
    intro loc hloc way hway
    obtain ⟨folder, file, hbelow⟩ := hloc
    exact ⟨folder, file, hway.trans hbelow⟩

theorem file_mem_region (folder file : Segment) : repo.dirOf folder ++ [file] ∈ repo.region :=
  ⟨folder, file, List.prefix_refl _⟩

theorem dirOf_mem_region (folder : Segment) : repo.dirOf folder ∈ repo.region :=
  FileTree.Region.parent (repo.file_mem_region folder folder)

/-- The directory of packages is a child of the folder. -/
theorem dirOf_eq_concat (folder : Segment) :
    repo.dirOf folder = (repo.top ++ [folder]) ++ [repo.rpms] := by
  simp [dirOf]

theorem folder_mem_region (folder : Segment) : repo.top ++ [folder] ∈ repo.region :=
  FileTree.Region.parent (repo.dirOf_eq_concat folder ▸ repo.dirOf_mem_region folder)

theorem top_mem_region : repo.top ∈ repo.region :=
  FileTree.Region.parent (repo.folder_mem_region noarch)

/-- The three kinds of targets of a delivered name: a child of the directory of packages, the
directory itself, or the folder. -/
theorem uploadTarget_base (folder : Segment) (raw : ByteString) :
    (∃ h : IsSegment (base raw),
        repo.uploadTarget folder (base raw) = repo.dirOf folder ++ [⟨base raw, h⟩]) ∨
      repo.uploadTarget folder (base raw) = (repo.top ++ [folder]) ++ [repo.rpms] ∨
      repo.uploadTarget folder (base raw) = repo.top ++ [folder] := by
  by_cases hname : IsSegment (base raw)
  · exact Or.inl ⟨hname, walk_segment _ ⟨base raw, hname⟩⟩
  · right
    rw [uploadTarget]
    have hspecial : base raw = dot ∨ base raw = dotDot ∨ base raw = [slash] := by
      by_contra hnone
      simp only [not_or] at hnone
      exact hname ((isSegment_base_iff raw).mpr hnone)
    rcases hspecial with hdot | hparent | hslash
    · rw [hdot, ← dirOf_eq_concat]
      exact Or.inl rfl
    · rw [hparent, walk_dotDot, dirOf_eq_concat, List.dropLast_concat]
      exact Or.inr rfl
    · rw [hslash, ← dirOf_eq_concat]
      exact Or.inl rfl

/-- Every target of an upload is in the region of its repository. -/
theorem uploadTarget_mem_region (folder : Segment) (raw : ByteString) :
    repo.uploadTarget folder (base raw) ∈ repo.region := by
  rcases repo.uploadTarget_base folder raw with ⟨_, htarget⟩ | htarget | htarget
  · rw [htarget]
    exact repo.file_mem_region folder _
  · rw [htarget, ← dirOf_eq_concat]
    exact repo.dirOf_mem_region folder
  · rw [htarget]
    exact repo.folder_mem_region folder

/-! ## Other repositories -/

/-- Neither directory lies in the other. -/
def Disjoint (left right : UnixRepo) : Prop := ¬ left.top <+: right.top ∧ ¬ right.top <+: left.top

/-- Two repositories of different names share a directory. -/
def Siblings (left right : UnixRepo) : Prop := left.top = right.top ∧ left.name ≠ right.name

/-- An upload to `other` under this name stays outside the region. -/
def Spares (other : UnixRepo) (fileName : ByteString) : Prop :=
  repo.Disjoint other ∨ repo.Siblings other ∧ IsSegment fileName

/-- A location below the directory of a disjoint repository is outside the region. -/
theorem notMem_region_of_disjoint {other : UnixRepo} (h : repo.Disjoint other) {loc : Location}
    (hloc : other.top <+: loc) : loc ∉ repo.region := by
  rintro ⟨folder, file, hbelow⟩
  have hown : repo.top <+: repo.dirOf folder ++ [file] := by
    rw [dirOf, List.append_assoc]
    exact List.prefix_append _ _
  rcases List.prefix_or_prefix_of_prefix hown (hloc.trans hbelow) with hleft | hright
  · exact h.1 hleft
  · exact h.2 hright

/-- A directory of packages of a sibling is outside the region. -/
theorem notMem_region_of_siblings {other : UnixRepo} (h : repo.Siblings other)
    (folder : Segment) : other.dirOf folder ∉ repo.region := by
  rintro ⟨own, file, hbelow⟩
  have hpackages : [folder, other.rpms] <+: [own, repo.rpms, file] := by
    rw [dirOf, dirOf, ← h.1, List.append_assoc, List.prefix_append_right_inj] at hbelow
    exact hbelow
  obtain ⟨rest, hrest⟩ := hpackages
  simp only [List.cons_append, List.cons.injEq] at hrest
  exact h.2 (rpms_inj.mp hrest.2.1.symm)

/-- An upload to another repository opens a child of a location outside the region. -/
theorem uploadTarget_notMem_region {other : UnixRepo} {raw : ByteString}
    (h : repo.Spares other (base raw)) (folder : Segment) :
    ∃ parent name, other.uploadTarget folder (base raw) = parent ++ [name] ∧
      parent ∉ repo.region := by
  rcases h with hdisjoint | ⟨hsiblings, hname⟩
  · have hdir : other.top <+: other.top ++ [folder] := List.prefix_append _ _
    rcases other.uploadTarget_base folder raw with ⟨_, htarget⟩ | htarget | htarget
    · refine ⟨_, _, htarget, repo.notMem_region_of_disjoint hdisjoint ?_⟩
      exact List.prefix_append _ _
    · exact ⟨_, _, htarget, repo.notMem_region_of_disjoint hdisjoint hdir⟩
    · exact ⟨_, _, htarget, repo.notMem_region_of_disjoint hdisjoint (List.prefix_refl _)⟩
  · exact ⟨_, _, walk_segment _ ⟨base raw, hname⟩, repo.notMem_region_of_siblings hsiblings folder⟩

end UnixRepo

/-! ## The calls of the system -/

section Calls

variable {region : FileTree.Region} {left right : FileTree}

/-- `os.ReadFile` at a location of the region. -/
theorem osReadFile_agree (h : FileTree.AgreeOn region left right) {loc : Location}
    (hloc : loc ∈ region) : osReadFile left (render loc) = osReadFile right (render loc) := by
  rw [osReadFile, osReadFile, absolute_render, h.readFile_eq hloc]

/-- `getOdjectsInFolder` at a location of the region. -/
theorem getOdjectsInFolder_agree (h : FileTree.AgreeOn region left right) {loc : Location}
    (hloc : loc ∈ region) :
    getOdjectsInFolder left (render loc) = getOdjectsInFolder right (render loc) := by
  rw [getOdjectsInFolder, getOdjectsInFolder, absolute_render, h.readDir_eq hloc, h.node_eq loc hloc]

/-- `os.Create` at a location of the region fails alike, or leaves trees that agree. -/
theorem osCreate_agree (h : FileTree.AgreeOn region left right) {loc : Location}
    (hloc : loc ∈ region) :
    (∃ err, osCreate left (render loc) = .error err ∧ osCreate right (render loc) = .error err) ∨
      ∃ left' right', osCreate left (render loc) = .ok left' ∧
        osCreate right (render loc) = .ok right' ∧ FileTree.AgreeOn region left' right' := by
  rw [osCreate, osCreate, absolute_render]
  rcases h.create hloc with ⟨err, hleft, hright⟩ | ⟨left', right', hleft, hright, hagree⟩
  · rw [hleft, hright]
    exact Or.inl ⟨_, rfl, rfl⟩
  · rw [hleft, hright]
    exact Or.inr ⟨left', right', rfl, rfl, hagree⟩

/-- `FilesPath.FileUploading` at a location of the region: one reply, and trees that agree. -/
theorem FilesPath.fileUploading_agree (proto : Proto) (faults : UploadFaults)
    (h : FileTree.AgreeOn region left right) {loc : Location} (hloc : loc ∈ region)
    (file : ByteString) :
    (FilesPath.fileUploading proto faults left (render loc) file).1 =
        (FilesPath.fileUploading proto faults right (render loc) file).1 ∧
      FileTree.AgreeOn region (FilesPath.fileUploading proto faults left (render loc) file).2
        (FilesPath.fileUploading proto faults right (render loc) file).2 := by
  obtain ⟨readAll, create, write⟩ := faults
  unfold FilesPath.fileUploading
  cases readAll with
  | some err => exact ⟨rfl, h⟩
  | none =>
    cases create with
    | some err => exact ⟨rfl, h⟩
    | none =>
      rcases osCreate_agree h hloc with ⟨err, hleft, hright⟩ | ⟨left', right', hleft, hright, hagree⟩
      · rw [hleft, hright]
        exact ⟨rfl, h⟩
      · rw [hleft, hright, absolute_render]
        cases write with
        | none => exact ⟨rfl, hagree.write hloc file⟩
        | some fault => exact ⟨rfl, hagree.write hloc (file.take fault.1)⟩

/-- `FilesPath.FileUploading` below a location outside the region changes nothing of the region. -/
theorem FilesPath.fileUploading_spares (proto : Proto) (faults : UploadFaults) (tree : FileTree)
    {parent : Location} (hparent : parent ∉ region) (name : Segment) (file : ByteString) :
    FileTree.AgreeOn region
      (FilesPath.fileUploading proto faults tree (render (parent ++ [name])) file).2 tree := by
  obtain ⟨readAll, create, write⟩ := faults
  unfold FilesPath.fileUploading osCreate
  cases readAll with
  | some err => exact FileTree.AgreeOn.refl tree
  | none =>
    cases create with
    | some err => exact FileTree.AgreeOn.refl tree
    | none =>
      rw [absolute_render]
      cases hcreate : tree.create (parent ++ [name]) with
      | error err => exact FileTree.AgreeOn.refl tree
      | ok created =>
        have hcreated := FileTree.agreeOn_create hparent hcreate
        cases write with
        | none => exact (FileTree.agreeOn_write created name hparent file).trans hcreated
        | some fault =>
          exact (FileTree.agreeOn_write created name hparent (file.take fault.1)).trans hcreated

end Calls

/-! ## The services -/

namespace UnixRepo

variable {repo : UnixRepo} {proto : Proto} {rpmRead : RpmRead} {left right : FileTree}
  (h : FileTree.AgreeOn repo.region left right)

section Own

include h

/-- Listings of a folder. -/
theorem getFiles_agree (folder : Segment) :
    FilesService.getFiles proto left repo.root repo.dir folder.val repo.name =
      FilesService.getFiles proto right repo.root repo.dir folder.val repo.name := by
  rw [getFiles_eq, getFiles_eq, getOdjectsInFolder_agree h (repo.dirOf_mem_region folder)]

/-- Listings of the folders. -/
theorem getFolders_agree :
    FoldersService.getFolders proto left repo.root repo.dir repo.name =
      FoldersService.getFolders proto right repo.root repo.dir repo.name := by
  simp only [FoldersService.getFolders, FoldersPath.getFolders, join_top,
    getOdjectsInFolder_agree h repo.top_mem_region]

/-- Downloads. -/
theorem fileDownloading_agree (folder file : Segment) :
    FilesService.fileDownloading left repo.root repo.dir folder.val repo.name file.val =
      FilesService.fileDownloading right repo.root repo.dir folder.val repo.name file.val := by
  rw [FilesService.fileDownloading, FilesService.fileDownloading, filePath_eq]
  exact osReadFile_agree h (repo.file_mem_region folder file)

/-- Package information. -/
theorem fileInfo_agree (folder file : Segment) :
    FilesService.fileInfo proto rpmRead left repo.root repo.dir folder.val repo.name file.val =
      FilesService.fileInfo proto rpmRead right repo.root repo.dir folder.val repo.name
        file.val := by
  simp only [FilesService.fileInfo, FilesPath.fileInfo, filePath_eq,
    osReadFile_agree h (repo.file_mem_region folder file)]

/-- Uploads: one reply, and trees that agree. -/
theorem fileUploading_agree (faults : UploadFaults) (folder : Segment) (raw file : ByteString) :
    (FilesService.fileUploading proto rpmRead faults left repo.root repo.dir folder.val repo.name
          (base raw) file).1 =
        (FilesService.fileUploading proto rpmRead faults right repo.root repo.dir folder.val
          repo.name (base raw) file).1 ∧
      FileTree.AgreeOn repo.region
        (FilesService.fileUploading proto rpmRead faults left repo.root repo.dir folder.val
          repo.name (base raw) file).2
        (FilesService.fileUploading proto rpmRead faults right repo.root repo.dir folder.val
          repo.name (base raw) file).2 := by
  rw [fileUploading_eq, fileUploading_eq]
  split
  · exact ⟨rfl, h⟩
  · split
    · exact ⟨rfl, h⟩
    · exact FilesPath.fileUploading_agree proto faults h (repo.uploadTarget_mem_region folder raw) _

end Own

/-- An upload to another repository changes nothing of the region. -/
theorem fileUploading_spares {other : UnixRepo} {raw : ByteString}
    (hspares : repo.Spares other (base raw)) (faults : UploadFaults) (tree : FileTree)
    (folder : Segment) (file : ByteString) :
    FileTree.AgreeOn repo.region
      (FilesService.fileUploading proto rpmRead faults tree other.root other.dir folder.val
        other.name (base raw) file).2 tree := by
  rw [fileUploading_eq]
  split
  · exact FileTree.AgreeOn.refl tree
  · split
    · exact FileTree.AgreeOn.refl tree
    · obtain ⟨parent, name, htarget, hparent⟩ := repo.uploadTarget_notMem_region hspares folder
      rw [htarget]
      exact FilesPath.fileUploading_spares proto faults tree hparent name _

end UnixRepo

end RepoManager
