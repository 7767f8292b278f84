import RepoManager.Service.Files

/-!
# Failed uploads

What an upload that returns an error leaves on disk. Before `os.Create` nothing has happened.
`os.Create` truncates the target, and neither a failing `Write` nor a reply that cannot be encoded
brings its old content back.

`failedUpload_keeps_iff` says for every tree, request and failure when all files are as before.
-/

open LexicalPath

namespace RepoManager

/-- Every file has the same existence and content. -/
def SameFiles (before after : FileTree) : Prop :=
  ∀ loc content, after.node loc = some (.file content) ↔ before.node loc = some (.file content)

/-- Nothing changed. -/
theorem SameFiles.refl (tree : FileTree) : SameFiles tree tree := fun _ _ => Iff.rfl

namespace UploadFaults

/-- What `Write` gets to write. -/
def written (faults : UploadFaults) (buffer : ByteString) : ByteString :=
  match faults.write with
  | some (count, _) => buffer.take count
  | .none => buffer

end UploadFaults

namespace FilesPath

/-- When a call that fails has left every file as it was: it failed before the target was
truncated, or it does not fail at all, or the target held the same bytes before. -/
def KeepsFiles (proto : Proto) (faults : UploadFaults) (tree : FileTree)
    (filePath file : ByteString) : Prop :=
  (faults.readAll.isSome ∨ faults.create.isSome ∨
      ∀ created, tree.create (absolute filePath) ≠ .ok created) ∨
    (faults.write = none ∧ ∃ data, proto.marshalFile (base filePath) = .ok data) ∨
    tree.node (absolute filePath) = some (.file (faults.written file))

variable {proto : Proto} {faults : UploadFaults} {tree : FileTree} {filePath file : ByteString}

/-- After the target was opened, the files are as before when it held what was written. -/
theorem sameFiles_write_iff {created : FileTree} {loc : Location}
    (hcreate : tree.create loc = .ok created) (bytes : ByteString) :
    SameFiles tree (created.write loc bytes) ↔ tree.node loc = some (.file bytes) := by
  obtain ⟨hself, hothers⟩ := node_write_create hcreate bytes
  constructor
  · intro hsame
    exact (hsame loc bytes).mp hself
  · intro hheld other content
    by_cases hother : other = loc
    · rw [hother, hself, hheld]
    · rw [hothers other hother]

/-- An error with the same tree keeps the files. -/
theorem keeps_error (err : GoError) (err' : GoError) (after : FileTree)
    (h : ((.error err : Except GoError ByteString), tree) = (.error err', after)) :
    SameFiles tree after := by
  obtain ⟨-, rfl⟩ := Prod.mk.inj h
  exact .refl tree

/-- A call that fails leaves every file as it was exactly when the condition holds. -/
theorem fileUploading_keeps_iff :
    (∀ err after, fileUploading proto faults tree filePath file = (.error err, after) →
        SameFiles tree after) ↔ KeepsFiles proto faults tree filePath file := by
  obtain ⟨readAll, create, write⟩ := faults
  unfold fileUploading KeepsFiles
  cases readAll with
  | some err => exact ⟨fun _ => .inl (.inl rfl), fun _ => keeps_error err⟩
  | none =>
    cases create with
    | some err => exact ⟨fun _ => .inl (.inr (.inl rfl)), fun _ => keeps_error err⟩
    | none =>
      rw [osCreate]
      cases hcreate : tree.create (absolute filePath) with
      | error err => exact ⟨fun _ => .inl (.inr (.inr (by simp))), fun _ => keeps_error _⟩
      | ok created =>
        -- from here on the target is truncated
        rw [or_iff_right fun h => by simp at h]
        rw [← sameFiles_write_iff hcreate]
        cases write with
        | some fault =>
          obtain ⟨count, err⟩ := fault
          constructor
          · intro hkeeps
            exact .inr (hkeeps err _ rfl)
          · intro hsame err' after h
            obtain ⟨-, rfl⟩ := Prod.mk.inj h
            exact hsame.resolve_left fun hwrite => absurd hwrite.1 (by simp)
        | none =>
          cases hmarshal : proto.marshalFile (base filePath) with
          | ok data => exact ⟨fun _ => .inl ⟨rfl, data, rfl⟩, fun _ _ _ h => by simp at h⟩
          | error err =>
            constructor
            · intro hkeeps
              exact .inr (hkeeps err _ rfl)
            · intro hsame err' after h
              obtain ⟨-, rfl⟩ := Prod.mk.inj h
              exact hsame.resolve_left fun hwrite => by simp at hwrite

end FilesPath

namespace FilesService

/-- When an upload that returns an error has left every file as it was: the body is rejected, the
package is of another architecture, or the repository keeps the files. -/
def KeepsFiles (proto : Proto) (rpmRead : RpmRead) (faults : UploadFaults) (tree : FileTree)
    (repoPath repoDir folderId repoName fileName file : ByteString) : Prop :=
  (∃ err, (rpmRead file).1 = .error err) ∨
    (∃ pkg, (rpmRead file).1 = .ok pkg ∧ pkg.architecture ≠ folderId) ∨
    FilesPath.KeepsFiles proto faults tree
      (join [dirPath repoPath repoDir folderId repoName, fileName]) (rpmRead file).2

/-- An upload that returns an error leaves every file as it was exactly when it fails before its
target is truncated, or when the target held just the bytes that the failure leaves in it. -/
theorem failedUpload_keeps_iff (proto : Proto) (rpmRead : RpmRead) (faults : UploadFaults)
    (tree : FileTree) (repoPath repoDir folderId repoName fileName file : ByteString) :
    (∀ err after, fileUploading proto rpmRead faults tree repoPath repoDir folderId repoName
        fileName file = (.error err, after) → SameFiles tree after) ↔
      KeepsFiles proto rpmRead faults tree repoPath repoDir folderId repoName fileName file := by
  unfold fileUploading KeepsFiles
  cases hread : rpmRead file with
  | mk result rest =>
    cases result with
    | error err => exact ⟨fun _ => .inl ⟨err, rfl⟩, fun _ => FilesPath.keeps_error _⟩
    | ok pkg =>
      by_cases harch : pkg.architecture ≠ folderId
      · simp only [if_pos harch]
        exact ⟨fun _ => .inr (.inl ⟨pkg, rfl, harch⟩), fun _ => FilesPath.keeps_error _⟩
      · simp only [if_neg harch]
        rw [FilesPath.fileUploading_keeps_iff]
        constructor
        · exact fun hkeeps => .inr (.inr hkeeps)
        · rintro (⟨err, herr⟩ | ⟨other, hother, hne⟩ | hkeeps)
          · exact nomatch herr
          · exact absurd (Except.ok.inj hother ▸ hne) harch
          · exact hkeeps

/-- The file that the sample overwrites. -/
def sampleFile : Segment := ⟨ascii "kes.rpm", by decide⟩

/-- The folder `noarch` with one package in it. -/
def sampleTree : FileTree :=
  (FileTree.wayTo (UnixRepo.sample.dirOf noarch)).put (UnixRepo.sample.dirOf noarch) sampleFile
    (.file (ascii "package"))
    (by rw [FileTree.node_wayTo, if_pos (List.prefix_refl _)])
    (by rw [FileTree.node_wayTo, if_neg (FileTree.not_child_prefix _ _)]; exact nofun)

/-- The device is full after one byte was written. -/
def sampleFaults : UploadFaults := ⟨none, none, some (1, ascii "no space left on device")⟩

/-- An upload over a package fails, and the package is gone. -/
theorem sample_not_kept :
    ∃ err after, fileUploading .short sampleRead sampleFaults sampleTree UnixRepo.sample.root
        UnixRepo.sample.dir noarch.val UnixRepo.sample.name sampleFile.val samplePackage =
          (.error err, after) ∧
      sampleTree.node (UnixRepo.sample.dirOf noarch ++ [sampleFile]) =
        some (.file (ascii "package")) ∧
      after.node (UnixRepo.sample.dirOf noarch ++ [sampleFile]) = some (.file [0x1f]) ∧
      ¬ SameFiles sampleTree after := by
  have htarget : UnixRepo.sample.uploadTarget noarch sampleFile.val =
      UnixRepo.sample.dirOf noarch ++ [sampleFile] := walk_segment _ sampleFile
  have hbefore : sampleTree.node (UnixRepo.sample.dirOf noarch ++ [sampleFile]) =
      some (.file (ascii "package")) := FileTree.node_put_self ..
  obtain ⟨created, hcreate⟩ := (FileTree.create_eq_ok_iff sampleTree
    (UnixRepo.sample.dirOf noarch ++ [sampleFile])).mpr
      ⟨_, _, rfl, sampleTree.parent_dir hbefore, by rw [hbefore]; exact nofun⟩
  have hafter := (FilesPath.node_write_create hcreate [0x1f]).1
  refine ⟨ascii "no space left on device", _, ?_, hbefore, hafter, ?_⟩
  · rw [UnixRepo.fileUploading_eq, sampleRead_samplePackage, htarget]
    simp only [FilesPath.fileUploading, osCreate, absolute_render, hcreate, sampleFaults]
    exact if_neg (not_not.mpr rfl)
  · intro hsame
    have hkept := (hsame _ _).mp hafter
    rw [hbefore] at hkept
    exact absurd hkept (by decide)

end FilesService

end RepoManager
