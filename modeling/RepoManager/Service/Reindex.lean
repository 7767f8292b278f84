import RepoManager.Config.Load
import RepoManager.Library.ShellWords
import RepoManager.Service.Files

/-!
# The arguments of a reindexing

`FileReindexes` writes the exec string of the configuration, the path of the repository and its
name one after the other, with spaces between them, and calls bash with `-c` and the line. Nothing
is quoted, so the command gets the path and the name as two arguments only where bash reads these
texts as they are. `reindexIntact_iff` says when it does.

The exec string that `NewConfig` supplies opens a backquote that nothing in it closes, so it is no
command.
-/

open LexicalPath

namespace RepoManager

/-- A text without NUL and newline. -/
def OneLine (text : ByteString) : Prop := 0 ∉ text ∧ Shell.newline ∉ text

instance (text : ByteString) : Decidable (OneLine text) := inferInstanceAs (Decidable (_ ∧ _))

/-- What `FilesPath.FileReindexes` makes of a run of the shell. -/
def reindexReply : (ByteString × ByteString × Option GoError) × FileTree →
    Except GoError ByteString × FileTree
  | ((_, errout, some err), after) => (.error (err ++ ascii ", " ++ errout), after)
  | ((out, _, none), after) => (.ok out, after)

/-- A reindexing hands one line to the shell. -/
theorem fileReindexes_eq (shellout : Shell) (tree : FileTree)
    (exec root dir name : ByteString) :
    FilesService.fileReindexes shellout tree exec root dir name =
      reindexReply (shellout (Shell.appended exec (join [root, dir]) name) tree) := by
  have hspace : ascii " " = [Shell.space] := by decide +kernel
  have hline : exec ++ ascii " " ++ join [root, dir] ++ ascii " " ++ name =
      Shell.appended exec (join [root, dir]) name := by
    simp [hspace, Shell.appended]
  rw [FilesService.fileReindexes, FilesPath.fileReindexes, hline]
  rfl

section Intact

variable (inner : Shell.Substitutions) (exec root dir name : ByteString)

/-- The shell gets one line, which is the command with two more arguments: the path of the
repository and its name. -/
def RunsWith (command : Shell.SimpleCommand) : Prop :=
  ∃ line left right,
    (∀ shellout tree, FilesService.fileReindexes shellout tree exec root dir name =
      reindexReply (shellout line tree)) ∧
    Shell.commandOf inner line = some (command.append [left, right]) ∧
    Shell.string? command.declares left = some (join [root, dir]) ∧
    Shell.string? command.declares right = some name

/-- The exec string is configured, and if it is a command, the path and the name can be appended to
it as they are. -/
def Repositories.Appends (repositories : Repositories) : Prop :=
  repositories.execReindex ≠ [] ∧
    ∀ command, Shell.parse inner repositories.execReindex = some command →
      Shell.Appends inner repositories.execReindex (join [root, dir]) name command

end Intact

section Lines

variable {inner : Shell.Substitutions} {exec root dir name : ByteString}
  {command : Shell.SimpleCommand}

/-- The path of a repository is one line when its root and its directory are. -/
theorem OneLine.join (hroot : OneLine root) (hdir : OneLine dir) : OneLine (join [root, dir]) := by
  have hbytes (byte : UInt8) (hslash : byte ≠ slash) (hdot : byte ∉ dot) (hroot : byte ∉ root)
      (hdir : byte ∉ dir) : byte ∉ LexicalPath.join [root, dir] := by
    intro hmem
    rcases mem_join hmem with ⟨elem, helem, hbyte⟩ | heq | hmem
    · rcases List.mem_pair.mp helem with rfl | rfl
      · exact hroot hbyte
      · exact hdir hbyte
    · exact hslash heq
    · exact hdot hmem
  exact ⟨hbytes 0 (by decide) (by decide) hroot.1 hdir.1,
    hbytes Shell.newline (by decide) (by decide) hroot.2 hdir.2⟩

/-- The line is the one with the path and the name at its end. -/
theorem runsWith_iff_appended :
    RunsWith inner exec root dir name command ↔
      ∃ left right, Shell.commandOf inner (Shell.appended exec (join [root, dir]) name) =
          some (command.append [left, right]) ∧
        Shell.string? command.declares left = some (join [root, dir]) ∧
        Shell.string? command.declares right = some name := by
  constructor
  · rintro ⟨line, left, right, hshell, hparse, hstrings⟩
    -- a shell that prints what it is given shows the line
    have hprinted := hshell (fun cmd tree => ((cmd, [], none), tree)) FileTree.empty
    rw [fileReindexes_eq] at hprinted
    have hline : Shell.appended exec (join [root, dir]) name = line :=
      Except.ok.inj (congrArg Prod.fst hprinted)
    exact ⟨left, right, hline ▸ hparse, hstrings⟩
  · rintro ⟨left, right, hparse, hstrings⟩
    exact ⟨_, left, right, fun shellout tree => fileReindexes_eq shellout tree exec root dir name,
      hparse, hstrings⟩

/-- When a command gets the path and the name as its arguments. -/
theorem runsWith_iff (hexec : Shell.parse inner exec = some command) (hroot : OneLine root)
    (hdir : OneLine dir) (hname : OneLine name) :
    RunsWith inner exec root dir name command ↔
      Shell.Appends inner exec (join [root, dir]) name command := by
  rw [runsWith_iff_appended]
  exact Shell.append_iff hexec (hroot.join hdir) hname

/-- A path and a name without bytes that are special to bash reach every command that can go on. -/
theorem runsWith_of_safe (hexec : Shell.parse inner exec = some command)
    (hoption : Shell.isOption exec = false) (hcontinues : Shell.Continues inner exec)
    (hroot : OneLine root) (hdir : OneLine dir) (hname : OneLine name)
    (hpath : join [root, dir] ≠ []) (hne : name ≠ [])
    (hsafe : ∀ byte ∈ join [root, dir] ++ name, Shell.isSafeByte byte) :
    RunsWith inner exec root dir name command := by
  obtain ⟨hjoin, hbytes⟩ := List.forall_mem_append.mp hsafe
  exact (runsWith_iff hexec hroot hdir hname).mpr ⟨hoption, hcontinues,
    Shell.plainWord_of_safe hpath hjoin _, .word (Shell.plainWord_of_safe hne hbytes _)⟩

end Lines

end RepoManager
