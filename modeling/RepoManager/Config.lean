import Mathlib.Data.List.AList
import Mathlib.Data.List.DropRight
import RepoManager.Library.LexicalPath

/-!
# The configuration and its lookups

The records of `internal/config` and the accessors the handlers call. A pointer is an
`Option`; dereferencing `nil` panics, so every accessor that goes through an entry of the map
runs in `Except Panic`. `getRepoAuth` writes its result back into the entry it reads, so it
also returns the configuration it leaves.

The third-party `unique.Strings` and the parser of `net/url` are parameters.
-/

open LexicalPath

namespace RepoManager

/-- A run-time panic. -/
inductive Panic where
  | nilDereference
  deriving DecidableEq

/-- Follow a pointer. -/
def deref {α : Type} : Option α → Except Panic α
  | some value => .ok value
  | none => .error .nilDereference

/-- A sequence of two computations succeeds when both do. -/
theorem bind_eq_ok_iff {ε α β : Type} {first : Except ε α} {rest : α → Except ε β} {result : β} :
    first >>= rest = .ok result ↔ ∃ value, first = .ok value ∧ rest value = .ok result := by
  cases first with
  | error err => exact ⟨nofun, nofun⟩
  | ok value => exact ⟨fun h => ⟨value, rfl, h⟩, fun ⟨_, hvalue, h⟩ => Except.ok.inj hvalue ▸ h⟩

/-- How the users of a repository are authenticated. -/
structure Auth where
  baseDN : ByteString
  domain : ByteString
  server : ByteString
  groups : List ByteString
  defaultTimeout : Int
  deriving DecidableEq

/-- One configured repository. -/
structure Repo where
  dir : ByteString
  name : ByteString
  repoRootPath : ByteString
  auth : Option Auth
  deriving DecidableEq

/-- The repositories and what they share. A present key may hold a `nil` entry. -/
structure Repositories where
  execReindex : ByteString
  baseRepoRootPath : ByteString
  auth : Option Auth
  entries : AList fun _ : ByteString => Option Repo

/-- The fields of the server section that the handlers read. -/
structure ServerConfig where
  sessionKey : ByteString
  documentRoot : ByteString
  sessionLife : Int
  urlPrefix : ByteString

/-- The configuration. -/
structure Config where
  server : ServerConfig
  repositories : Option Repositories

namespace Config

/-- The map of repositories, empty when the section is missing. -/
def entries (config : Config) : AList fun _ : ByteString => Option Repo :=
  match config.repositories with
  | some repositories => repositories.entries
  | none => ∅

/-- `c.Repositories.Entries[repo_name]`, followed. A missing key reads as `nil`. -/
def entry (config : Config) (repoName : ByteString) : Except Panic Repo := do
  let repositories ← deref config.repositories
  deref (repositories.entries.lookup repoName).join

/-- Overwrite the fields of the authentication that an entry points to. -/
def setAuth (config : Config) (repoName : ByteString) (auth : Auth) : Config :=
  match config.repositories, config.entry repoName with
  | some repositories, .ok repo =>
    let entries := repositories.entries.insert repoName (some { repo with auth := some auth })
    { config with repositories := some { repositories with entries := entries } }
  | _, _ => config

/-- `GetRepoAuth`: the authentication of a repository, completed in place from the default. -/
def getRepoAuth (unique : List ByteString → List ByteString) (config : Config)
    (repoName : ByteString) : Except Panic (Option Auth × Config) := do
  let repo ← config.entry repoName
  let repositories ← deref config.repositories
  match repo.auth, repositories.auth with
  | none, authDef => pure (authDef, config)
  | some auth, authDef =>
    if auth.server = [] ∨ auth.baseDN = [] ∨ auth.domain = [] then do
      let authDef ← deref authDef
      let groups :=
        if auth.groups.length > 0 then unique (auth.groups ++ authDef.groups) else auth.groups
      let auth : Auth :=
        { baseDN := authDef.baseDN
          domain := authDef.domain
          server := authDef.server
          groups := groups
          defaultTimeout := authDef.defaultTimeout }
      pure (some auth, config.setAuth repoName auth)
    else pure (some auth, config)

/-- `IsExistsrepo`: whether the key is present, whatever it holds. -/
def isExistsrepo (config : Config) (repoName : ByteString) : Bool :=
  (config.entries.lookup repoName).isSome

/-- `filepath.Abs`, with the working directory of the process. -/
def abs (cwd path : ByteString) : ByteString := if isAbs path then clean path else join [cwd, path]

/-- `GetRepoRootPath` -/
def getRepoRootPath (cwd : ByteString) (config : Config) (repoName : ByteString) :
    Except Panic ByteString := do
  let repo ← config.entry repoName
  if repo.repoRootPath = [] then do
    let repositories ← deref config.repositories
    pure repositories.baseRepoRootPath
  else pure (abs cwd repo.repoRootPath)

/-- `GetRepoName` -/
def getRepoName (config : Config) (repoName : ByteString) : Except Panic ByteString := do
  let repo ← config.entry repoName
  pure repo.name

/-- `GetRepoDir` -/
def getRepoDir (config : Config) (repoName : ByteString) : Except Panic ByteString := do
  let repo ← config.entry repoName
  if repo.dir ≠ [] then pure repo.dir else config.getRepoName repoName

/-- Where the files of a repository are. -/
structure RepoVarPath where
  root : ByteString
  dir : ByteString
  name : ByteString
  deriving DecidableEq

/-- `GetRepoVarPath` -/
def getRepoVarPath (cwd : ByteString) (config : Config) (repoName : ByteString) :
    Except Panic RepoVarPath := do
  let root ← config.getRepoRootPath cwd repoName
  let dir ← config.getRepoDir repoName
  let name ← config.getRepoName repoName
  pure ⟨root, dir, name⟩

/-- `JoinURL` -/
def joinURL (base : ByteString) (paths : List ByteString) : ByteString :=
  let path := join paths
  let trimmed := (base.reverse.dropWhile fun byte => decide (byte = slash)).reverse
  trimmed ++ slash :: path.dropWhile fun byte => decide (byte = slash)

/-- `GetURLPrefix` -/
def getURLPrefix (config : Config) (repoName : ByteString) : ByteString :=
  joinURL config.server.urlPrefix [repoName, [slash]]

/-- The prefix, without its last slashes, and the name of the repository. -/
theorem getURLPrefix_eq (config : Config) (repo : Segment) :
    config.getURLPrefix repo.val =
      config.server.urlPrefix.rdropWhile (· = slash) ++ slash :: repo.val := by
  have hjoin : join [repo.val, [slash]] = repo.val := by
    have hcat : [slash].intercalate [repo.val, [slash]] = repo.val ++ [slash, slash] := by
      simp [List.intercalate]
    have helems : components (repo.val ++ [slash, slash]) = [repo.val, [], []] := by
      rw [components_append, components_of_slash_notMem repo.property.2.1]
      rfl
    have hempty : ∀ stack, push false stack [] = stack := fun stack => if_pos (.inl rfl)
    simp [join, repo.property.1, hcat, clean, isAbs_segment_append, helems, push_segment, hempty]
  have htrim : (repo.val.dropWhile fun byte => decide (byte = slash)) = repo.val := by
    obtain ⟨byte, rest, hname, hbyte⟩ := repo.exists_cons
    rw [hname]
    exact List.dropWhile_cons_of_neg (by simpa using hbyte)
  simp only [getURLPrefix, joinURL, hjoin, htrim]
  rfl

/-- The prefix ends with the name of the repository. -/
theorem getURLPrefix_segment (config : Config) (repo : Segment) :
    ∃ start, config.getURLPrefix repo.val = start ++ slash :: repo.val :=
  ⟨_, config.getURLPrefix_eq repo⟩

/-- `GetPathInURLPrefix`, given the path that `url.Parse` finds or its error. -/
def getPathInURLPrefix (urlPath : ByteString → Except ByteString ByteString) (config : Config)
    (repoName : ByteString) : Except ByteString ByteString :=
  urlPath (config.getURLPrefix repoName)

end Config

end RepoManager
