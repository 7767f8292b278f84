import RepoManager.Config.EffectiveAuth

/-!
# What a request sees of the configuration

The lookups of one repository read what the repositories share and the entry of that repository. A
sign-in completes an entry, so an entry counts as what it is completed to. Configurations that are
the same in this sense answer every lookup alike, and no sign-in to any repository leaves them.
-/

namespace RepoManager

namespace Config

/-- What all repositories share: the command, the root path and the default authentication. -/
def shared (config : Config) : Option (ByteString × ByteString × Option Auth) :=
  config.repositories.map fun repositories =>
    (repositories.execReindex, repositories.baseRepoRootPath, repositories.auth)

/-- The entry of a repository, as a sign-in completes it. -/
def completedEntry (unique : List ByteString → List ByteString) (config : Config)
    (repoName : ByteString) : Option (Option Repo) :=
  config.repositories.bind fun repositories =>
    (repositories.entries.lookup repoName).map
      (Option.map (Repo.completed unique repositories.auth))

/-- Two configurations that no request to a repository can tell apart. -/
structure SameFor (unique : List ByteString → List ByteString) (repoName : ByteString)
    (left right : Config) : Prop where
  server_eq : left.server = right.server
  shared_eq : left.shared = right.shared
  entry_eq : left.completedEntry unique repoName = right.completedEntry unique repoName

section View

variable {unique : List ByteString → List ByteString} {repoName : ByteString}

theorem SameFor.refl (config : Config) : SameFor unique repoName config config := ⟨rfl, rfl, rfl⟩

theorem SameFor.symm {left right : Config} (h : SameFor unique repoName left right) :
    SameFor unique repoName right left := ⟨h.server_eq.symm, h.shared_eq.symm, h.entry_eq.symm⟩

theorem SameFor.trans {first second third : Config} (h : SameFor unique repoName first second)
    (h' : SameFor unique repoName second third) : SameFor unique repoName first third where
  server_eq := h.server_eq.trans h'.server_eq
  shared_eq := h.shared_eq.trans h'.shared_eq
  entry_eq := h.entry_eq.trans h'.entry_eq

/-! ## The lookups -/

/-- The paths of an entry. -/
def pathsOf (cwd basePath : ByteString) (repo : Repo) : RepoVarPath where
  root := if repo.repoRootPath = [] then basePath else abs cwd repo.repoRootPath
  dir := if repo.dir ≠ [] then repo.dir else repo.name
  name := repo.name

/-- Completing an entry leaves its paths. -/
theorem pathsOf_completed (cwd basePath : ByteString) (authDef : Option Auth) (repo : Repo) :
    pathsOf cwd basePath (repo.completed unique authDef) = pathsOf cwd basePath repo := by
  unfold Repo.completed
  split
  · rfl
  · rfl

/-- The three lookups of the paths, at once. -/
theorem getRepoVarPath_eq (cwd : ByteString) {config : Config} {repositories : Repositories}
    (hsome : config.repositories = some repositories) (repoName : ByteString) :
    config.getRepoVarPath cwd repoName =
      match (repositories.entries.lookup repoName).join with
      | none => .error .nilDereference
      | some repo => .ok (pathsOf cwd repositories.baseRepoRootPath repo) := by
  have hentry := Config.entry_eq hsome repoName
  cases hlookup : (repositories.entries.lookup repoName).join with
  | none =>
    rw [hlookup] at hentry
    rw [getRepoVarPath, getRepoRootPath, hentry]
    rfl
  | some repo =>
    rw [hlookup] at hentry
    have hroot : config.getRepoRootPath cwd repoName =
        .ok (pathsOf cwd repositories.baseRepoRootPath repo).root := by
      rw [getRepoRootPath, hentry, hsome]
      by_cases hunset : repo.repoRootPath = []
      · simp only [pathsOf, if_pos hunset]
        exact if_pos hunset
      · simp only [pathsOf, if_neg hunset]
        exact if_neg hunset
    have hname : config.getRepoName repoName = .ok repo.name := by
      rw [getRepoName, hentry]
      rfl
    have hdir : config.getRepoDir repoName =
        .ok (pathsOf cwd repositories.baseRepoRootPath repo).dir := by
      rw [getRepoDir, hentry, hname]
      by_cases hunset : repo.dir ≠ []
      · simp only [pathsOf, if_pos hunset]
        exact if_pos hunset
      · simp only [pathsOf, if_neg hunset]
        exact if_neg hunset
    rw [getRepoVarPath, hroot, hdir, hname]
    rfl

variable {left right : Config} (h : SameFor unique repoName left right)

include h

/-- Both configurations have repositories, or none has. -/
theorem SameFor.cases : left.repositories = none ∧ right.repositories = none ∨
    ∃ first second, left.repositories = some first ∧ right.repositories = some second ∧
      first.execReindex = second.execReindex ∧
      first.baseRepoRootPath = second.baseRepoRootPath ∧ first.auth = second.auth ∧
      (first.entries.lookup repoName).map (Option.map (Repo.completed unique first.auth)) =
        (second.entries.lookup repoName).map (Option.map (Repo.completed unique second.auth)) := by
  have hshared := h.shared_eq
  have hentry := h.entry_eq
  unfold shared at hshared
  unfold completedEntry at hentry
  cases hleft : left.repositories with
  | none =>
    cases hright : right.repositories with
    | none => exact Or.inl ⟨rfl, rfl⟩
    | some second =>
      rw [hleft, hright] at hshared
      contradiction
  | some first =>
    cases hright : right.repositories with
    | none =>
      rw [hleft, hright] at hshared
      contradiction
    | some second =>
      rw [hleft, hright] at hshared hentry
      simp only [Option.map_some, Option.some.injEq, Prod.mk.injEq] at hshared
      exact Or.inr ⟨first, second, rfl, rfl, hshared.1, hshared.2.1, hshared.2.2, hentry⟩

/-- `IsExistsrepo` -/
theorem SameFor.isExistsrepo_eq : left.isExistsrepo repoName = right.isExistsrepo repoName := by
  rcases h.cases with ⟨hleft, hright⟩ | ⟨first, second, hleft, hright, -, -, -, hentry⟩
  · rw [isExistsrepo, isExistsrepo, entries, entries, hleft, hright]
  · have hsome := congrArg Option.isSome hentry
    rw [Option.isSome_map, Option.isSome_map] at hsome
    rw [isExistsrepo, isExistsrepo, entries, entries, hleft, hright]
    exact hsome

/-- `GetRepoVarPath` -/
theorem SameFor.getRepoVarPath_eq (cwd : ByteString) :
    left.getRepoVarPath cwd repoName = right.getRepoVarPath cwd repoName := by
  rcases h.cases with ⟨hleft, hright⟩ | ⟨first, second, hleft, hright, -, hbase, hauth, hentry⟩
  · simp only [getRepoVarPath, getRepoRootPath, entry, hleft, hright]
    rfl
  · rw [Config.getRepoVarPath_eq cwd hleft, Config.getRepoVarPath_eq cwd hright]
    have hjoin := congrArg Option.join hentry
    cases hfirst : first.entries.lookup repoName with
    | none =>
      cases hsecond : second.entries.lookup repoName with
      | none => rfl
      | some held =>
        rw [hfirst, hsecond] at hentry
        contradiction
    | some held =>
      cases hsecond : second.entries.lookup repoName with
      | none =>
        rw [hfirst, hsecond] at hentry
        contradiction
      | some other =>
        rw [hfirst, hsecond] at hjoin
        simp only [Option.map_some, Option.join_some] at hjoin ⊢
        cases held with
        | none =>
          cases other with
          | none => rfl
          | some repo => contradiction
        | some own =>
          cases other with
          | none => contradiction
          | some repo =>
            have hrepo := Option.some.inj hjoin
            dsimp only
            rw [← pathsOf_completed cwd _ first.auth own, hrepo, pathsOf_completed, hbase]

/-- `GetURLPrefix` -/
theorem SameFor.getURLPrefix_eq : left.getURLPrefix repoName = right.getURLPrefix repoName := by
  rw [getURLPrefix, getURLPrefix, h.server_eq]

/-- `GetPathInURLPrefix` -/
theorem SameFor.getPathInURLPrefix_eq (urlPath : ByteString → Except ByteString ByteString) :
    left.getPathInURLPrefix urlPath repoName = right.getPathInURLPrefix urlPath repoName := by
  rw [getPathInURLPrefix, getPathInURLPrefix, h.getURLPrefix_eq]

/-- The result of `GetRepoAuth` -/
theorem SameFor.map_fst_getRepoAuth_eq (hunique : SortsUnique unique) :
    (left.getRepoAuth unique repoName).map Prod.fst =
      (right.getRepoAuth unique repoName).map Prod.fst := by
  rcases h.cases with ⟨hleft, hright⟩ | ⟨first, second, hleft, hright, -, -, hauth, hentry⟩
  · simp only [getRepoAuth, entry, hleft, hright]
    rfl
  · have hjoin (held : Option (Option Repo)) (authDef : Option Auth) :
        (held.map (Option.map (Repo.completed unique authDef))).join =
          held.join.map (Repo.completed unique authDef) := by
      cases held with
      | none => rfl
      | some inner => rfl
    have hcompleted := congrArg Option.join hentry
    rw [hjoin, hjoin] at hcompleted
    rw [map_fst_getRepoAuth hleft, map_fst_getRepoAuth hright,
      ← effectiveAuth_completed hunique first.auth, hcompleted, hauth,
      effectiveAuth_completed hunique]

end View

/-! ## Sign-ins -/

section SignIns

variable {unique : List ByteString → List ByteString}

/-- Writing an authentication leaves what is shared. -/
theorem shared_setAuth (config : Config) (repoName : ByteString) (auth : Auth) :
    (config.setAuth repoName auth).shared = config.shared := by
  unfold setAuth
  split
  · next repositories repo hsome _ =>
    rw [shared, shared, hsome]
    rfl
  · rfl

/-- A call leaves what is shared. -/
theorem shared_afterCall (config : Config) (repoName : ByteString) :
    (config.afterCall unique repoName).shared = config.shared := by
  cases hsome : config.repositories with
  | none =>
    have hcall : config.afterCall unique repoName = config := by
      simp only [afterCall, getRepoAuth, entry, hsome]
      rfl
    rw [hcall]
  | some repositories =>
    rw [afterCall_eq hsome]
    split
    · rfl
    · split
      · split
        · exact shared_setAuth ..
        · rfl
      · rfl

/-- A call leaves the server section. -/
theorem server_afterCall (config : Config) (repoName : ByteString) :
    (config.afterCall unique repoName).server = config.server := by
  unfold afterCall
  split
  · next found after hcall => exact server_of_getRepoAuth hcall
  · rfl

/-- No sign-in to any repository can be noticed. -/
theorem sameFor_afterCall (hunique : SortsUnique unique) (config : Config)
    (called repoName : ByteString) :
    SameFor unique repoName (config.afterCall unique called) config where
  server_eq := server_afterCall config called
  shared_eq := shared_afterCall config called
  entry_eq := by
    cases hsome : config.repositories with
    | none =>
      have hcall : config.afterCall unique called = config := by
        simp only [afterCall, getRepoAuth, entry, hsome]
        rfl
      rw [hcall]
    | some repositories =>
      obtain ⟨after, hafter, hcompleted⟩ := @completedFor_afterCall unique _ _ hsome called
      rw [completedEntry, completedEntry, hsome, hafter, Option.bind_some, Option.bind_some,
        hcompleted.lookup_eq, hcompleted.auth_eq]
      split
      · cases repositories.entries.lookup repoName with
        | none => rfl
        | some held =>
          cases held with
          | none => rfl
          | some repo => simp only [Option.map_some, Repo.completed_completed hunique]
      · rfl

/-- The configuration that `GetRepoAuth` returns is the one it leaves. -/
theorem afterCall_of_getRepoAuth {config after : Config} {repoName : ByteString}
    {auth : Option Auth} (h : config.getRepoAuth unique repoName = .ok (auth, after)) :
    config.afterCall unique repoName = after := by
  rw [afterCall, h]

end SignIns

end Config

end RepoManager
