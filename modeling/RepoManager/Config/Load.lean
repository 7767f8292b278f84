import RepoManager.Config.EffectiveAuth

/-!
# Loading the configuration

`NewConfig` and what its checks are worth to the handlers. The checks look at the server section
and at what the repositories share, never at an entry: an entry may be `nil`, and an incomplete
authentication may have no default to be completed from. Both are found out by the first request
for the repository, which panics.

`lookupsComplete_iff` says exactly for which repositories of an accepted configuration the lookups
complete, after any history of calls. The host, the decoder and the parser of URLs are parameters.
-/

open LexicalPath

namespace RepoManager

/-- What loading needs from outside: the working directory, the files, and two parsers. -/
structure Host where
  cwd : ByteString
  /-- `os.Open` and reading the file. -/
  readFile : ByteString → Except ByteString ByteString
  /-- `os.Open` fails because there is no such file. -/
  notExist : ByteString → Bool
  /-- The YAML decoder, on a configuration that holds the defaults. -/
  decode : ByteString → Config → Except ByteString Config
  urlPath : ByteString → Except ByteString ByteString

/-- `createConfig` -/
def createConfig : Config where
  server := ⟨[], ascii "./www", 3600, []⟩
  repositories := none

/-- A check that ends loading with an error unless it holds. -/
def require (holds : Prop) [Decidable holds] (err : ByteString) : Except ByteString Unit :=
  if holds then .ok () else .error err

/-- `NewConfig` after decoding: the checks, the default of `exec_reindex`, absolute paths. -/
def checkConfig (host : Host) (config : Config) : Except ByteString Config := do
  let documentRoot := Config.abs host.cwd config.server.documentRoot
  require (config.server.urlPrefix ≠ []) (ascii "server.url_prefix is don't exist or empty")
  let _ ← host.urlPath config.server.urlPrefix
  require (host.notExist documentRoot = false)
    (ascii "non-existent path '" ++ documentRoot ++ ascii "' in server.document_root")
  match config.repositories with
  | none => .error (ascii "no repositories announced")
  | some repositories => do
    require (1 ≤ repositories.entries.keys.length) (ascii "no repositories announced")
    require (repositories.baseRepoRootPath ≠ [])
      (ascii "base_repo_root_path in repositories is don`t exist")
    let execReindex :=
      if repositories.execReindex = [] then
        ascii "echo repositories.exec_reindex is don`t exist, args: "
      else repositories.execReindex
    let baseRepoRootPath := Config.abs host.cwd repositories.baseRepoRootPath
    require (host.notExist baseRepoRootPath = false)
      (ascii "non-existent path '" ++ baseRepoRootPath ++
        ascii "' in repositories.base_repo_root_path")
    pure
      { server := { config.server with documentRoot }
        repositories := some { repositories with execReindex, baseRepoRootPath } }

/-- `NewConfig` -/
def newConfig (host : Host) (configPath : ByteString) : Except ByteString Config := do
  let content ← host.readFile (Config.abs host.cwd configPath)
  let config ← host.decode content createConfig
  checkConfig host config

/-- `exec_reindex`, or what stands for it when it is absent. -/
def Repositories.effectiveExec (repositories : Repositories) : ByteString :=
  if repositories.execReindex = [] then
    ascii "echo repositories.exec_reindex is don`t exist, args: "
  else repositories.execReindex

/-- An accepted configuration has the repositories that were decoded, but for the exec string and
the root path. -/
theorem checkConfig_repositories {host : Host} {decoded config : Config}
    (h : checkConfig host decoded = .ok config) :
    ∃ before, decoded.repositories = some before ∧
      config.repositories = some { before with
        execReindex := before.effectiveExec
        baseRepoRootPath := Config.abs host.cwd before.baseRepoRootPath } := by
  simp only [checkConfig] at h
  obtain ⟨-, -, h⟩ := bind_eq_ok_iff.mp h
  obtain ⟨-, -, h⟩ := bind_eq_ok_iff.mp h
  obtain ⟨-, -, h⟩ := bind_eq_ok_iff.mp h
  cases hsome : decoded.repositories with
  | none =>
    rw [hsome] at h
    exact nomatch h
  | some repositories =>
    rw [hsome] at h
    obtain ⟨-, -, h⟩ := bind_eq_ok_iff.mp h
    obtain ⟨-, -, h⟩ := bind_eq_ok_iff.mp h
    obtain ⟨-, -, h⟩ := bind_eq_ok_iff.mp h
    obtain rfl := Except.ok.inj h
    exact ⟨repositories, rfl, rfl⟩

/-- It has their default authentication and their entries. -/
theorem checkConfig_eq_ok {host : Host} {decoded config : Config}
    (h : checkConfig host decoded = .ok config) :
    ∃ before after, decoded.repositories = some before ∧ config.repositories = some after ∧
      after.auth = before.auth ∧ after.entries = before.entries := by
  obtain ⟨before, hbefore, hafter⟩ := checkConfig_repositories h
  exact ⟨before, _, hbefore, hafter, rfl, rfl⟩

namespace Config

/-- Every lookup of the handlers for a repository completes. -/
def LookupsComplete (unique : List ByteString → List ByteString) (cwd : ByteString)
    (config : Config) (repoName : ByteString) : Prop :=
  (∃ repo, config.getRepoVarPath cwd repoName = .ok repo) ∧
    ∃ auth after, config.getRepoAuth unique repoName = .ok (auth, after)

end Config

/-- What the checks leave open: the entry of the repository is not `nil`, and an incomplete
authentication has a default to be completed from. -/
def Repositories.Servable (repositories : Repositories) (repoName : ByteString) : Prop :=
  ∃ repo, repositories.entries.lookup repoName = some (some repo) ∧
    ∀ auth, repo.auth = some auth → auth.Incomplete → repositories.auth.isSome

section Lookups

variable {unique : List ByteString → List ByteString} {config : Config}
  {before after repositories : Repositories}

/-- The paths of a repository are found when its entry is. -/
theorem getRepoVarPath_isOk_iff (cwd : ByteString) (hsome : config.repositories = some repositories)
    (repoName : ByteString) : (∃ paths, config.getRepoVarPath cwd repoName = .ok paths) ↔
      ∃ repo, repositories.entries.lookup repoName = some (some repo) := by
  simp only [← Option.join_eq_some_iff]
  have hentry := Config.entry_eq hsome repoName
  cases hlookup : (repositories.entries.lookup repoName).join with
  | none =>
    rw [hlookup] at hentry
    constructor
    · rintro ⟨paths, hpaths⟩
      obtain ⟨root, hroot, -⟩ := bind_eq_ok_iff.mp hpaths
      rw [Config.getRepoRootPath, hentry] at hroot
      exact nomatch hroot
    · rintro ⟨repo, hrepo⟩
      exact nomatch hrepo
  | some repo =>
    rw [hlookup] at hentry
    have hroot : ∃ root, config.getRepoRootPath cwd repoName = .ok root := by
      rw [Config.getRepoRootPath, hentry, hsome]
      by_cases hunset : repo.repoRootPath = []
      · exact ⟨_, if_pos hunset⟩
      · exact ⟨_, if_neg hunset⟩
    have hname : config.getRepoName repoName = .ok repo.name := by
      rw [Config.getRepoName, hentry]
      rfl
    have hdir : ∃ dir, config.getRepoDir repoName = .ok dir := by
      rw [Config.getRepoDir, hentry, hname]
      by_cases hunset : repo.dir ≠ []
      · exact ⟨_, if_pos hunset⟩
      · exact ⟨_, if_neg hunset⟩
    obtain ⟨root, hroot⟩ := hroot
    obtain ⟨dir, hdir⟩ := hdir
    refine ⟨fun _ => ⟨repo, rfl⟩, fun _ => ⟨⟨root, dir, repo.name⟩, ?_⟩⟩
    rw [Config.getRepoVarPath, hroot, hdir, hname]
    rfl

/-- The lookups of a configuration complete for the repositories that can be served. -/
theorem lookupsComplete_iff_servable (cwd : ByteString)
    (hsome : config.repositories = some repositories) (repoName : ByteString) :
    config.LookupsComplete unique cwd repoName ↔ repositories.Servable repoName := by
  rw [Config.LookupsComplete, getRepoVarPath_isOk_iff cwd hsome, ← exists_and_right]
  apply exists_congr
  intro repo
  rw [and_congr_right_iff]
  intro hlookup
  rw [Config.getRepoAuth_eq hsome, hlookup, Option.join_some]
  dsimp only
  cases repo.auth with
  | none => exact ⟨fun _ => nofun, fun _ => ⟨_, _, rfl⟩⟩
  | some auth =>
    cases repositories.auth with
    | none =>
      by_cases hinc : auth.Incomplete
      · simp only [if_pos hinc]
        constructor
        · rintro ⟨result, after, hresult⟩
          exact nomatch hresult
        · intro hdef
          exact nomatch hdef auth rfl hinc
      · simp only [if_neg hinc]
        refine ⟨fun _ own hown hown' => ?_, fun _ => ⟨_, _, rfl⟩⟩
        exact absurd (Option.some.inj hown ▸ hown') hinc
    | some authDef => exact ⟨fun _ _ _ _ => rfl, fun _ => ⟨_, _, rfl⟩⟩

/-- Completing an entry does not change whether it can be served. -/
theorem servable_completedFor {called : ByteString}
    (hcall : Config.CompletedFor unique [called] before after) (repoName : ByteString) :
    after.Servable repoName ↔ before.Servable repoName := by
  rw [Repositories.Servable, Repositories.Servable, hcall.auth_eq, hcall.lookup_eq]
  split
  · cases hlookup : before.entries.lookup repoName with
    | none => exact Iff.rfl
    | some held =>
      cases held with
      | none => exact Iff.rfl
      | some repo =>
        cases before.auth with
        | none =>
          have hsame : repo.completed unique none = repo := by
            unfold Repo.completed
            split
            · next hdef => exact nomatch hdef
            · rfl
          rw [Option.map_some, Option.map_some, hsame]
        | some authDef =>
          constructor
          · intro _
            exact ⟨repo, rfl, fun _ _ _ => rfl⟩
          · intro _
            exact ⟨_, rfl, fun _ _ _ => rfl⟩
  · exact Iff.rfl

/-- No history of calls changes which repositories exist and which can be served. -/
theorem servable_afterCalls (hsome : config.repositories = some repositories)
    (calls : List ByteString) (repoName : ByteString) :
    ∃ after, (config.afterCalls unique calls).repositories = some after ∧
      (after.entries.lookup repoName).isSome = (repositories.entries.lookup repoName).isSome ∧
      (after.Servable repoName ↔ repositories.Servable repoName) := by
  induction calls using List.reverseRecOn with
  | nil => exact ⟨repositories, hsome, rfl, Iff.rfl⟩
  | append_singleton calls called ih =>
    obtain ⟨middle, hmiddle, hsame, hserved⟩ := ih
    obtain ⟨after, hafter, hcall⟩ := @Config.completedFor_afterCall unique _ _ hmiddle called
    rw [Config.afterCalls, List.foldl_append, ← Config.afterCalls]
    refine ⟨after, hafter, ?_, (servable_completedFor hcall repoName).trans hserved⟩
    rw [hcall.lookup_eq, ← hsame]
    split
    · exact Option.isSome_map
    · rfl

end Lookups

/-- When `NewConfig` accepts what it decoded, the lookups for a request that passes
`setRequestChekRepo` complete, after any history of calls, exactly when the entry of its repository
is not `nil` and has a default to be completed from if its authentication is incomplete. -/
theorem lookupsComplete_iff (unique : List ByteString → List ByteString) (host : Host)
    (decoded config : Config) (haccepted : checkConfig host decoded = .ok config)
    (calls : List ByteString) (repoName : ByteString) :
    ((config.afterCalls unique calls).isExistsrepo repoName = true →
        (config.afterCalls unique calls).LookupsComplete unique host.cwd repoName) ↔
      ∀ repositories, decoded.repositories = some repositories →
        (repositories.entries.lookup repoName).isSome → repositories.Servable repoName := by
  obtain ⟨before, after, hdecoded, hconfig, hauth, hentries⟩ := checkConfig_eq_ok haccepted
  obtain ⟨last, hlast, hsame, hserved⟩ := @servable_afterCalls unique _ _ hconfig calls repoName
  rw [lookupsComplete_iff_servable host.cwd hlast, hserved, hdecoded, Config.isExistsrepo,
    Config.entries, hlast, hsame]
  simp only [Option.some.injEq, forall_eq', Repositories.Servable, hauth, hentries]

/-- A host on which every file and directory exists. -/
def Host.sample : Host where
  cwd := ascii "/opt"
  readFile _ := .ok []
  notExist _ := false
  decode _ := .ok
  urlPath := .ok

/-- The repositories `kes`, whose entry is `nil`, and `1c`, without a default for it. -/
def unservable : Config :=
  { Config.sample with
    repositories := some
      { Config.sampleRepositories with
        auth := none
        entries := (AList.singleton (ascii "1c") (some Config.sampleRepo)).insert (ascii "kes") none } }

/-- The configuration is accepted and both repositories exist, but the lookups panic. -/
theorem unservable_panics : ∃ config, checkConfig Host.sample unservable = .ok config ∧
    config.isExistsrepo (ascii "kes") = true ∧ config.isExistsrepo (ascii "1c") = true ∧
    config.getRepoVarPath Host.sample.cwd (ascii "kes") = .error .nilDereference ∧
    (config.getRepoAuth sortUnique (ascii "1c")).map Prod.fst = .error .nilDereference ∧
    ¬ config.LookupsComplete sortUnique Host.sample.cwd (ascii "kes") ∧
    ¬ config.LookupsComplete sortUnique Host.sample.cwd (ascii "1c") := by
  refine ⟨_, rfl, rfl, rfl, rfl, rfl, ?_, ?_⟩
  · rintro ⟨⟨repo, hrepo⟩, -⟩
    exact nomatch hrepo
  · rintro ⟨-, auth, after, hauth⟩
    exact nomatch hauth

/-- The lookups of an accepted configuration complete, also after a call. -/
theorem sample_lookupsComplete_iff :
    ∃ config, checkConfig Host.sample Config.sample = .ok config ∧
      (config.afterCalls sortUnique [ascii "1c"]).isExistsrepo (ascii "1c") = true ∧
      (config.afterCalls sortUnique [ascii "1c"]).LookupsComplete sortUnique Host.sample.cwd
        (ascii "1c") := by
  refine ⟨_, rfl, rfl, (lookupsComplete_iff sortUnique Host.sample Config.sample _ rfl
    [ascii "1c"] (ascii "1c")).mpr ?_ rfl⟩
  rintro repositories hrepositories -
  obtain rfl := Option.some.inj hrepositories
  exact ⟨Config.sampleRepo, rfl, fun _ _ _ => rfl⟩

end RepoManager
