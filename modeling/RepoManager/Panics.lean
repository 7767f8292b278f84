import RepoManager.Config.Load
import RepoManager.Config.View
import RepoManager.Handler.Cookies
import RepoManager.Handler.RoutingTable
import RepoManager.Server.Run

/-!
# Requests that panic

A handler that panics ends the connection of its client without an answer. It can panic where it
follows a pointer of the configuration, and where it executes an index page that was not parsed.
Sign-ins rewrite the configuration, but no run of them makes a lookup panic that did not, or the
other way round. So the loaded configuration tells whether any run of requests ever panics, and
`never_panics_iff` says how.
-/

open LexicalPath

namespace RepoManager

/-- The connection ends without an answer. -/
def Reply.Panics (reply : Reply) : Prop := ∃ panic, reply = .panic panic

/-- What a repository needs for its requests to be answered: an entry that is not `nil`, a default
that completes its authentication if it can sign in at all, and an index page if that has a path. -/
structure Answers (env : Externals) (config : Config) (repositories : Repositories)
    (repoName : ByteString) : Prop where
  entry : ∃ repo, repositories.entries.lookup repoName = some (some repo)
  auth : env.store.validName repoName → repositories.Servable repoName
  index : env.indexTemplate = none →
    ∃ err, config.getPathInURLPrefix env.urlPath repoName = .error err

/-! ## Where handlers panic -/

section Handlers

variable {env : Externals} {vars : Mux.Vars} {req : Request} {world : World}

/-- Errors are answers. -/
theorem not_panics_respondError (status : Nat) (err : GoError) :
    ¬ (respondError status err).Panics := by
  rintro ⟨_, h⟩
  contradiction

/-- Results of services are answers. -/
theorem not_panics_respondResult (result : Except GoError ByteString) :
    ¬ (respondResult result).Panics := by
  rintro ⟨_, h⟩
  cases result <;> contradiction

/-- A handler that looks up the paths panics there, or in what follows. -/
theorem panics_withRepoVarPath {next : Config.RepoVarPath → Outcome}
    (h : (withRepoVarPath env vars world next).reply.Panics) :
    (∃ panic, world.config.getRepoVarPath env.cwd (repoVar vars) = .error panic) ∨
      ∃ paths, world.config.getRepoVarPath env.cwd (repoVar vars) = .ok paths ∧
        (next paths).reply.Panics := by
  unfold withRepoVarPath at h
  split at h
  · next panic hpanic => exact Or.inl ⟨panic, hpanic⟩
  · next paths hpaths => exact Or.inr ⟨paths, hpaths, h⟩

/-- Paths are found only where there are repositories. -/
theorem repositories_of_getRepoVarPath {config : Config} {cwd repoName : ByteString}
    {paths : Config.RepoVarPath} (h : config.getRepoVarPath cwd repoName = .ok paths) :
    ∃ repositories, config.repositories = some repositories := by
  cases hsome : config.repositories with
  | none =>
    have hpanic : config.getRepoVarPath cwd repoName = .error .nilDereference := by
      simp only [Config.getRepoVarPath, Config.getRepoRootPath, Config.entry, hsome]
      rfl
    rw [h] at hpanic
    contradiction
  | some repositories => exact ⟨repositories, rfl⟩

/-- A sign-in panics where it looks up the authentication. -/
theorem panics_signIn (h : (signIn env vars req world).reply.Panics) :
    env.store.validName (repoVar vars) ∧
      ∃ panic, world.config.getRepoAuth env.unique (repoVar vars) = .error panic := by
  unfold signIn at h
  dsimp only at h
  split at h
  · exact absurd h (not_panics_respondError _ _)
  split at h
  · exact absurd h (not_panics_respondError _ _)
  next values hvalues =>
  split at h
  · next panic hpanic => exact ⟨validName_of_sessionGet hvalues, panic, hpanic⟩
  · exact absurd h (not_panics_respondError _ _)
  split at h
  · exact absurd h (not_panics_respondError _ _)
  split at h
  · exact absurd h (not_panics_respondError _ _)
  split at h
  · exact absurd h (not_panics_respondError _ _)
  · obtain ⟨_, h⟩ := h
    contradiction

/-- The three places where a handler panics. -/
theorem panics_handler {endpoint : Endpoint}
    (h : (endpoint.handler env vars req world).reply.Panics) :
    (∃ panic, world.config.getRepoVarPath env.cwd (repoVar vars) = .error panic) ∨
      (env.store.validName (repoVar vars) ∧
        ∃ panic, world.config.getRepoAuth env.unique (repoVar vars) = .error panic) ∨
      env.indexTemplate = none ∧
        ∃ path, world.config.getPathInURLPrefix env.urlPath (repoVar vars) = .ok path := by
  cases endpoint with
  | signIn => exact Or.inr (Or.inl (panics_signIn h))
  | handleFolders =>
    refine (panics_withRepoVarPath h).imp_right fun ⟨paths, _, hnext⟩ => ?_
    exact absurd hnext (not_panics_respondResult _)
  | handleFiles =>
    refine (panics_withRepoVarPath h).imp_right fun ⟨paths, _, hnext⟩ => ?_
    exact absurd hnext (not_panics_respondResult _)
  | handleFileDownloading =>
    refine (panics_withRepoVarPath h).imp_right fun ⟨paths, _, hnext⟩ => ?_
    exact absurd hnext (not_panics_respondResult _)
  | handleFileInfo =>
    refine (panics_withRepoVarPath h).imp_right fun ⟨paths, _, hnext⟩ => ?_
    exact absurd hnext (not_panics_respondResult _)
  | handleFileUploading =>
    refine (panics_withRepoVarPath h).imp_right fun ⟨paths, _, hnext⟩ => ?_
    dsimp only at hnext
    split at hnext
    · exact absurd hnext (not_panics_respondError _ _)
    · exact absurd hnext (not_panics_respondResult _)
  | handleFileReindexes =>
    refine (panics_withRepoVarPath h).imp_right fun ⟨paths, hpaths, hnext⟩ => ?_
    -- the second pointer is the one that the paths were found through
    obtain ⟨repositories, hsome⟩ := repositories_of_getRepoVarPath hpaths
    rw [hsome] at hnext
    exact absurd hnext (not_panics_respondResult _)
  | handleIndex =>
    simp only [Endpoint.handler, handleIndex] at h
    split at h
    · exact absurd h (not_panics_respondError _ _)
    next path hpath =>
    split at h
    · next hnone => exact Or.inr (Or.inr ⟨hnone, path, hpath⟩)
    · exact absurd h (not_panics_respondResult _)
  | fileServer =>
    obtain ⟨_, h⟩ := h
    contradiction

/-- A panic behind middlewares comes from the handler, of a repository that exists. -/
theorem panics_wrap (handler : Handler) (middlewares : List Middleware)
    (h : (middlewares.foldr (Middleware.wrap env) handler vars req world).reply.Panics) :
    (handler vars req world).reply.Panics ∧
      (.setRequestChekRepo ∈ middlewares → world.config.isExistsrepo (repoVar vars)) := by
  induction middlewares with
  | nil => exact ⟨h, fun hmem => absurd hmem List.not_mem_nil⟩
  | cons middleware rest ih =>
    rw [List.foldr_cons] at h
    cases middleware with
    | setRequestID => simpa using ih h
    | logRequest => simpa using ih h
    | setRequestChekRepo =>
      simp only [Middleware.wrap, setRequestChekRepo] at h
      split at h
      · next hexists => exact ⟨(ih h).1, fun _ => hexists⟩
      · obtain ⟨_, h⟩ := h
        contradiction
    | authenticate =>
      simp only [Middleware.wrap, authenticate] at h
      split at h
      · exact absurd h (not_panics_respondError _ _)
      split at h
      · exact absurd h (not_panics_respondError _ _)
      split at h
      · exact absurd h (not_panics_respondError _ _)
      · simpa using ih h

/-- Every route checks that its repository exists. -/
theorem setRequestChekRepo_of_route {method path : ByteString}
    {found : Mux.Found Endpoint Middleware} (h : route method path = some found) :
    .setRequestChekRepo ∈ found.middlewares := by
  refine Mux.dispatchFirst_guarded .setRequestChekRepo (fun _ => True) _ _ _ _ ?_ found h trivial
  simp [configureRouter, Mux.GuardedAll, Mux.Guarded]

/-- The repository of a routed request is a path name. -/
theorem repoVar_of_route {method path : ByteString} {found : Mux.Found Endpoint Middleware}
    (hclean : Mux.cleanPath path = path) (hfound : route method path = some found) :
    ∃ repo : Segment, repoVar found.vars = repo.val := by
  have hhead := repo_of_route hfound
  rw [route_eq_routingTable, routingTable] at hfound
  split at hfound
  · next repo first rest helems =>
    split at hfound
    · contradiction
    next hrepo =>
    rw [helems, List.head?_cons, Option.some.injEq] at hhead
    have hmem : repo ∈ components path :=
      List.mem_of_mem_tail (helems ▸ List.mem_cons_self)
    exact ⟨⟨repo, Mux.cleanPath_elements hclean hmem hrepo⟩, hhead.symm⟩
  · contradiction

/-- A request that panics is to a repository that exists, and its handler panics. -/
theorem panics_serveHTTP (h : (serveHTTP env req world).reply.Panics) :
    ∃ (repo : Segment) (endpoint : Endpoint) (vars : Mux.Vars), repoVar vars = repo.val ∧
      world.config.isExistsrepo repo.val ∧
      (endpoint.handler env vars req world).reply.Panics := by
  by_cases hpreflight : preflight req
  · rw [serveHTTP, if_pos hpreflight] at h
    obtain ⟨_, h⟩ := h
    contradiction
  by_cases hclean : Mux.cleanPath req.path = req.path
  swap
  · rw [serveHTTP, if_neg hpreflight, if_pos hclean] at h
    obtain ⟨_, h⟩ := h
    contradiction
  cases hfound : route req.method req.path with
  | none =>
    rw [serveHTTP, if_neg hpreflight, if_neg (not_not.mpr hclean), hfound] at h
    obtain ⟨_, h⟩ := h
    contradiction
  | some found =>
    rw [serveHTTP_of_route hpreflight hclean hfound] at h
    obtain ⟨hhandler, hexists⟩ := panics_wrap _ _ h
    obtain ⟨repo, hrepo⟩ := repoVar_of_route hclean hfound
    have hexists := hexists (setRequestChekRepo_of_route hfound)
    rw [hrepo] at hexists
    exact ⟨repo, found.handler, found.vars, hrepo, hexists, hhandler⟩

/-- A repository that can be answered makes no handler panic, in no later state. -/
theorem Answers.not_panics {start : World} {repositories : Repositories} {repoName : ByteString}
    (h : Answers env start.config repositories repoName) (hunique : SortsUnique env.unique)
    (hsome : start.config.repositories = some repositories) (hworld : start.Since env world)
    (hvars : repoVar vars = repoName) (endpoint : Endpoint) :
    ¬ (endpoint.handler env vars req world).reply.Panics := by
  intro hpanics
  have hsame := hworld repoName
  rcases panics_handler hpanics with ⟨panic, hpanic⟩ | ⟨hvalid, panic, hpanic⟩ |
    ⟨hnone, path, hpath⟩
  · obtain ⟨paths, hpaths⟩ := (getRepoVarPath_isOk_iff env.cwd hsome repoName).mpr h.entry
    rw [hvars, hsame.getRepoVarPath_eq, hpaths] at hpanic
    contradiction
  · have hservable := h.auth (hvars ▸ hvalid)
    obtain ⟨-, auth, after, hauth⟩ := (lookupsComplete_iff_servable env.cwd hsome repoName).mpr
      hservable
    have heq := hsame.map_fst_getRepoAuth_eq hunique
    rw [hauth, ← hvars, hpanic] at heq
    contradiction
  · obtain ⟨err, herr⟩ := h.index hnone
    rw [hvars, hsame.getPathInURLPrefix_eq, herr] at hpath
    contradiction

end Handlers

/-! ## Requests that reach those places -/

/-- A request without cookies. -/
def plainRequest (method path body : ByteString) : Request where
  method := method
  path := path
  corsRequestMethod := []
  cookies := []
  body := body
  now := 0
  getUser _ _ _ := none
  faults := .none

section Reach

variable {env : Externals} {world : World} {repo : Segment} {method last body : ByteString}

/-- A path of a repository with one more element, which may be empty. -/
def below (repo : Segment) (last : ByteString) : ByteString := render [repo] ++ slash :: last

/-- Its elements. -/
theorem components_below (repo : Segment) (hlast : slash ∉ last) :
    components (below repo last) = [[], repo.val, last] := by
  rw [below, components_append, components_render (List.cons_ne_nil _ _),
    components_of_slash_notMem hlast]
  rfl

/-- It is in clean form. -/
theorem cleanPath_below (repo : Segment) (hlast : last = [] ∨ IsSegment last) :
    Mux.cleanPath (below repo last) = below repo last := by
  rcases hlast with rfl | hlast
  · exact Mux.cleanPath_render_slash [] repo
  · have hrender : below repo last = render ([repo] ++ [⟨last, hlast⟩]) := by
      simp [below, render, List.intercalate]
    rw [hrender, Mux.cleanPath_render]

/-- It is served by the handler of the table, once the repository exists. -/
theorem serveHTTP_below (hlast : last = [] ∨ IsSegment last) {endpoint : Endpoint}
    (hfound : foundAt method repo.val [last] =
      ⟨endpoint, unguarded, [(ascii "repoName", repo.val)]⟩)
    (hexists : world.config.isExistsrepo repo.val) :
    serveHTTP env (plainRequest method (below repo last) body) world =
      endpoint.handler env [(ascii "repoName", repo.val)]
        (plainRequest method (below repo last) body) world := by
  have hslash : slash ∉ last := by
    rcases hlast with rfl | hlast
    · exact List.not_mem_nil
    · exact hlast.2.1
  have hpreflight : ¬ preflight (plainRequest method (below repo last) body) := by
    simp [preflight, plainRequest]
  have hroute : route method (below repo last) =
      some ⟨endpoint, unguarded, [(ascii "repoName", repo.val)]⟩ := by
    rw [route_eq_routingTable, routingTable, components_below repo hslash]
    exact (if_neg repo.property.1).trans (congrArg some hfound)
  rw [serveHTTP_of_route hpreflight (cleanPath_below repo hlast) hroute]
  exact if_pos hexists

variable {repositories : Repositories}

/-- A request for the folders of a repository whose entry is nil panics. -/
theorem folders_panics (hsome : world.config.repositories = some repositories)
    (hrepo : world.config.isExistsrepo repo.val)
    (hentry : ¬ ∃ held, repositories.entries.lookup repo.val = some (some held)) :
    (serveHTTP env (plainRequest (ascii "GET") (below repo (ascii "folders")) [])
      world).reply.Panics := by
  have hvars : repoVar [(ascii "repoName", repo.val)] = repo.val := rfl
  rw [serveHTTP_below (Or.inr (by decide)) rfl hrepo]
  cases hpaths : world.config.getRepoVarPath env.cwd repo.val with
  | ok paths => exact absurd ((getRepoVarPath_isOk_iff env.cwd hsome _).mp ⟨paths, hpaths⟩) hentry
  | error panic =>
    refine ⟨panic, ?_⟩
    simp only [Endpoint.handler, handleFolders, withRepoVarPath, hvars, hpaths]
    rfl

/-- A sign-in to a repository panics when nothing completes its credentials. -/
theorem signIn_panics (hsome : world.config.repositories = some repositories)
    (hrepo : world.config.isExistsrepo repo.val)
    (hentry : ∃ held, repositories.entries.lookup repo.val = some (some held))
    (hvalid : env.store.validName repo.val) (hservable : ¬ repositories.Servable repo.val)
    {input : SignInInput} (hdecode : env.decodeInput body = .ok input) :
    (serveHTTP env (plainRequest (ascii "POST") (below repo (ascii "sign-in")) body)
      world).reply.Panics := by
  have hvars : repoVar [(ascii "repoName", repo.val)] = repo.val := rfl
  have hsession : ∀ path, sessionGet env.store (plainRequest (ascii "POST") path body) repo.val =
      .ok ∅ := fun _ => if_pos hvalid
  rw [serveHTTP_below (Or.inr (by decide)) rfl hrepo]
  cases hfound : world.config.getRepoAuth env.unique repo.val with
  | ok found =>
    have hpaths := (getRepoVarPath_isOk_iff env.cwd hsome _).mpr hentry
    have hcomplete : world.config.LookupsComplete env.unique env.cwd repo.val :=
      ⟨hpaths, found.1, found.2, hfound⟩
    exact absurd ((lookupsComplete_iff_servable env.cwd hsome _).mp hcomplete) hservable
  | error panic =>
    refine ⟨panic, ?_⟩
    simp only [Endpoint.handler, signIn, hvars, hsession, hfound]
    simp only [plainRequest, hdecode]
    rfl

/-- A request for the index page panics when the page was not parsed. -/
theorem index_panics (hrepo : world.config.isExistsrepo repo.val)
    (hnone : env.indexTemplate = none)
    (hpath : ¬ ∃ err, world.config.getPathInURLPrefix env.urlPath repo.val = .error err) :
    (serveHTTP env (plainRequest (ascii "GET") (below repo []) []) world).reply.Panics := by
  have hvars : repoVar [(ascii "repoName", repo.val)] = repo.val := rfl
  rw [serveHTTP_below (Or.inl rfl) rfl hrepo]
  cases hfound : world.config.getPathInURLPrefix env.urlPath repo.val with
  | error err => exact absurd ⟨err, hfound⟩ hpath
  | ok path =>
    refine ⟨.nilDereference, ?_⟩
    simp only [Endpoint.handler, handleIndex, hvars, hfound, hnone]
    rfl

/-- Where a repository cannot be answered, a single request panics. -/
theorem exists_panics (hsome : world.config.repositories = some repositories)
    (hexists : (repositories.entries.lookup repo.val).isSome)
    (hinput : ∃ body input, env.decodeInput body = .ok input)
    (h : ¬ Answers env world.config repositories repo.val) :
    ∃ req, (serveHTTP env req world).reply.Panics := by
  have hrepo : world.config.isExistsrepo repo.val := by
    rw [Config.isExistsrepo, Config.entries, hsome]
    exact hexists
  by_cases hentry : ∃ held, repositories.entries.lookup repo.val = some (some held)
  swap
  · exact ⟨_, folders_panics hsome hrepo hentry⟩
  by_cases hauth : env.store.validName repo.val → repositories.Servable repo.val
  swap
  · obtain ⟨hvalid, hservable⟩ := Classical.not_imp.mp hauth
    obtain ⟨body, input, hdecode⟩ := hinput
    exact ⟨_, signIn_panics hsome hrepo hentry hvalid hservable hdecode⟩
  have hindex : ¬ (env.indexTemplate = none →
      ∃ err, world.config.getPathInURLPrefix env.urlPath repo.val = .error err) :=
    fun hindex => h ⟨hentry, hauth, hindex⟩
  obtain ⟨hnone, hpath⟩ := Classical.not_imp.mp hindex
  exact ⟨_, index_panics hrepo hnone hpath⟩

end Reach

/-! ## Runs -/

/-- A loaded configuration has repositories. -/
theorem repositories_of_newConfig {host : Host} {configPath : ByteString} {config : Config}
    (h : newConfig host configPath = .ok config) :
    ∃ repositories, config.repositories = some repositories := by
  obtain ⟨_, -, h⟩ := bind_eq_ok_iff.mp h
  obtain ⟨_, -, h⟩ := bind_eq_ok_iff.mp h
  obtain ⟨before, -, hafter⟩ := checkConfig_repositories h
  exact ⟨_, hafter⟩

/-- A server that has loaded its configuration answers every request of every run exactly when
every repository whose name can be in a path can be answered: its entry is not `nil`, a default
completes its authentication if it can sign in, and there is an index page if it has a path. -/
theorem never_panics_iff (env : Externals) (host : Host) (configPath : ByteString)
    (config : Config) (tree : FileTree) (hloaded : newConfig host configPath = .ok config)
    (hunique : SortsUnique env.unique) (hinput : ∃ body input, env.decodeInput body = .ok input) :
    (∀ before req, ¬ (outcomeAfter env ⟨config, tree⟩ before req).reply.Panics) ↔
      ∀ repositories, config.repositories = some repositories → ∀ repo : Segment,
        (repositories.entries.lookup repo.val).isSome → Answers env config repositories repo.val := by
  constructor
  · intro hnever repositories hsome repo hexists
    by_contra hnot
    obtain ⟨req, hreq⟩ := @exists_panics env ⟨config, tree⟩ repo repositories hsome hexists hinput
      hnot
    exact hnever [] req hreq
  · intro hall before req hpanics
    obtain ⟨repo, endpoint, vars, hvars, hexists, hhandler⟩ := panics_serveHTTP hpanics
    obtain ⟨repositories, hsome⟩ := repositories_of_newConfig hloaded
    have hworld := since_serveAll hunique ⟨config, tree⟩ before
    rw [(hworld repo.val).isExistsrepo_eq, Config.isExistsrepo, Config.entries, hsome] at hexists
    exact (hall repositories hsome repo hexists).not_panics hunique hsome hworld hvars endpoint
      hhandler

/-- A host whose configuration file holds the repository `kes`. -/
def Host.kes : Host := { Host.sample with decode := fun _ _ => .ok World.sample.config }

/-- The server of the sample uploads, with an index page. -/
def Externals.answering : Externals :=
  { Externals.uploading with indexTemplate := some fun _ => .ok (ascii "<html>") }

/-- With an index page no run panics, and without it some run does. -/
theorem sample_never_panics_iff :
    ∃ config, newConfig Host.kes (ascii "config.yaml") = .ok config ∧
      (∀ before req, ¬ (outcomeAfter .answering ⟨config, .empty⟩ before req).reply.Panics) ∧
      ∃ before req, (outcomeAfter .uploading ⟨config, .empty⟩ before req).reply.Panics := by
  have hinput : ∃ body input, Externals.uploading.decodeInput body = .ok input := ⟨[], _, rfl⟩
  refine ⟨_, rfl, (never_panics_iff .answering Host.kes (ascii "config.yaml") _ .empty rfl
    sortsUnique_sortUnique hinput).mpr ?_, ?_⟩
  · intro repositories hsome repo hexists
    obtain rfl := Option.some.inj hsome
    obtain hkes : repo.val = ascii "kes" := by
      by_contra hne
      rw [AList.lookup_insert_ne hne] at hexists
      contradiction
    rw [hkes]
    exact ⟨⟨_, rfl⟩, fun _ => ⟨_, rfl, nofun⟩, nofun⟩
  · by_contra hnone
    have hnever := (never_panics_iff .uploading Host.kes (ascii "config.yaml") _ .empty rfl
      sortsUnique_sortUnique hinput).mp fun before req hreq => hnone ⟨before, req, hreq⟩
    obtain ⟨err, herr⟩ := (hnever _ rfl ⟨ascii "kes", by decide⟩ rfl).index rfl
    contradiction

end RepoManager
