import RepoManager.Config.EffectiveAuth
import RepoManager.Handler.Calls

/-!
# The effects of a request

What serving a request can do to the state of the server: nothing, complete the authentication of
one repository, upload one file, or run the index command. The two effects on files come with the
call that made them, and calls tell who was admitted. The properties over whole runs that speak
about the state use this case distinction and unfold no handler.
-/

open LexicalPath

namespace RepoManager

/-- What an upload leaves of the tree. -/
def uploaded (env : Externals) (req : Request) (tree : FileTree) (paths : Config.RepoVarPath)
    (folder : Segment) (fileName file : ByteString) : FileTree :=
  (FilesService.fileUploading env.proto env.rpmRead req.faults tree paths.root paths.dir folder.val
    paths.name fileName file).2

/-- What the index command leaves of the tree. -/
def reindexed (env : Externals) (tree : FileTree) (exec : ByteString)
    (paths : Config.RepoVarPath) : FileTree :=
  (FilesService.fileReindexes env.shellout tree exec paths.root paths.dir paths.name).2

/-- The upload that a request asks for: a file delivered under a name, to a folder of a repository
whose paths are found. -/
structure AsksUpload (env : Externals) (req : Request) (config : Config) (repoName : ByteString)
    (paths : Config.RepoVarPath) (folder : Segment) (fileName file : ByteString) : Prop where
  routed : ∃ found, route req.method req.path = some found ∧ found.handler = .handleFileUploading ∧
    repoVar found.vars = repoName ∧ folderVar found.vars = folder.val
  found : config.getRepoVarPath env.cwd repoName = .ok paths
  delivered : formFile env req.body = .ok (fileName, file)

/-- The index command that a request asks for. -/
structure AsksReindex (env : Externals) (req : Request) (config : Config) (repoName : ByteString)
    (paths : Config.RepoVarPath) (exec : ByteString) : Prop where
  routed : ∃ found, route req.method req.path = some found ∧ found.handler = .handleFileReindexes ∧
    repoVar found.vars = repoName
  found : config.getRepoVarPath env.cwd repoName = .ok paths
  shared : ∃ repositories, config.repositories = some repositories ∧
    repositories.execReindex = exec

/-- The states that a request can leave. -/
inductive Leaves (env : Externals) (req : Request) (world : World) : World → Prop
  | unchanged : Leaves env req world world
  | signIn (repoName : ByteString) :
    Leaves env req world { world with config := world.config.afterCall env.unique repoName }
  | upload (repoName : ByteString) (paths : Config.RepoVarPath) (folder : Segment)
    (fileName file : ByteString)
    (hasks : AsksUpload env req world.config repoName paths folder fileName file)
    (hcall : .fileUploading repoName ∈ (serveHTTP env req world).calls) :
    Leaves env req world
      { world with tree := uploaded env req world.tree paths folder fileName file }
  | reindex (repoName : ByteString) (paths : Config.RepoVarPath) (exec : ByteString)
    (hasks : AsksReindex env req world.config repoName paths exec)
    (hcall : .fileReindexes repoName ∈ (serveHTTP env req world).calls) :
    Leaves env req world { world with tree := reindexed env world.tree exec paths }

section Handlers

variable {env : Externals} {vars : Mux.Vars} {req : Request} {world : World}

/-- A delivered file name is the last element of a path. -/
theorem base_of_formFile {body fileName file : ByteString}
    (h : formFile env body = .ok (fileName, file)) : ∃ raw, fileName = base raw := by
  unfold formFile at h
  split at h
  · contradiction
  · split at h
    · contradiction
    · exact ⟨_, (Prod.mk.inj (Except.ok.inj h)).1.symm⟩

/-- A sign-in leaves the state, or completes the authentication of its repository. -/
theorem world_signIn : (signIn env vars req world).world = world ∨
    (signIn env vars req world).world =
      { world with config := world.config.afterCall env.unique (repoVar vars) } := by
  unfold signIn
  dsimp only
  split
  · exact Or.inl rfl
  split
  · exact Or.inl rfl
  split
  · exact Or.inl rfl
  · next config hauth =>
    rw [Config.afterCall, hauth]
    exact Or.inr rfl
  · next conf config hauth =>
    rw [Config.afterCall, hauth]
    right
    split
    · rfl
    split
    · rfl
    split
    · rfl
    · rfl

/-- The handlers that only read leave the state. -/
theorem world_withRepoVarPath {next : Config.RepoVarPath → Outcome}
    (h : ∀ paths, (next paths).world = world) :
    (withRepoVarPath env vars world next).world = world := by
  unfold withRepoVarPath
  split
  · rfl
  · exact h _

/-- The handlers that can change the state. -/
def Endpoint.Changes (endpoint : Endpoint) : Prop :=
  endpoint = .signIn ∨ endpoint = .handleFileUploading ∨ endpoint = .handleFileReindexes

/-- The other handlers leave the state. -/
theorem world_of_not_changes {endpoint : Endpoint} (h : ¬ endpoint.Changes) :
    (endpoint.handler env vars req world).world = world := by
  cases endpoint with
  | signIn => exact absurd (Or.inl rfl) h
  | handleFileUploading => exact absurd (Or.inr (Or.inl rfl)) h
  | handleFileReindexes => exact absurd (Or.inr (Or.inr rfl)) h
  | handleFolders => exact world_withRepoVarPath fun _ => rfl
  | handleFiles => exact world_withRepoVarPath fun _ => rfl
  | handleFileDownloading => exact world_withRepoVarPath fun _ => rfl
  | handleFileInfo => exact world_withRepoVarPath fun _ => rfl
  | handleIndex =>
    simp only [Endpoint.handler, handleIndex]
    split
    · rfl
    · split
      · rfl
      · rfl
  | fileServer => rfl

/-- An upload leaves the state, or asks the service. -/
theorem world_handleFileUploading :
    (handleFileUploading env vars req world).world = world ∨
      ∃ paths fileName file, world.config.getRepoVarPath env.cwd (repoVar vars) = .ok paths ∧
        formFile env req.body = .ok (fileName, file) ∧
        .fileUploading (repoVar vars) ∈ (handleFileUploading env vars req world).calls ∧
        (handleFileUploading env vars req world).world =
          { world with
            tree := (FilesService.fileUploading env.proto env.rpmRead req.faults world.tree
              paths.root paths.dir (clean (folderVar vars)) paths.name fileName file).2 } := by
  unfold handleFileUploading withRepoVarPath
  cases hpaths : world.config.getRepoVarPath env.cwd (repoVar vars) with
  | error panic => exact Or.inl rfl
  | ok paths =>
    cases hform : formFile env req.body with
    | error err => exact Or.inl rfl
    | ok delivered => exact Or.inr ⟨paths, _, _, rfl, rfl, List.mem_singleton_self _, rfl⟩

/-- A reindex leaves the state, or runs the command. -/
theorem world_handleFileReindexes :
    (handleFileReindexes env vars req world).world = world ∨
      ∃ paths repositories, world.config.getRepoVarPath env.cwd (repoVar vars) = .ok paths ∧
        world.config.repositories = some repositories ∧
        .fileReindexes (repoVar vars) ∈ (handleFileReindexes env vars req world).calls ∧
        (handleFileReindexes env vars req world).world =
          { world with tree := reindexed env world.tree repositories.execReindex paths } := by
  unfold handleFileReindexes withRepoVarPath
  cases hpaths : world.config.getRepoVarPath env.cwd (repoVar vars) with
  | error panic => exact Or.inl rfl
  | ok paths =>
    cases hsome : world.config.repositories with
    | none => exact Or.inl rfl
    | some repositories =>
      exact Or.inr ⟨paths, repositories, rfl, rfl, List.mem_singleton_self _, rfl⟩

/-- The middlewares leave the state, or let the handler decide, with its calls. -/
theorem world_wrap (handler : Handler) (middlewares : List Middleware) :
    (middlewares.foldr (Middleware.wrap env) handler vars req world).world = world ∨
      ((middlewares.foldr (Middleware.wrap env) handler vars req world).world =
          (handler vars req world).world ∧
        ∀ call ∈ (handler vars req world).calls,
          call ∈ (middlewares.foldr (Middleware.wrap env) handler vars req world).calls) := by
  induction middlewares with
  | nil => exact Or.inr ⟨rfl, fun call hcall => hcall⟩
  | cons middleware rest ih =>
    cases middleware with
    | setRequestID => exact ih
    | logRequest => exact ih
    | setRequestChekRepo =>
      simp only [List.foldr_cons, Middleware.wrap, setRequestChekRepo]
      split
      · exact ih
      · exact Or.inl rfl
    | authenticate =>
      simp only [List.foldr_cons, Middleware.wrap, authenticate]
      split
      · exact Or.inl rfl
      · split
        · exact Or.inl rfl
        · split
          · exact Or.inl rfl
          · refine ih.imp_right (And.imp_right fun hcalls call hcall => ?_)
            exact List.mem_append_right _ (hcalls call hcall)

end Handlers

/-- A handler that is routed has one of the four effects. -/
theorem leaves_handler {env : Externals} {req : Request} {world : World}
    {found : Mux.Found Endpoint Middleware} (hclean : Mux.cleanPath req.path = req.path)
    (hfound : route req.method req.path = some found)
    (hcalls : ∀ call ∈ (found.handler.handler env found.vars req world).calls,
      call ∈ (serveHTTP env req world).calls) :
    Leaves env req world (found.handler.handler env found.vars req world).world := by
  by_cases hchanges : found.handler.Changes
  swap
  · rw [world_of_not_changes hchanges]
    exact .unchanged
  rcases hchanges with hendpoint | hendpoint | hendpoint
  · rw [hendpoint]
    change Leaves env req world (signIn env found.vars req world).world
    rcases @world_signIn env found.vars req world with hsame | hcompleted
    · rw [hsame]
      exact .unchanged
    · rw [hcompleted]
      exact .signIn _
  · have hnames : found.handler.NamesFolder := by
      rw [hendpoint]
      exact List.mem_cons_self
    rw [hendpoint] at hcalls ⊢
    change Leaves env req world (handleFileUploading env found.vars req world).world
    rcases @world_handleFileUploading env found.vars req world with
      hsame | ⟨paths, fileName, file, hpaths, hform, hcall, hupload⟩
    · rw [hsame]
      exact .unchanged
    · obtain ⟨folder, hfolder⟩ := folder_of_route hclean hfound hnames
      rw [hupload, hfolder, clean_segment]
      exact .upload (repoVar found.vars) paths folder fileName file
        ⟨⟨found, hfound, hendpoint, rfl, hfolder⟩, hpaths, hform⟩ (hcalls _ hcall)
  · rw [hendpoint] at hcalls ⊢
    change Leaves env req world (handleFileReindexes env found.vars req world).world
    rcases @world_handleFileReindexes env found.vars req world with
      hsame | ⟨paths, repositories, hpaths, hsome, hcall, hreindex⟩
    · rw [hsame]
      exact .unchanged
    · rw [hreindex]
      exact .reindex (repoVar found.vars) paths repositories.execReindex
        ⟨⟨found, hfound, hendpoint, rfl⟩, hpaths, ⟨repositories, hsome, rfl⟩⟩ (hcalls _ hcall)

/-- Serving a request has one of the four effects. -/
theorem leaves_serveHTTP (env : Externals) (req : Request) (world : World) :
    Leaves env req world (serveHTTP env req world).world := by
  by_cases hpreflight : preflight req
  · rw [serveHTTP, if_pos hpreflight]
    exact .unchanged
  by_cases hclean : Mux.cleanPath req.path = req.path
  swap
  · rw [serveHTTP, if_neg hpreflight, if_pos hclean]
    exact .unchanged
  cases hfound : route req.method req.path with
  | none =>
    rw [serveHTTP, if_neg hpreflight, if_neg (not_not.mpr hclean), hfound]
    exact .unchanged
  | some found =>
    have hserve := @serveHTTP_of_route env req world found hpreflight hclean hfound
    rcases @world_wrap env found.vars req world (found.handler.handler env) found.middlewares with
      hworld | ⟨hworld, hcalls⟩
    · rw [hserve, hworld]
      exact .unchanged
    · rw [← hserve] at hcalls hworld
      rw [hworld]
      exact leaves_handler hclean hfound hcalls

end RepoManager
