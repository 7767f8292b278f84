import RepoManager.Handler.Request

/-!
# The handlers and middlewares

`internal/handler`: every handler of the router and the middlewares around them, on the state of
the server. Handlers that look up the configuration panic where Go would dereference `nil`.
-/

open LexicalPath

namespace RepoManager

/-- `errIncorrectLoginOrPassword` -/
def errIncorrectLoginOrPassword : GoError := ascii "incorrect login or password"

/-- `errNotAuthenticated` -/
def errNotAuthenticated : GoError := ascii "not authenticated"

/-- `errNotExistRepository` -/
def errNotExistRepository : GoError := ascii "repository not exist"

/-- `errNotExistAuth` -/
def errNotExistAuth : GoError := ascii "auth server not exist"

/-- `sessionStore.Get`: a new session without cookie, otherwise the decoded one or its error. -/
def sessionGet (store : CookieStore) (req : Request) (name : ByteString) :
    Except GoError SessionValues :=
  if store.validName name then
    match req.cookies.lookup name with
    | none => .ok ∅
    | some cookie => store.decode name cookie req.now
  else .error (ascii "sessions: invalid character in cookie name: " ++ name)

/-- `r.FormFile("rpm")`: a part is a file when it has a file name, of which the last element is
delivered. -/
def formFile (env : Externals) (body : ByteString) : Except GoError (ByteString × ByteString) :=
  match env.formPart body with
  | .error err => .error err
  | .ok (fileName, content) =>
    if fileName = [] then .error (ascii "http: no such file") else .ok (base fileName, content)

/-- Run a handler on the values of `GetRepoVarPath`. -/
def withRepoVarPath (env : Externals) (vars : Mux.Vars) (world : World)
    (next : Config.RepoVarPath → Outcome) : Outcome :=
  match world.config.getRepoVarPath env.cwd (repoVar vars) with
  | .error panic => .of (.panic panic) world
  | .ok repo => next repo

/-! ## Handlers -/

/-- `signIn` -/
def signIn (env : Externals) : Handler := fun vars req world =>
  let repoName := repoVar vars
  match env.decodeInput req.body with
  | .error err => .of (respondError 400 err) world
  | .ok input =>
    match sessionGet env.store req repoName with
    | .error err => .of (respondError 500 err) world
    | .ok values =>
      match world.config.getRepoAuth env.unique repoName with
      | .error panic => .of (.panic panic) world
      | .ok (none, config) => .of (respondError 500 errNotExistAuth) { world with config }
      | .ok (some conf, config) =>
        let world := { world with config }
        match AuthService.generateToken env.jwt req.getUser req.now input.login input.password
            repoName conf with
        | .error _ => .of (respondError 401 errIncorrectLoginOrPassword) world
        | .ok token =>
          let generated := Call.generateToken repoName input.login input.password conf token
          match config.getPathInURLPrefix env.urlPath repoName with
          | .error err => .after [generated] (.of (respondError 500 err) world)
          | .ok cookiePath =>
            let values := values.insert repoName token
            match env.store.encode repoName values req.now with
            | .error err => .after [generated] (.of (respondError 500 err) world)
            | .ok cookie =>
              let set : SetCookie :=
                { name := repoName
                  value := cookie
                  path := cookiePath
                  maxAge := config.server.sessionLife
                  httpOnly := false }
              .after [generated, .saveSession repoName values cookie]
                (.of (.response ⟨200, some set, .empty⟩) world)

/-- `handleFolders` -/
def handleFolders (env : Externals) : Handler := fun vars _ world =>
  withRepoVarPath env vars world fun repo =>
    .of (respondResult
      (FoldersService.getFolders env.proto world.tree repo.root repo.dir repo.name)) world

/-- `handleFiles` -/
def handleFiles (env : Externals) : Handler := fun vars _ world =>
  withRepoVarPath env vars world fun repo =>
    let folder := clean (folderVar vars)
    .of (respondResult
      (FilesService.getFiles env.proto world.tree repo.root repo.dir folder repo.name)) world

/-- `handleFileDownloading` -/
def handleFileDownloading (env : Externals) : Handler := fun vars _ world =>
  withRepoVarPath env vars world fun repo =>
    let folderId := clean (folderVar vars)
    let fileId := clean (fileVar vars)
    .of (respondResult
      (FilesService.fileDownloading world.tree repo.root repo.dir folderId repo.name fileId)) world

/-- `handleFileInfo` -/
def handleFileInfo (env : Externals) : Handler := fun vars _ world =>
  withRepoVarPath env vars world fun repo =>
    let folderId := clean (folderVar vars)
    let fileId := clean (fileVar vars)
    .of (respondResult (FilesService.fileInfo env.proto env.rpmRead world.tree repo.root repo.dir
      folderId repo.name fileId)) world

/-- `handleFileUploading` -/
def handleFileUploading (env : Externals) : Handler := fun vars req world =>
  withRepoVarPath env vars world fun repo =>
    let folderId := clean (folderVar vars)
    match formFile env req.body with
    | .error err => .of (respondError 500 err) world
    | .ok (fileName, file) =>
      let (result, tree) := FilesService.fileUploading env.proto env.rpmRead req.faults world.tree
        repo.root repo.dir folderId repo.name fileName file
      .after [.fileUploading (repoVar vars)] (.of (respondResult result) { world with tree })

/-- `handleFileReindexes` -/
def handleFileReindexes (env : Externals) : Handler := fun vars _ world =>
  withRepoVarPath env vars world fun repo =>
    match deref world.config.repositories with
    | .error panic => .of (.panic panic) world
    | .ok repositories =>
      let (result, tree) := FilesService.fileReindexes env.shellout world.tree
        repositories.execReindex repo.root repo.dir repo.name
      .after [.fileReindexes (repoVar vars)] (.of (respondResult result) { world with tree })

/-- `handleIndex`; executing a template that failed to parse panics. -/
def handleIndex (env : Externals) : Handler := fun vars _ world =>
  let repoName := repoVar vars
  match world.config.getPathInURLPrefix env.urlPath repoName with
  | .error err => .of (respondError 500 err) world
  | .ok cookiePath =>
    match env.indexTemplate with
    | none => .of (.panic .nilDereference) world
    | some execute =>
      .of (respondResult (execute ⟨world.config.getURLPrefix repoName, cookiePath, repoName⟩)) world

/-- The handler of the static files. -/
def handleStatic (env : Externals) : Handler := fun _ req world =>
  .of (.response (env.fileServer req.path)) world

/-! ## Middlewares -/

/-- `setRequestChekRepo` -/
def setRequestChekRepo (next : Handler) : Handler := fun vars req world =>
  if world.config.isExistsrepo (repoVar vars) then next vars req world
  else .of (httpError 400 errNotExistRepository) world

/-- `authenticate` -/
def authenticate (env : Externals) (next : Handler) : Handler := fun vars req world =>
  let repoName := repoVar vars
  match sessionGet env.store req repoName with
  | .error err => .of (respondError 500 err) world
  | .ok values =>
    match values.lookup repoName with
    | none => .of (respondError 401 errNotAuthenticated) world
    | some token =>
      match AuthService.parseToken env.jwt req.now token repoName with
      | .error _ => .of (respondError 401 errNotAuthenticated) world
      | .ok () => .after [.parseToken repoName token] (next vars req world)

/-! ## The router -/

/-- The handlers that are registered with the router. -/
inductive Endpoint where
  | signIn
  | handleFolders
  | handleFileReindexes
  | handleFileUploading
  | handleFiles
  | handleFileDownloading
  | handleFileInfo
  | handleIndex
  | fileServer
  deriving DecidableEq

/-- The middlewares that are registered with the router. -/
inductive Middleware where
  | setRequestID
  | logRequest
  | setRequestChekRepo
  | authenticate
  deriving DecidableEq

/-- The handler behind an endpoint. -/
def Endpoint.handler (env : Externals) : Endpoint → Handler
  | .signIn => RepoManager.signIn env
  | .handleFolders => RepoManager.handleFolders env
  | .handleFileReindexes => RepoManager.handleFileReindexes env
  | .handleFileUploading => RepoManager.handleFileUploading env
  | .handleFiles => RepoManager.handleFiles env
  | .handleFileDownloading => RepoManager.handleFileDownloading env
  | .handleFileInfo => RepoManager.handleFileInfo env
  | .handleIndex => RepoManager.handleIndex env
  | .fileServer => handleStatic env

/-- A middleware around a handler. The request id and the log line change neither the reply nor
the state. -/
def Middleware.wrap (env : Externals) : Middleware → Handler → Handler
  | .setRequestID, next => next
  | .logRequest, next => next
  | .setRequestChekRepo, next => RepoManager.setRequestChekRepo next
  | .authenticate, next => RepoManager.authenticate env next

open Mux in
/-- `configureRouter` -/
def configureRouter : List (Route Endpoint Middleware) :=
  let post := [ascii "POST"]
  [.subrouter (template "/{repoName}") [.setRequestID, .logRequest, .setRequestChekRepo]
    [.handle (template "/sign-in") post .signIn,
      .handle (template "/folders") [] .handleFolders,
      .subrouter (template "/files") []
        [.subrouter [] [.authenticate]
          [.handle (template "/reindex") post .handleFileReindexes,
            .handle (template "/{folderId}") post .handleFileUploading],
          .handle (template "/{folderId}") [] .handleFiles,
          .handle (template "/{folderId}/{fileId}") [] .handleFileDownloading,
          .handle (template "/{folderId}/{fileId}/info") [] .handleFileInfo],
      .handle (template "/") [] .handleIndex,
      .pathPrefix (template "/") .fileServer]]

/-- What the router does with a request whose path is in clean form. -/
def route (method path : ByteString) : Option (Mux.Found Endpoint Middleware) :=
  Mux.dispatchFirst method (components path).tail [] configureRouter

/-- The CORS wrapper answers preflight requests itself. -/
def preflight (req : Request) : Bool :=
  req.method = ascii "OPTIONS" ∧ req.corsRequestMethod ≠ []

/-- `ServeHTTP`, inside the CORS wrapper. -/
def serveHTTP (env : Externals) (req : Request) (world : World) : Outcome :=
  if preflight req then .of (.response ⟨204, none, .empty⟩) world
  else if Mux.cleanPath req.path ≠ req.path then .of (.response ⟨301, none, .empty⟩) world
  else
    match route req.method req.path with
    | none => .of (.response ⟨404, none, .empty⟩) world
    | some found =>
      found.middlewares.foldr (Middleware.wrap env) (found.handler.handler env) found.vars req world

end RepoManager
