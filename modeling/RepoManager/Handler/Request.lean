import RepoManager.Library.Mux
import RepoManager.Service.Auth
import RepoManager.Service.Files

/-!
# Requests, replies and the state of the server

What the handlers of `internal/handler` read and produce. Between two requests the server keeps
its configuration, whose authentication sections a sign-in may rewrite, and the file tree. A
session is kept by the client, in a cookie the server encodes.

`Call` records the calls a request makes on the services and on the session store, in order; it
is what the properties over whole runs speak about.
-/

open LexicalPath

namespace RepoManager

/-- `session.Values` -/
abbrev SessionValues := AList fun _ : ByteString => ByteString

/-- `sessions.CookieStore`: the codec of the cookie values, under the key of the server. -/
structure CookieStore where
  validName : ByteString → Bool
  encode : ByteString → SessionValues → Int → Except GoError ByteString
  decode : ByteString → ByteString → Int → Except GoError SessionValues

/-- The credentials of a sign-in request. -/
structure SignInInput where
  login : ByteString
  password : ByteString
  deriving DecidableEq

/-- The variables of the index page. -/
structure IndexVars where
  urlPrefix : ByteString
  cookiePath : ByteString
  repoName : ByteString

/-- A cookie as the handlers set it. -/
structure SetCookie where
  name : ByteString
  value : ByteString
  path : ByteString
  maxAge : Int
  httpOnly : Bool
  deriving DecidableEq

/-- The body of a response: nothing, the JSON object of an error text, or bytes. -/
inductive Body where
  | empty
  | error (message : GoError)
  | data (bytes : ByteString)
  deriving DecidableEq

/-- A response. -/
structure Response where
  status : Nat
  setCookie : Option SetCookie
  body : Body
  deriving DecidableEq

/-- What a request gets back; a panic of a handler ends its connection only. -/
inductive Reply where
  | response (response : Response)
  | panic (panic : Panic)
  deriving DecidableEq

/-- One HTTP request, with the outside world at the moment it is served: the clock, the answers
of the directory server and the I/O failures. `now` is one instant for the whole request, although
the body may still be arriving between `authenticate` and `FileUploading`. -/
structure Request where
  method : ByteString
  path : ByteString
  /-- The header `Access-Control-Request-Method`. -/
  corsRequestMethod : ByteString
  cookies : List (ByteString × ByteString)
  body : ByteString
  now : Int
  getUser : GetUser
  faults : UploadFaults

/-- Code of other packages that the server calls. -/
structure Externals where
  cwd : ByteString
  proto : Proto
  rpmRead : RpmRead
  shellout : Shell
  unique : List ByteString → List ByteString
  urlPath : ByteString → Except GoError ByteString
  store : CookieStore
  jwt : Jwt
  /-- The JSON decoder on the body of a sign-in request. -/
  decodeInput : ByteString → Except GoError SignInInput
  /-- The `rpm` part of a multipart body: its raw file name and its content. -/
  formPart : ByteString → Except GoError (ByteString × ByteString)
  /-- `template.ParseFiles` on the index page; `none` when it fails. -/
  indexTemplate : Option (IndexVars → Except GoError ByteString)
  /-- The file server of the document root. -/
  fileServer : ByteString → Response

/-- What the server keeps between requests. -/
structure World where
  config : Config
  tree : FileTree

/-- A call on a service or on the session store. -/
inductive Call where
  | generateToken (repoName login password : ByteString) (conf : Auth) (token : ByteString)
  | saveSession (name : ByteString) (values : SessionValues) (cookie : ByteString)
  | parseToken (repoName token : ByteString)
  | fileUploading (repoName : ByteString)
  | fileReindexes (repoName : ByteString)

/-- What serving a request results in. -/
structure Outcome where
  reply : Reply
  world : World
  calls : List Call

/-- A handler of a routed request. -/
abbrev Handler := Mux.Vars → Request → World → Outcome

/-- `s.respond` with status 200 and some bytes. -/
def respondData (data : ByteString) : Reply := .response ⟨200, none, .data data⟩

/-- `s.error` -/
def respondError (status : Nat) (err : GoError) : Reply := .response ⟨status, none, .error err⟩

/-- `http.Error`: the text and a line break. -/
def httpError (status : Nat) (text : ByteString) : Reply :=
  .response ⟨status, none, .data (text ++ ascii "\n")⟩

/-- The reply to a service call: its data, or its error with status 500. -/
def respondResult : Except GoError ByteString → Reply
  | .ok data => respondData data
  | .error err => respondError 500 err

/-- An outcome without service call. -/
def Outcome.of (reply : Reply) (world : World) : Outcome := ⟨reply, world, []⟩

/-- Calls made before an outcome. -/
def Outcome.after (calls : List Call) (outcome : Outcome) : Outcome :=
  { outcome with calls := calls ++ outcome.calls }

/-- The template variable of the repository. -/
def repoVar (vars : Mux.Vars) : ByteString := vars.get (ascii "repoName")

/-- The template variable of the folder. -/
def folderVar (vars : Mux.Vars) : ByteString := vars.get (ascii "folderId")

/-- The template variable of the file. -/
def fileVar (vars : Mux.Vars) : ByteString := vars.get (ascii "fileId")

end RepoManager
