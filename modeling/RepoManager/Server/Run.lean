import RepoManager.Library.Unwinding
import RepoManager.Library.SortedUnique
import RepoManager.Authorization
import RepoManager.Config.View
import RepoManager.Handler.Effects
import RepoManager.Store

/-!
# The server as a system

A server that starts in some state answers requests one after another. Which repository a request
concerns, and whether it can change files, is decided by the router alone.
-/

open LexicalPath

namespace RepoManager

/-- The server, as a system that answers requests. -/
def server (env : Externals) : Responder World Request Reply where
  reply world req := (serveHTTP env req world).reply
  next world req := (serveHTTP env req world).world

/-- The configuration has changed by completed entries only. -/
def World.Since (env : Externals) (start world : World) : Prop :=
  ∀ name, Config.SameFor env.unique name world.config start.config

section Since

variable {env : Externals} {start left right world : World}

/-- Nothing has changed at the start. -/
theorem World.Since.refl (start : World) : start.Since env start := fun _ => Config.SameFor.refl _

/-- Two later configurations are the same for every repository. -/
theorem World.Since.same {name : ByteString} (hleft : start.Since env left)
    (hright : start.Since env right) : Config.SameFor env.unique name left.config right.config :=
  (hleft name).trans (hright name).symm

/-- No request changes more of the configuration than completed entries. -/
theorem World.Since.serveHTTP (hunique : SortsUnique env.unique) (hworld : start.Since env world)
    (req : Request) : start.Since env (serveHTTP env req world).world := by
  intro name
  have hleaves := leaves_serveHTTP env req world
  generalize (RepoManager.serveHTTP env req world).world = after at hleaves ⊢
  cases hleaves with
  | unchanged => exact hworld name
  | signIn other => exact (Config.sameFor_afterCall hunique ..).trans (hworld name)
  | upload => exact hworld name
  | reindex => exact hworld name

/-- Nor does a run of requests. -/
theorem since_serveAll (hunique : SortsUnique env.unique) (start : World)
    (requests : List Request) : start.Since env (serveAll env start requests) := by
  have hnext : ∀ world req, start.Since env world → True →
      start.Since env ((server env).next world req) := by
    intro world req hworld _
    exact hworld.serveHTTP hunique req
  exact (server env).after_invariant hnext (World.Since.refl start) requests fun _ _ => trivial

end Since

/-- The request is routed to a handler for this repository. -/
def Request.Concerns (repoName : ByteString) (req : Request) : Prop :=
  ∃ found ∈ route req.method req.path, repoVar found.vars = repoName

/-- The request is routed to a handler that changes files of this repository. -/
def Request.Writes (repoName : ByteString) (req : Request) : Prop :=
  ∃ found ∈ route req.method req.path,
    (found.handler = .handleFileUploading ∨ found.handler = .handleFileReindexes) ∧
      repoVar found.vars = repoName

instance (repoName : ByteString) : DecidablePred (Request.Writes repoName) := fun req =>
  inferInstanceAs (Decidable (∃ found ∈ route req.method req.path, _))

/-! ## A server on which uploads can be run -/

/-- Multipart bodies that deliver one file name. -/
def Externals.uploading : Externals :=
  { Externals.sample with
    unique := sortUnique
    formPart := fun body => .ok (ascii "kes.rpm", body) }

/-- The sample server, with the folder `noarch`. -/
def World.uploading : World where
  config := World.sample.config
  tree := .wayTo (UnixRepo.sample.dirOf noarch)

/-- An upload of the sample package, with the cookie of the sample sign-in. -/
def sampleUpload : Request :=
  { sampleReindex with path := ascii "/kes/files/noarch", body := samplePackage }

/-- A listing of the folder of `kes`. -/
def sampleListing : Request :=
  { sampleSignIn with method := ascii "GET", path := ascii "/kes/files/noarch" }

end RepoManager
