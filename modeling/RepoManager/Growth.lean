import RepoManager.Library.TreeGrowth
import RepoManager.Config.View
import RepoManager.Provenance
import RepoManager.Api.Replies

/-!
# What the server keeps

As long as no request asks for an index run, uploads are all that changes the files, and an upload
makes a file or overwrites one. So the clients see a store that grows: the folders of a repository
are answered as they were, in the same order; what could be downloaded can be downloaded; and a
listing that is answered has every name that it had.
-/

open LexicalPath

namespace RepoManager

/-- The request is routed to the index run of some repository. -/
def Request.Indexes (req : Request) : Prop :=
  ∃ found ∈ route req.method req.path, found.handler = .handleFileReindexes

instance : DecidablePred Request.Indexes := fun req =>
  inferInstanceAs (Decidable (∃ found ∈ route req.method req.path, _))

/-- The request is routed to this handler. -/
def Request.Reaches (endpoint : Endpoint) (req : Request) : Prop :=
  ∃ found ∈ route req.method req.path, found.handler = endpoint

/-- An upload lets the tree grow. -/
theorem grows_uploaded (env : Externals) (req : Request) (tree : FileTree)
    (paths : Config.RepoVarPath) (folder : Segment) (fileName file : ByteString) :
    tree.Grows (uploaded env req tree paths folder fileName file) := by
  rcases uploaded_cases env req tree paths folder fileName file with
    hsame | ⟨_, _, created, -, -, hcreate, hwrite⟩
  · rw [hsame]
    exact FileTree.Grows.refl tree
  · rw [hwrite]
    exact (FileTree.grows_create hcreate).trans (FileTree.grows_write created _ _)

/-- A later state: the tree has grown, and entries of the configuration were completed. -/
structure World.Later (env : Externals) (before after : World) : Prop where
  config : before.Since env after
  tree : before.tree.Grows after.tree

/-- A request without index run leads to a later state. -/
theorem later_serveHTTP (env : Externals) (hunique : SortsUnique env.unique) (world : World)
    (req : Request) (hreq : ¬ req.Indexes) : world.Later env (serveHTTP env req world).world := by
  refine ⟨(World.Since.refl world).serveHTTP hunique req, ?_⟩
  have hleaves := leaves_serveHTTP env req world
  generalize (serveHTTP env req world).world = after at hleaves ⊢
  cases hleaves with
  | unchanged => exact FileTree.Grows.refl _
  | signIn called => exact FileTree.Grows.refl _
  | upload repoName paths folder fileName file hasks hcall =>
    exact grows_uploaded env req world.tree paths folder fileName file
  | reindex repoName paths exec hasks hcall =>
    obtain ⟨found, hfound, hendpoint, -⟩ := hasks.routed
    exact absurd ⟨found, hfound, hendpoint⟩ hreq

/-- A run without index runs leads to a later state. -/
theorem later_serveAll (env : Externals) (hunique : SortsUnique env.unique) (world : World)
    (requests : List Request) (hrequests : ∀ req ∈ requests, ¬ req.Indexes) :
    world.Later env (serveAll env world requests) := by
  refine ⟨since_serveAll hunique world requests, ?_⟩
  exact @Responder.after_relation _ _ _ (server env)
    (fun state after => state.tree.Grows after.tree) _ (fun _ => FileTree.Grows.refl _)
    (fun _ _ _ h h' => h.trans h')
    (fun state req hreq => (later_serveHTTP env hunique state req hreq).tree) world requests
    hrequests

/-! ## Replies in two states -/

section Replies

variable {env : Externals} {left right : World} {vars : Mux.Vars} {req : Request}
  (P Q : Reply → Prop)

/-- Only replies with status 200. -/
def Accepting (P : Reply → Prop) : Prop := ∀ reply, P reply → ∃ data, reply = respondData data

/-- What the handler's replies have to do with each other, the replies around it have. -/
theorem wrap_transfer (hP : Accepting P)
    (hexists : left.config.isExistsrepo (repoVar vars) = right.config.isExistsrepo (repoVar vars))
    (handler : Handler) (middlewares : List Middleware)
    (h : P (handler vars req left).reply → Q (handler vars req right).reply)
    (hleft : P (middlewares.foldr (Middleware.wrap env) handler vars req left).reply) :
    Q (middlewares.foldr (Middleware.wrap env) handler vars req right).reply := by
  induction middlewares with
  | nil => exact h hleft
  | cons middleware rest ih =>
    cases middleware with
    | setRequestID => exact ih hleft
    | logRequest => exact ih hleft
    | setRequestChekRepo =>
      simp only [List.foldr_cons, Middleware.wrap, setRequestChekRepo] at hleft ⊢
      rw [← hexists]
      split at hleft
      · next hthere =>
        rw [if_pos hthere]
        exact ih hleft
      · obtain ⟨data, hdata⟩ := hP _ hleft
        simp [Outcome.of, httpError, respondData] at hdata
    | authenticate =>
      simp only [List.foldr_cons, Middleware.wrap, authenticate] at hleft ⊢
      split at hleft
      · obtain ⟨data, hdata⟩ := hP _ hleft
        simp [Outcome.of, respondError, respondData] at hdata
      split at hleft
      · obtain ⟨data, hdata⟩ := hP _ hleft
        simp [Outcome.of, respondError, respondData] at hdata
      split at hleft
      · obtain ⟨data, hdata⟩ := hP _ hleft
        simp [Outcome.of, respondError, respondData] at hdata
      · exact ih hleft

/-- What the handler's replies have to do with each other, the replies of the server have. -/
theorem serveHTTP_transfer (hP : Accepting P) {endpoint : Endpoint}
    (hexists : ∀ name, left.config.isExistsrepo name = right.config.isExistsrepo name)
    (hreq : req.Reaches endpoint)
    (h : ∀ vars, P (endpoint.handler env vars req left).reply →
      Q (endpoint.handler env vars req right).reply)
    (hleft : P (serveHTTP env req left).reply) : Q (serveHTTP env req right).reply := by
  obtain ⟨found, hfound, rfl⟩ := hreq
  by_cases hpreflight : preflight req
  · rw [serveHTTP, if_pos hpreflight] at hleft
    obtain ⟨data, hdata⟩ := hP _ hleft
    simp [Outcome.of, respondData] at hdata
  by_cases hclean : Mux.cleanPath req.path = req.path
  · rw [serveHTTP_of_route hpreflight hclean hfound] at hleft ⊢
    exact wrap_transfer P Q hP (hexists _) _ _ (h found.vars) hleft
  · rw [serveHTTP, if_neg hpreflight, if_pos hclean] at hleft
    obtain ⟨data, hdata⟩ := hP _ hleft
    simp [Outcome.of, respondData] at hdata

/-- A reply with data comes from the service. -/
theorem respondResult_eq_iff {result : Except GoError ByteString} {data : ByteString} :
    respondResult result = respondData data ↔ result = .ok data := by
  cases result with
  | error err => simp [respondResult, respondError, respondData]
  | ok found => simp [respondResult, respondData]

/-- A lookup of the paths, in two states with the same paths. -/
theorem withRepoVarPath_transfer (hP : Accepting P)
    (hpaths : left.config.getRepoVarPath env.cwd (repoVar vars) =
      right.config.getRepoVarPath env.cwd (repoVar vars))
    {next other : Config.RepoVarPath → Outcome}
    (h : ∀ paths, P (next paths).reply → Q (other paths).reply)
    (hleft : P (withRepoVarPath env vars left next).reply) :
    Q (withRepoVarPath env vars right other).reply := by
  unfold withRepoVarPath at hleft ⊢
  rw [← hpaths]
  split at hleft
  · obtain ⟨data, hdata⟩ := hP _ hleft
    simp [Outcome.of, respondData] at hdata
  · exact h _ hleft

end Replies

/-! ## The services, in a tree that has grown -/

/-- A path reads as what its location holds. -/
theorem osReadFile_eq_ok_iff (tree : FileTree) (path content : ByteString) :
    osReadFile tree path = .ok content ↔ tree.node (absolute path) = some (.file content) := by
  rw [← FileTree.readFile_eq_ok_iff, osReadFile]
  cases tree.readFile (absolute path) with
  | ok found => simp
  | error err => cases err <;> simp

section Grown

variable {before after : FileTree} (h : before.Grows after) {path : ByteString}

include h

/-- A directory is there in both. -/
theorem exists_objects_iff : (∃ objects, getOdjectsInFolder after path = .ok objects) ↔
    ∃ objects, getOdjectsInFolder before path = .ok objects := by
  simp only [getOdjectsInFolder_eq_ok_iff, FileTree.readDir_eq_ok_iff]
  exact h.dir_iff _

/-- Every file that was listed is listed. -/
theorem fileNames_subset {objects found : List (Segment × Node)}
    (hbefore : getOdjectsInFolder before path = .ok objects)
    (hafter : getOdjectsInFolder after path = .ok found) :
    FilesPath.fileNames objects ⊆ FilesPath.fileNames found := by
  rw [getOdjectsInFolder_eq_ok_iff] at hbefore hafter
  intro name hname
  obtain ⟨child, hchild, content, hcontent⟩ := (FilesPath.mem_fileNames hbefore name).mp hname
  obtain ⟨held, hheld⟩ := h.file _ content hcontent
  exact (FilesPath.mem_fileNames hafter name).mpr ⟨child, hchild, held, hheld⟩

/-- The directories that were listed are listed, in the same order. -/
theorem directories_eq {objects found : List (Segment × Node)}
    (hbefore : getOdjectsInFolder before path = .ok objects)
    (hafter : getOdjectsInFolder after path = .ok found) :
    found.filter (FileTree.IsDir ·) = objects.filter (FileTree.IsDir ·) := by
  rw [getOdjectsInFolder_eq_ok_iff] at hbefore hafter
  have hnode := (before.readDir_eq_ok_iff _).mp ⟨_, hbefore⟩
  have hnode' := (after.readDir_eq_ok_iff _).mp ⟨_, hafter⟩
  rw [FileTree.readDir, hnode] at hbefore
  rw [FileTree.readDir, hnode'] at hafter
  obtain rfl := Except.ok.inj hbefore
  obtain rfl := Except.ok.inj hafter
  exact h.directories_eq _

/-- The folders are answered alike, or neither is. -/
theorem getFolders_ok_iff (proto : Proto) (repoName data : ByteString) :
    FoldersPath.getFolders proto after path repoName = .ok data ↔
      FoldersPath.getFolders proto before path repoName = .ok data := by
  have hshown (objects : List (Segment × Node)) :
      (objects.filter fun object => object.2 = .dir ∧ object.1.val ∈ FoldersPath.noSkip) =
        (objects.filter (FileTree.IsDir ·)).filter fun object =>
          object.1.val ∈ FoldersPath.noSkip := by
    rw [List.filter_filter]
    refine List.filter_congr fun object _ => ?_
    rw [Bool.decide_and, Bool.and_comm]
    rfl
  simp only [FoldersPath.getFolders, bind_eq_ok_iff, hshown]
  constructor
  · intro hreply
    obtain ⟨found, hfound, hmarshal⟩ := hreply
    obtain ⟨objects, hobjects⟩ := (exists_objects_iff h).mp ⟨found, hfound⟩
    rw [directories_eq h hobjects hfound] at hmarshal
    exact ⟨objects, hobjects, hmarshal⟩
  · intro hreply
    obtain ⟨objects, hobjects, hmarshal⟩ := hreply
    obtain ⟨found, hfound⟩ := (exists_objects_iff h).mpr ⟨objects, hobjects⟩
    rw [← directories_eq h hobjects hfound] at hmarshal
    exact ⟨found, hfound, hmarshal⟩

/-- What could be read can be read. -/
theorem osReadFile_grown {content : ByteString} (hread : osReadFile before path = .ok content) :
    ∃ held, osReadFile after path = .ok held := by
  obtain ⟨held, hheld⟩ := h.file _ content ((osReadFile_eq_ok_iff before path content).mp hread)
  exact ⟨held, (osReadFile_eq_ok_iff after path held).mpr hheld⟩

/-- A listing that is answered has every name that it had. -/
theorem getFiles_grown {proto : Proto} {data data' : ByteString} {names names' : List ByteString}
    (hbefore : FilesPath.getFiles proto before path = .ok data)
    (hafter : FilesPath.getFiles proto after path = .ok data')
    (hnames : proto.unmarshalFiles data = some names)
    (hnames' : proto.unmarshalFiles data' = some names') : names ⊆ names' := by
  obtain ⟨objects, hobjects, hmarshal⟩ := bind_eq_ok_iff.mp hbefore
  obtain ⟨found, hfound, hmarshal'⟩ := bind_eq_ok_iff.mp hafter
  obtain rfl := Option.some.inj ((proto.files_roundTrip _ _ hmarshal).symm.trans hnames)
  obtain rfl := Option.some.inj ((proto.files_roundTrip _ _ hmarshal').symm.trans hnames')
  exact fileNames_subset h hobjects hfound

end Grown

/-- Over a run without index runs the folders of every repository are answered as before, every
file that could be downloaded can be downloaded, and a listing has every name that it had. -/
theorem store_grows (env : Externals) (hunique : SortsUnique env.unique) (world : World)
    (requests : List Request) (hrequests : ∀ req ∈ requests, ¬ req.Indexes) (req : Request) :
    let later := serveAll env world requests
    (req.Reaches .handleFolders → ∀ data, (serveHTTP env req later).reply = respondData data ↔
      (serveHTTP env req world).reply = respondData data) ∧
    (req.Reaches .handleFileDownloading →
      (∃ content, (serveHTTP env req world).reply = respondData content) →
      ∃ held, (serveHTTP env req later).reply = respondData held) ∧
    (req.Reaches .handleFiles → ∀ data names data' names',
      (serveHTTP env req world).reply = respondData data →
      env.proto.unmarshalFiles data = some names →
      (serveHTTP env req later).reply = respondData data' →
      env.proto.unmarshalFiles data' = some names' → names ⊆ names') := by
  intro later
  have hlater := later_serveAll env hunique world requests hrequests
  have hexists : ∀ name, world.config.isExistsrepo name = later.config.isExistsrepo name :=
    fun name => (hlater.config name).isExistsrepo_eq.symm
  have hpaths : ∀ name, world.config.getRepoVarPath env.cwd name =
      later.config.getRepoVarPath env.cwd name :=
    fun name => ((hlater.config name).getRepoVarPath_eq env.cwd).symm
  have haccept (data : ByteString) : Accepting (· = respondData data) := fun _ h => ⟨data, h⟩
  refine ⟨?_, ?_, ?_⟩
  · intro hreq data
    constructor
    · refine serveHTTP_transfer (· = respondData data) (· = respondData data) (haccept data)
        (fun name => (hexists name).symm) hreq fun vars => ?_
      refine withRepoVarPath_transfer (· = respondData data) (· = respondData data) (haccept data)
        (hpaths _).symm fun paths hdata => ?_
      exact respondResult_eq_iff.mpr
        ((getFolders_ok_iff hlater.tree ..).mp (respondResult_eq_iff.mp hdata))
    · refine serveHTTP_transfer (· = respondData data) (· = respondData data) (haccept data)
        hexists hreq fun vars => ?_
      refine withRepoVarPath_transfer (· = respondData data) (· = respondData data) (haccept data)
        (hpaths _) fun paths hdata => ?_
      exact respondResult_eq_iff.mpr
        ((getFolders_ok_iff hlater.tree ..).mpr (respondResult_eq_iff.mp hdata))
  · let answered (reply : Reply) : Prop := ∃ content, reply = respondData content
    intro hreq
    refine serveHTTP_transfer answered answered (fun _ h => h) hexists hreq fun vars => ?_
    refine withRepoVarPath_transfer answered answered (fun _ h => h) (hpaths _) fun paths hdata => ?_
    obtain ⟨content, hread⟩ := hdata
    obtain ⟨held, hheld⟩ := osReadFile_grown hlater.tree (respondResult_eq_iff.mp hread)
    exact ⟨held, respondResult_eq_iff.mpr hheld⟩
  · intro hreq data names data' names' hdata hnames hdata' hnames'
    -- what a later reply holds, when this one was given before
    let covers (reply : Reply) : Prop := ∀ data' names', reply = respondData data' →
      env.proto.unmarshalFiles data' = some names' → names ⊆ names'
    have hcovers : covers (serveHTTP env req later).reply := by
      refine serveHTTP_transfer (· = respondData data) covers (haccept data) hexists hreq
        (fun vars => ?_) hdata
      refine withRepoVarPath_transfer (· = respondData data) covers (haccept data) (hpaths _)
        fun paths hbefore other otherNames hafter hother => ?_
      exact getFiles_grown hlater.tree (respondResult_eq_iff.mp hbefore)
        (respondResult_eq_iff.mp hafter) hnames hother
    exact hcovers data' names' hdata' hnames'

/-- A download of the sample package. -/
def sampleDownload : Request :=
  { sampleSignIn with method := ascii "GET", path := ascii "/kes/files/noarch/kes.rpm" }

/-- After an upload of the package over itself, it can still be downloaded. -/
theorem sample_store_grows :
    (serveHTTP .uploading sampleDownload Api.sampleWorld).reply = respondData samplePackage ∧
      ∃ held, (serveHTTP .uploading sampleDownload
        (serveAll .uploading Api.sampleWorld [sampleSignIn, sampleUpload])).reply =
          respondData held := by
  have hbefore : (serveHTTP .uploading sampleDownload Api.sampleWorld).reply =
      respondData samplePackage := rfl
  refine ⟨hbefore, ?_⟩
  exact (store_grows .uploading sortsUnique_sortUnique Api.sampleWorld [sampleSignIn, sampleUpload]
    (by decide) sampleDownload).2.1 ⟨_, rfl, rfl⟩ ⟨_, hbefore⟩

end RepoManager
