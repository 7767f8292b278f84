import RepoManager.Service.Region
import RepoManager.Server.Run

/-!
# Repositories do not interfere

The repositories of one server share its state, and a request to one of them can change the files
and the configuration. What the clients of a repository are answered depends on none of this: only
the uploads and index runs of that repository count, and everything else can be taken out of a run.
Sign-ins complete entries of the configuration, which no lookup can notice, and files of other
repositories lie outside the region that is read.

The uploads to other repositories must spare the region. They do when neither directory lies in the
other; repositories that share a directory are not isolated from an upload named `..`. The index
command is code of another package, so that it stays with its repository is an assumption.
-/

open LexicalPath

namespace RepoManager

/-- Whatever other repository the file of a request were uploaded to, it would spare this one. -/
def Request.Spares (env : Externals) (config : Config) (repoName : ByteString) (repo : UnixRepo)
    (req : Request) : Prop :=
  ∀ name paths fileName file, name ≠ repoName → config.getRepoVarPath env.cwd name = .ok paths →
    formFile env req.body = .ok (fileName, file) →
    ∃ other : UnixRepo, other.toRepoVarPath = paths ∧ repo.Spares other fileName

/-- The index command of a repository, as the shell gets it. -/
def reindexCommand (exec : ByteString) (paths : Config.RepoVarPath) : ByteString :=
  exec ++ ascii " " ++ join [paths.root, paths.dir] ++ ascii " " ++ paths.name

/-- The index command reads and writes the files of its own repository. -/
structure ShellStays (env : Externals) (config : Config) (repoName : ByteString)
    (repo : UnixRepo) : Prop where
  own : ∀ repositories, config.repositories = some repositories → ∀ left right,
    FileTree.AgreeOn repo.region left right →
    let cmd := reindexCommand repositories.execReindex repo.toRepoVarPath
    (env.shellout cmd left).1 = (env.shellout cmd right).1 ∧
      FileTree.AgreeOn repo.region (env.shellout cmd left).2 (env.shellout cmd right).2
  others : ∀ repositories, config.repositories = some repositories → ∀ name paths,
    name ≠ repoName → config.getRepoVarPath env.cwd name = .ok paths → ∀ tree,
    FileTree.AgreeOn repo.region
      (env.shellout (reindexCommand repositories.execReindex paths) tree).2 tree

/-- A repository of the server that started with this state, and what isolates it. -/
structure Isolated (env : Externals) (start : World) (repoName : ByteString)
    (repo : UnixRepo) : Prop where
  unique : SortsUnique env.unique
  paths : start.config.getRepoVarPath env.cwd repoName = .ok repo.toRepoVarPath
  shell : ShellStays env start.config repoName repo

/-- Two outcomes with one reply, whose trees agree on a region. -/
structure Outcome.Agree (region : FileTree.Region) (left right : Outcome) : Prop where
  reply_eq : left.reply = right.reply
  tree : FileTree.AgreeOn region left.world.tree right.world.tree

section Handlers

variable {env : Externals} {start left right : World} {repoName : ByteString} {repo : UnixRepo}
  {vars : Mux.Vars} {req : Request}
  (h : Isolated env start repoName repo) (hleft : start.Since env left)
  (hright : start.Since env right) (htree : FileTree.AgreeOn repo.region left.tree right.tree)
  (hvars : repoVar vars = repoName)

include h in
/-- The paths are those of the start. -/
theorem Isolated.paths_since (hleft : start.Since env left) :
    left.config.getRepoVarPath env.cwd repoName = .ok repo.toRepoVarPath :=
  ((hleft repoName).getRepoVarPath_eq env.cwd).trans h.paths

include h hleft hright hvars

/-- A handler that looks up the paths, in two states. -/
theorem withRepoVarPath_agree {next other : Config.RepoVarPath → Outcome}
    (hnext : (next repo.toRepoVarPath).Agree repo.region (other repo.toRepoVarPath)) :
    (withRepoVarPath env vars left next).Agree repo.region
      (withRepoVarPath env vars right other) := by
  rw [withRepoVarPath, withRepoVarPath, hvars, h.paths_since hleft, h.paths_since hright]
  exact hnext

include htree

omit h hvars in
/-- A sign-in, in two states. -/
theorem signIn_agree (hunique : SortsUnique env.unique) :
    (signIn env vars req left).Agree repo.region (signIn env vars req right) := by
  have hauth : (left.config.getRepoAuth env.unique (repoVar vars)).map Prod.fst =
      (right.config.getRepoAuth env.unique (repoVar vars)).map Prod.fst :=
    (hleft.same hright).map_fst_getRepoAuth_eq hunique
  have hafter : ∀ {auth auth' : Option Auth} {config config' : Config},
      left.config.getRepoAuth env.unique (repoVar vars) = .ok (auth, config) →
      right.config.getRepoAuth env.unique (repoVar vars) = .ok (auth', config') →
      Config.SameFor env.unique (repoVar vars) config config' := by
    intro auth auth' config config' hcall hcall'
    rw [← Config.afterCall_of_getRepoAuth hcall, ← Config.afterCall_of_getRepoAuth hcall']
    exact (Config.sameFor_afterCall hunique ..).trans
      ((hleft.same hright).trans (Config.sameFor_afterCall hunique ..).symm)
  unfold signIn
  dsimp only
  split
  · exact ⟨rfl, htree⟩
  split
  · exact ⟨rfl, htree⟩
  rcases hcall : left.config.getRepoAuth env.unique (repoVar vars) with panic | ⟨auth, config⟩
  · rcases hcall' : right.config.getRepoAuth env.unique (repoVar vars) with
      panic' | ⟨auth', config'⟩
    · rw [hcall, hcall'] at hauth
      obtain rfl : panic = panic' := Except.error.inj hauth
      exact ⟨rfl, htree⟩
    · rw [hcall, hcall'] at hauth
      contradiction
  · rcases hcall' : right.config.getRepoAuth env.unique (repoVar vars) with
      panic' | ⟨auth', config'⟩
    · rw [hcall, hcall'] at hauth
      contradiction
    · have hsame := hafter hcall hcall'
      rw [hcall, hcall'] at hauth
      obtain rfl : auth = auth' := Except.ok.inj hauth
      cases auth with
      | none => exact ⟨rfl, htree⟩
      | some conf =>
        dsimp only
        rw [hsame.getPathInURLPrefix_eq, hsame.server_eq]
        split
        · exact ⟨rfl, htree⟩
        split
        · exact ⟨rfl, htree⟩
        split
        · exact ⟨rfl, htree⟩
        · exact ⟨rfl, htree⟩

/-- The index command, in two states. -/
theorem handleFileReindexes_agree (req : Request) :
    (handleFileReindexes env vars req left).Agree repo.region
      (handleFileReindexes env vars req right) := by
  refine withRepoVarPath_agree h hleft hright hvars ?_
  have hsame : Config.SameFor env.unique repoName left.config right.config := hleft.same hright
  rcases hsame.cases with
    ⟨hnone, hnone'⟩ | ⟨first, second, hfirst, hsecond, hexec, -⟩
  · rw [hnone, hnone']
    exact ⟨rfl, htree⟩
  · rcases (hleft repoName).cases with ⟨hbad, -⟩ | ⟨_, loaded, hfirst', hloaded, hexec', -⟩
    · rw [hfirst] at hbad
      contradiction
    obtain rfl := Option.some.inj (hfirst.symm.trans hfirst')
    rw [hfirst, hsecond]
    obtain ⟨hreply, hagree⟩ := h.shell.own loaded hloaded left.tree right.tree htree
    simp only [reindexCommand, ← hexec'] at hreply hagree
    simp only [deref, FilesService.fileReindexes, FilesPath.fileReindexes, ← hexec]
    rcases hrun : env.shellout _ left.tree with ⟨⟨out, errout, failure⟩, after⟩
    rcases hrun' : env.shellout _ right.tree with ⟨⟨out', errout', failure'⟩, after'⟩
    rw [hrun, hrun'] at hreply hagree
    simp only [Prod.mk.injEq] at hreply
    obtain ⟨rfl, rfl, rfl⟩ := hreply
    cases failure with
    | none => exact ⟨rfl, hagree⟩
    | some err => exact ⟨rfl, hagree⟩

/-- A handler for the repository answers alike in states that agree, and they still agree. -/
theorem handler_agree {endpoint : Endpoint}
    (hfolder : endpoint.NamesFolder → ∃ folder : Segment, folderVar vars = folder.val)
    (hfile : endpoint.NamesFile → ∃ file : Segment, fileVar vars = file.val) :
    (endpoint.handler env vars req left).Agree repo.region
      (endpoint.handler env vars req right) := by
  have hsame : Config.SameFor env.unique (repoVar vars) left.config right.config :=
    hleft.same hright
  cases endpoint with
  | signIn => exact signIn_agree hleft hright htree h.unique
  | handleFileReindexes => exact handleFileReindexes_agree h hleft hright htree hvars req
  | handleFolders =>
    refine withRepoVarPath_agree h hleft hright hvars ⟨?_, htree⟩
    simp only [Outcome.of, UnixRepo.getFolders_agree htree]
  | handleFiles =>
    obtain ⟨folder, hname⟩ := hfolder (by decide)
    refine withRepoVarPath_agree h hleft hright hvars ⟨?_, htree⟩
    simp only [Outcome.of, hname, clean_segment, UnixRepo.getFiles_agree htree]
  | handleFileDownloading =>
    obtain ⟨folder, hname⟩ := hfolder (by decide)
    obtain ⟨file, hfileName⟩ := hfile (by decide)
    refine withRepoVarPath_agree h hleft hright hvars ⟨?_, htree⟩
    simp only [Outcome.of, hname, hfileName, clean_segment, UnixRepo.fileDownloading_agree htree]
  | handleFileInfo =>
    obtain ⟨folder, hname⟩ := hfolder (by decide)
    obtain ⟨file, hfileName⟩ := hfile (by decide)
    refine withRepoVarPath_agree h hleft hright hvars ⟨?_, htree⟩
    simp only [Outcome.of, hname, hfileName, clean_segment, UnixRepo.fileInfo_agree htree]
  | handleFileUploading =>
    obtain ⟨folder, hname⟩ := hfolder (by decide)
    refine withRepoVarPath_agree h hleft hright hvars ?_
    rw [hname, clean_segment]
    cases hform : formFile env req.body with
    | error err => exact ⟨rfl, htree⟩
    | ok delivered =>
      obtain ⟨fileName, file⟩ := delivered
      obtain ⟨raw, rfl⟩ := base_of_formFile hform
      obtain ⟨hreply, hagree⟩ := UnixRepo.fileUploading_agree htree req.faults folder raw file
      exact ⟨congrArg respondResult hreply, hagree⟩
  | handleIndex =>
    simp only [Endpoint.handler, handleIndex, hsame.getPathInURLPrefix_eq, hsame.getURLPrefix_eq]
    split
    · exact ⟨rfl, htree⟩
    · split
      · exact ⟨rfl, htree⟩
      · exact ⟨rfl, htree⟩
  | fileServer => exact ⟨rfl, htree⟩

omit h hvars in
/-- The middlewares let two states answer alike when the handler does. -/
theorem wrap_agree (handler : Handler) (middlewares : List Middleware)
    (hhandler : (handler vars req left).Agree repo.region (handler vars req right)) :
    (middlewares.foldr (Middleware.wrap env) handler vars req left).Agree repo.region
      (middlewares.foldr (Middleware.wrap env) handler vars req right) := by
  have hsame : Config.SameFor env.unique (repoVar vars) left.config right.config :=
    hleft.same hright
  induction middlewares with
  | nil => exact hhandler
  | cons middleware rest ih =>
    cases middleware with
    | setRequestID => exact ih
    | logRequest => exact ih
    | setRequestChekRepo =>
      simp only [List.foldr_cons, Middleware.wrap, setRequestChekRepo, hsame.isExistsrepo_eq]
      split
      · exact ih
      · exact ⟨rfl, htree⟩
    | authenticate =>
      simp only [List.foldr_cons, Middleware.wrap, authenticate]
      split
      · exact ⟨rfl, htree⟩
      split
      · exact ⟨rfl, htree⟩
      split
      · exact ⟨rfl, htree⟩
      · exact ⟨ih.reply_eq, ih.tree⟩

end Handlers

section Requests

variable {env : Externals} {start : World} {repoName : ByteString} {repo : UnixRepo}
  (h : Isolated env start repoName repo)

include h

/-- A request to the repository is answered alike in states that agree, and they still agree. -/
theorem serveHTTP_agree {left right : World} (hleft : start.Since env left)
    (hright : start.Since env right) (htree : FileTree.AgreeOn repo.region left.tree right.tree)
    {req : Request} (hreq : req.Concerns repoName) :
    (serveHTTP env req left).Agree repo.region (serveHTTP env req right) := by
  obtain ⟨found, hfound, hvars⟩ := hreq
  by_cases hpreflight : preflight req
  · rw [serveHTTP, serveHTTP, if_pos hpreflight, if_pos hpreflight]
    exact ⟨rfl, htree⟩
  by_cases hclean : Mux.cleanPath req.path = req.path
  · rw [serveHTTP_of_route hpreflight hclean hfound, serveHTTP_of_route hpreflight hclean hfound]
    apply wrap_agree hleft hright htree
    apply handler_agree h hleft hright htree hvars
    · exact fun hnames => folder_of_route hclean hfound hnames
    · exact fun hnames => file_of_route hclean hfound hnames
  · rw [serveHTTP, serveHTTP, if_neg hpreflight, if_neg hpreflight, if_pos hclean, if_pos hclean]
    exact ⟨rfl, htree⟩

/-- A request that writes to no file of the repository leaves the region. -/
theorem agreeOn_serveHTTP {world : World} (hworld : start.Since env world) {req : Request}
    (hspares : req.Spares env start.config repoName repo) (hreq : ¬ req.Writes repoName) :
    FileTree.AgreeOn repo.region (serveHTTP env req world).world.tree world.tree := by
  have hleaves := leaves_serveHTTP env req world
  generalize (serveHTTP env req world).world = after at hleaves ⊢
  cases hleaves with
  | unchanged => exact FileTree.AgreeOn.refl _
  | signIn other => exact FileTree.AgreeOn.refl _
  | upload name paths folder fileName file hasks hcall =>
    obtain ⟨found, hfound, hendpoint, hvars, -⟩ := hasks.routed
    have hname : name ≠ repoName := by
      rintro rfl
      exact hreq ⟨found, hfound, Or.inl hendpoint, hvars⟩
    have hpaths := ((hworld name).getRepoVarPath_eq env.cwd).symm.trans hasks.found
    obtain ⟨other, rfl, hother⟩ := hspares name paths fileName file hname hpaths hasks.delivered
    obtain ⟨raw, rfl⟩ := base_of_formFile hasks.delivered
    exact UnixRepo.fileUploading_spares hother req.faults world.tree folder file
  | reindex name paths exec hasks hcall =>
    obtain ⟨found, hfound, hendpoint, hvars⟩ := hasks.routed
    have hname : name ≠ repoName := by
      rintro rfl
      exact hreq ⟨found, hfound, Or.inr hendpoint, hvars⟩
    have hpaths := ((hworld name).getRepoVarPath_eq env.cwd).symm.trans hasks.found
    obtain ⟨repositories, hsome, rfl⟩ := hasks.shared
    rcases (hworld name).cases with ⟨hbad, -⟩ | ⟨_, loaded, hsome', hloaded, hexec, -⟩
    · rw [hsome] at hbad
      contradiction
    obtain rfl := Option.some.inj (hsome.symm.trans hsome')
    have hagree := h.shell.others loaded hloaded name paths hname hpaths world.tree
    simp only [reindexCommand, ← hexec] at hagree
    simp only [reindexed, FilesService.fileReindexes, FilesPath.fileReindexes]
    rcases hrun : env.shellout _ world.tree with ⟨⟨out, errout, failure⟩, after⟩
    rw [hrun] at hagree
    cases failure with
    | none => exact hagree
    | some err => exact hagree

/-- The clients of the repository cannot tell the requests that do not write to it. -/
theorem unwinding_server : (server env).Unwinding (start.Since env)
    (Request.Spares env start.config repoName repo) (Request.Writes repoName)
    (Request.Concerns repoName)
    (fun left right => FileTree.AgreeOn repo.region left.tree right.tree) where
  refl world := FileTree.AgreeOn.refl world.tree
  symm _ _ hagree := hagree.symm
  trans _ _ _ hagree hagree' := hagree.trans hagree'
  valid _ req hworld _ := hworld.serveHTTP h.unique req
  reply _ _ _ hleft hright hagree hreq := (serveHTTP_agree h hleft hright hagree hreq).reply_eq
  kept _ _ _ hleft hright hagree _ hkept := by
    obtain ⟨found, hfound, -, hvars⟩ := hkept
    exact (serveHTTP_agree h hleft hright hagree ⟨found, hfound, hvars⟩).tree
  purged _ _ hworld hspares hreq := agreeOn_serveHTTP h hworld hspares hreq

end Requests

/-- What a client of a repository is answered depends on the earlier uploads and index runs of that
repository only: every other request can be taken out of the run, and so can every run be exchanged
for one with the same uploads and index runs. -/
theorem replies_isolated (env : Externals) (start : World) (repoName : ByteString)
    (repo : UnixRepo) (h : Isolated env start repoName repo) (before : List Request)
    (hspares : ∀ req ∈ before, req.Spares env start.config repoName repo) (req : Request)
    (hreq : req.Concerns repoName) :
    (outcomeAfter env start before req).reply =
        (outcomeAfter env start (before.filter (Request.Writes repoName ·)) req).reply ∧
      ∀ other : List Request, (∀ earlier ∈ other, earlier.Spares env start.config repoName repo) →
        before.filter (Request.Writes repoName ·) = other.filter (Request.Writes repoName ·) →
        (outcomeAfter env start before req).reply = (outcomeAfter env start other req).reply := by
  have hstart : start.Since env start := World.Since.refl start
  refine ⟨(unwinding_server h).reply_purge hstart before hspares hreq, ?_⟩
  intro other hother hsame
  exact (unwinding_server h).reply_eq_of_filter_eq hstart hspares hother hsame hreq

/-! ## Two repositories on one server -/

/-- The name of a repository of the sample configuration is no path. -/
theorem slash_notMem_1c : slash ∉ ascii "1c" := by decide

/-- The repository `1c`, beside `kes`. -/
def UnixRepo.other : UnixRepo where
  root := ascii "/srv"
  dir := ascii "1c"
  name := ascii "1c"
  isAbs_root := UnixRepo.sample.isAbs_root
  slash_notMem_name := slash_notMem_1c

/-- A server with both repositories, and the folder `noarch` in the first. -/
def isolatedWorld : World where
  config :=
    { World.sample.config with
      repositories := some
        { execReindex := ascii "genbasedir"
          baseRepoRootPath := ascii "/srv"
          auth := none
          entries := ((∅ : AList fun _ : ByteString => Option Repo).insert (ascii "kes")
            (some ⟨ascii "kes", ascii "kes", [], none⟩)).insert (ascii "1c")
            (some ⟨ascii "1c", ascii "1c", [], none⟩) } }
  tree := .wayTo (UnixRepo.sample.dirOf noarch)

/-- An upload to `1c`. -/
def otherUpload : Request :=
  { sampleSignIn with path := ascii "/1c/files/noarch", body := samplePackage }

/-- Only `1c` is another repository that is configured. -/
theorem paths_isolatedWorld {name : ByteString} {paths : Config.RepoVarPath}
    (hname : name ≠ ascii "kes")
    (hpaths : isolatedWorld.config.getRepoVarPath Externals.uploading.cwd name = .ok paths) :
    UnixRepo.other.toRepoVarPath = paths := by
  rw [Config.getRepoVarPath_eq _ rfl] at hpaths
  by_cases hother : name = ascii "1c"
  · subst hother
    exact Except.ok.inj hpaths
  · rw [AList.lookup_insert_ne hother, AList.lookup_insert_ne hname] at hpaths
    contradiction

/-- The sample repository is isolated: the shell of the sample leaves the tree. -/
theorem sample_isolated : Isolated Externals.uploading isolatedWorld (ascii "kes") .sample where
  unique := sortsUnique_sortUnique
  paths := rfl
  shell :=
    { own := fun _ _ _ _ hagree => ⟨rfl, hagree⟩
      others := fun _ _ _ _ _ _ _ => FileTree.AgreeOn.refl _ }

/-- A sign-in and an upload to `1c` do not change the listing of `kes`. -/
theorem sample_replies_isolated :
    (outcomeAfter Externals.uploading isolatedWorld [sampleSignIn, otherUpload] sampleListing).reply =
      (outcomeAfter Externals.uploading isolatedWorld [] sampleListing).reply := by
  have hspares : ∀ req : Request,
      req.Spares Externals.uploading isolatedWorld.config (ascii "kes") .sample := by
    intro req name paths fileName file hname hpaths _
    refine ⟨.other, paths_isolatedWorld hname hpaths, Or.inl ⟨?_, ?_⟩⟩
    · decide
    · decide
  have hconcerns : sampleListing.Concerns (ascii "kes") := ⟨_, rfl, rfl⟩
  have hfilter : [sampleSignIn, otherUpload].filter (Request.Writes (ascii "kes") ·) = [] := by
    decide
  rw [(replies_isolated Externals.uploading isolatedWorld (ascii "kes") .sample sample_isolated
    [sampleSignIn, otherUpload] (fun req _ => hspares req) sampleListing hconcerns).1, hfilter]

end RepoManager
