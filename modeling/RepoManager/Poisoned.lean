import RepoManager.Growth

/-!
# A folder that nobody can list

The reply to an upload encodes the name of the file, and so does every later listing of its folder.
A name that is not UTF-8 cannot be encoded. But the file is written before the reply is encoded:
the upload is answered with an error and leaves the file behind, and from then on the folder is
answered with an error as well. Nothing a client can do brings the listing back, since no request
but an index run removes a file.
-/

open LexicalPath

namespace RepoManager

section Calls

variable {env : Externals} {vars : Mux.Vars} {req : Request} {world : World}

/-- A request whose handler made a call is answered by the handler. -/
theorem wrap_of_call (handler : Handler) (middlewares : List Middleware) {repoName : ByteString}
    (h : .fileUploading repoName ∈
      (middlewares.foldr (Middleware.wrap env) handler vars req world).calls) :
    (middlewares.foldr (Middleware.wrap env) handler vars req world).reply =
        (handler vars req world).reply ∧
      (middlewares.foldr (Middleware.wrap env) handler vars req world).world =
        (handler vars req world).world ∧
      .fileUploading repoName ∈ (handler vars req world).calls := by
  induction middlewares with
  | nil => exact ⟨rfl, rfl, h⟩
  | cons middleware rest ih =>
    cases middleware with
    | setRequestID => exact ih h
    | logRequest => exact ih h
    | setRequestChekRepo =>
      simp only [List.foldr_cons, Middleware.wrap, setRequestChekRepo] at h ⊢
      split at h
      · next hthere =>
        rw [if_pos hthere]
        exact ih h
      · exact absurd h List.not_mem_nil
    | authenticate =>
      simp only [List.foldr_cons, Middleware.wrap, authenticate] at h ⊢
      split at h
      · exact absurd h List.not_mem_nil
      split at h
      · exact absurd h List.not_mem_nil
      split at h
      · exact absurd h List.not_mem_nil
      · rcases List.mem_append.mp h with hself | hnext
        · have hbad := List.mem_singleton.mp hself
          contradiction
        · exact ih hnext

/-- A request that reached the files service with an upload: its reply and the state it leaves. -/
theorem serveHTTP_of_upload {repoName fileName file : ByteString} {paths : Config.RepoVarPath}
    {folder : Segment} (hcall : .fileUploading repoName ∈ (serveHTTP env req world).calls)
    (hasks : AsksUpload env req world.config repoName paths folder fileName file) :
    (serveHTTP env req world).reply =
        respondResult (FilesService.fileUploading env.proto env.rpmRead req.faults world.tree
          paths.root paths.dir folder.val paths.name fileName file).1 ∧
      (serveHTTP env req world).world =
        { world with tree := uploaded env req world.tree paths folder fileName file } := by
  obtain ⟨found, hpreflight, hclean, hfound, hwrap⟩ := calls_serveHTTP hcall
  obtain ⟨other, hother, hendpoint, hrepo, hfolder⟩ := hasks.routed
  obtain rfl := Option.some.inj (hfound.symm.trans hother)
  obtain ⟨hreply, hworld, -⟩ := wrap_of_call _ _ hwrap
  have hhandler : found.handler.handler env found.vars req world =
      .after [.fileUploading (repoVar found.vars)] (.of
        (respondResult (FilesService.fileUploading env.proto env.rpmRead req.faults world.tree
          paths.root paths.dir folder.val paths.name fileName file).1)
        { world with tree := uploaded env req world.tree paths folder fileName file }) := by
    rw [hendpoint]
    change handleFileUploading env found.vars req world = _
    rw [handleFileUploading, withRepoVarPath, hrepo, hasks.found]
    dsimp only
    rw [hasks.delivered, hfolder, clean_segment]
    rfl
  rw [serveHTTP_of_route hpreflight hclean hfound, hreply, hworld, hhandler]
  exact ⟨rfl, rfl⟩

end Calls

/-- An upload that would be accepted but for its name: the package is of the architecture of the
folder, whose directory is there, no I/O failure happens, and the name is not UTF-8. -/
structure Poisons (env : Externals) (req : Request) (world : World) (repoName : ByteString)
    (repo : UnixRepo) (folder name : Segment) : Prop where
  reached : .fileUploading repoName ∈ (serveHTTP env req world).calls
  asks : ∃ file, AsksUpload env req world.config repoName repo.toRepoVarPath folder name.val file ∧
    ∃ pkg, (env.rpmRead file).1 = .ok pkg ∧ pkg.architecture = folder.val
  faults : req.faults = .none
  directory : world.tree.node (repo.dirOf folder) = some .dir
  free : world.tree.node (repo.dirOf folder ++ [name]) ≠ some .dir
  invalid : ¬ Utf8.Valid name.val

section Poisoned

variable {env : Externals} {marshal : Api.Marshal} {reader : Api.BinaryReader}
  (hproto : env.proto = marshal.proto reader) {world : World} {repoName : ByteString}
  {repo : UnixRepo} {folder name : Segment}

include hproto

/-- Such an upload is answered with an error and leaves its file. -/
theorem Poisons.leaves_file {req : Request} (h : Poisons env req world repoName repo folder name) :
    (∃ err, (serveHTTP env req world).reply = respondError 500 err) ∧
      ∃ content, (serveHTTP env req world).world.tree.node (repo.dirOf folder ++ [name]) =
        some (.file content) := by
  obtain ⟨file, hasks, pkg, hpkg, harch⟩ := h.asks
  obtain ⟨hreply, hworld⟩ := serveHTTP_of_upload h.reached hasks
  have htarget : repo.uploadTarget folder name.val = repo.dirOf folder ++ [name] :=
    walk_segment _ _
  obtain ⟨created, hcreate⟩ := (world.tree.create_eq_ok_iff (repo.dirOf folder ++ [name])).mpr
    ⟨_, _, rfl, h.directory, h.free⟩
  have hmarshal : ∃ err, env.proto.marshalFile name.val = .error err := by
    rw [hproto]
    change ∃ err, marshal.file ⟨name.val⟩ = .error err
    cases hfile : marshal.file ⟨name.val⟩ with
    | error err => exact ⟨err, rfl⟩
    | ok data => exact absurd (marshal.file_encodes _ data hfile).1 h.invalid
  obtain ⟨err, herr⟩ := hmarshal
  have hupload : FilesService.fileUploading env.proto env.rpmRead req.faults world.tree repo.root
      repo.dir folder.val repo.name name.val file =
        (.error err, created.write (repo.dirOf folder ++ [name]) (env.rpmRead file).2) := by
    rw [UnixRepo.fileUploading_eq]
    rcases hread : env.rpmRead file with ⟨result, rest⟩
    rw [hread] at hpkg
    obtain rfl : result = .ok pkg := hpkg
    dsimp only
    rw [if_neg (not_not.mpr harch), htarget, h.faults]
    simp only [FilesPath.fileUploading, UploadFaults.none, osCreate, absolute_render, hcreate,
      base_render_child, herr]
  rw [hreply, hworld]
  dsimp only [uploaded]
  rw [hupload]
  exact ⟨⟨err, rfl⟩, _, (FilesPath.node_write_create hcreate _).1⟩

/-- A folder with such a file is never listed. -/
theorem getFiles_ne_ok {tree : FileTree} (hname : ¬ Utf8.Valid name.val) {content : ByteString}
    (hnode : tree.node (repo.dirOf folder ++ [name]) = some (.file content)) (data : ByteString) :
    FilesService.getFiles env.proto tree repo.root repo.dir folder.val repo.name ≠ .ok data := by
  intro hdata
  rw [UnixRepo.getFiles_eq, hproto] at hdata
  obtain ⟨objects, hobjects, hmarshal⟩ := bind_eq_ok_iff.mp hdata
  rw [getOdjectsInFolder_eq_ok_iff, absolute_render] at hobjects
  have hlisted := (FilesPath.mem_fileNames hobjects name.val).mpr ⟨name, rfl, content, hnode⟩
  have hvalid := Api.Files.valid_of_encodes (marshal.files_encodes _ data hmarshal) ⟨name.val⟩
    (List.mem_map_of_mem hlisted)
  exact hname hvalid

/-- A listing of a folder with such a file is not answered. -/
theorem listing_ne_respondData {listing : Request} (hname : ¬ Utf8.Valid name.val)
    {content : ByteString}
    (hnode : world.tree.node (repo.dirOf folder ++ [name]) = some (.file content))
    (hpaths : world.config.getRepoVarPath env.cwd repoName = .ok repo.toRepoVarPath)
    (hlisting : ∃ found ∈ route listing.method listing.path, found.handler = .handleFiles ∧
      repoVar found.vars = repoName ∧ folderVar found.vars = folder.val) (data : ByteString) :
    (serveHTTP env listing world).reply ≠ respondData data := by
  intro hdata
  obtain ⟨found, hfound, hendpoint, hrepo, hfolder⟩ := hlisting
  by_cases hpreflight : preflight listing
  · rw [serveHTTP, if_pos hpreflight] at hdata
    simp [Outcome.of, respondData] at hdata
  by_cases hclean : Mux.cleanPath listing.path = listing.path
  · rw [serveHTTP_of_route hpreflight hclean hfound, hendpoint] at hdata
    have hhandler : (handleFiles env found.vars listing world).reply = respondData data := by
      refine wrap_transfer (· = respondData data)
        (fun _ => (handleFiles env found.vars listing world).reply = respondData data)
        (fun _ h => ⟨data, h⟩) rfl (Endpoint.handler env .handleFiles) found.middlewares
        (fun h => h) hdata
    rw [handleFiles, Api.reply_eq_respondData_iff] at hhandler
    obtain ⟨paths, hfoundPaths, hcall⟩ := hhandler
    rw [hrepo, hpaths] at hfoundPaths
    obtain rfl := Except.ok.inj hfoundPaths
    rw [hfolder, clean_segment] at hcall
    exact getFiles_ne_ok hproto hname hnode data hcall
  · rw [serveHTTP, if_neg hpreflight, if_pos hclean] at hdata
    simp [Outcome.of, respondData] at hdata

end Poisoned

/-- After an upload whose name is not UTF-8, which is itself answered with an error, no listing of
its folder is answered in any later state that is reached without an index run. -/
theorem listing_lost (env : Externals) (marshal : Api.Marshal) (reader : Api.BinaryReader)
    (hproto : env.proto = marshal.proto reader) (hunique : SortsUnique env.unique) (world : World)
    (req : Request) {repoName : ByteString} {repo : UnixRepo} {folder name : Segment}
    (hreq : Poisons env req world repoName repo folder name) (later : List Request)
    (hlater : ∀ request ∈ later, ¬ request.Indexes) :
    (∃ err, (serveHTTP env req world).reply = respondError 500 err) ∧
      ∀ listing : Request, (∃ found ∈ route listing.method listing.path,
          found.handler = .handleFiles ∧ repoVar found.vars = repoName ∧
            folderVar found.vars = folder.val) →
        ∀ data, (outcomeAfter env world (req :: later) listing).reply ≠ respondData data := by
  obtain ⟨herror, content, hnode⟩ := hreq.leaves_file hproto
  refine ⟨herror, fun listing hlisting data => ?_⟩
  have hgrown := later_serveAll env hunique (serveHTTP env req world).world later hlater
  obtain ⟨held, hheld⟩ := hgrown.tree.file _ content hnode
  obtain ⟨file, hasks, -⟩ := hreq.asks
  have hworld := (serveHTTP_of_upload hreq.reached hasks).2
  have hpaths : (serveHTTP env req world).world.config.getRepoVarPath env.cwd repoName =
      .ok repo.toRepoVarPath := by
    rw [hworld]
    exact hasks.found
  exact listing_ne_respondData hproto hreq.invalid hheld
    (((hgrown.config repoName).getRepoVarPath_eq env.cwd).trans hpaths) hlisting data

/-- A byte that starts no character is a path name. -/
def badName : Segment := ⟨[0xff], by decide⟩

/-- A server on which the sample package is delivered under that name. -/
def Externals.misnaming : Externals :=
  { Externals.uploading with
    proto := Api.Marshal.inOrder.proto .sample
    formPart := fun body => .ok (badName.val, body) }

/-- The sample upload poisons the folder there. -/
theorem sample_poisons :
    Poisons .misnaming sampleUpload .uploading (ascii "kes") .sample noarch badName where
  reached := by
    have hcalls : (serveHTTP .misnaming sampleUpload .uploading).calls =
        [.parseToken (ascii "kes") (ascii "token"), .fileUploading (ascii "kes")] := by
      rfl
    rw [hcalls]
    exact List.mem_cons_of_mem _ (List.mem_singleton_self _)
  asks := by
    refine ⟨samplePackage, ⟨⟨_, rfl, rfl, rfl, rfl⟩, rfl, rfl⟩, sampleRPM, ?_, rfl⟩
    exact congrArg Prod.fst sampleRead_samplePackage
  faults := rfl
  directory := (FileTree.node_wayTo _ _).trans (if_pos (List.prefix_refl _))
  free := by
    rw [World.uploading, FileTree.node_wayTo, if_neg (FileTree.not_child_prefix _ _)]
    simp
  invalid := by decide

/-- After it the folder is not listed, also not after another sign-in. -/
theorem sample_listing_lost :
    ¬ ∃ data, (outcomeAfter .misnaming .uploading [sampleUpload, sampleSignIn]
      sampleListing).reply = respondData data := by
  rintro ⟨data, hdata⟩
  obtain ⟨-, hnone⟩ := listing_lost .misnaming Api.Marshal.inOrder .sample rfl
    sortsUnique_sortUnique .uploading sampleUpload sample_poisons [sampleSignIn] (by decide)
  exact hnone sampleListing ⟨_, rfl, rfl, rfl, rfl⟩ data hdata

end RepoManager
