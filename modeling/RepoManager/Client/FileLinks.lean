import RepoManager.Client.Actions
import RepoManager.Handler.Segments
import RepoManager.Library.UrlPath

/-!
# From a listed file to its download

The URL that a download of the client requests, followed through the browser, the percent-decoding
of the server and the router, up to the variables that `handleFileDownloading` reads.

The names of the listing are interpolated into the URL as they are. They arrive unchanged exactly
when they have no byte that a URL gives a meaning of its own; otherwise another file, another
route or none is asked for.
-/

open LexicalPath UrlPath

namespace RepoManager

/-- A repository as the browser reaches it: `URL_PREFIX` is an absolute URL without query or
fragment, and opens the index page. The part `base` of the path, if any, is taken off by a proxy
in front of the server. -/
structure Site where
  config : Config
  repo : Segment
  origin : Origin
  root : ByteString
  base : ByteString
  rendered : config.getURLPrefix repo.val = origin.bytes ++ slash :: root
  noQuery : ∀ byte ∈ root, endsPath byte = false
  opens : arrives (config.getURLPrefix repo.val ++ [slash]) =
    some ((base ++ slash :: repo.val) ++ [slash])

/-- What `handleFileDownloading` passes to the files service: repository, folder and file. -/
structure DownloadArgs where
  repoName : ByteString
  folderId : ByteString
  fileId : ByteString
  deriving DecidableEq

/-- The download that a request for a path leads to; a path that is not clean is redirected. -/
def downloadArgs (path : ByteString) : Option DownloadArgs :=
  if Mux.cleanPath path ≠ path then none
  else
    (route (ascii "GET") path).bind fun found =>
      if found.handler = .handleFileDownloading then
        some ⟨repoVar found.vars, clean (folderVar found.vars), clean (fileVar found.vars)⟩
      else none

/-- A row of the grid whose names a URL leaves as they are. -/
def LinkSafe (folder name : Segment) : Prop :=
  (∀ byte ∈ folder.val ++ name.val, reserved byte = false) ∧
    ∀ byte ∈ name.val.getLast?, isBlank byte = false

namespace Site

variable (site : Site)

/-- The global `URL_PREFIX` of the index page. -/
def urlPrefix : ByteString := site.config.getURLPrefix site.repo.val

/-- The path on which the server gets a request for a URL. -/
def serverPath (url : ByteString) : Option ByteString :=
  (arrives url).bind fun path =>
    if site.base <+: path then some (path.drop site.base.length) else none

/-- What the server downloads when `actionDownloadingFile` is called with two names. -/
def downloads (folder name : Segment) : Option DownloadArgs :=
  match actionDownloadingFile folder.val name.val with
  | .inl _ => none
  | .inr thunk => (site.serverPath (thunk.request.url site.urlPrefix)).bind downloadArgs

/-- Every row requests its own file. -/
def LinksAgree : Prop :=
  ∀ folder name : Segment,
    site.downloads folder name = some ⟨site.repo.val, folder.val, name.val⟩

end Site

/-! ## The route of a download -/

section Route

variable {path : ByteString} {repo folder file : Segment}

/-- The path of a download is routed to its handler. -/
theorem route_download
    (hpath : components path = [[], repo.val, ascii "files", folder.val, file.val]) :
    route (ascii "GET") path = some ⟨.handleFileDownloading,
      [.setRequestID, .logRequest, .setRequestChekRepo],
      [(ascii "repoName", repo.val), (ascii "folderId", folder.val),
        (ascii "fileId", file.val)]⟩ := by
  have hrepo := repo.property.1
  have hfolder := folder.property.1
  have hfile := file.property.1
  have hrouter : configureRouter =
      [.subrouter [.var (ascii "repoName")] [.setRequestID, .logRequest, .setRequestChekRepo]
        [.handle [.literal (ascii "sign-in")] [ascii "POST"] .signIn,
          .handle [.literal (ascii "folders")] [] .handleFolders,
          .subrouter [.literal (ascii "files")] []
            [.subrouter [] [.authenticate]
              [.handle [.literal (ascii "reindex")] [ascii "POST"] .handleFileReindexes,
                .handle [.var (ascii "folderId")] [ascii "POST"] .handleFileUploading],
              .handle [.var (ascii "folderId")] [] .handleFiles,
              .handle [.var (ascii "folderId"), .var (ascii "fileId")] [] .handleFileDownloading,
              .handle [.var (ascii "folderId"), .var (ascii "fileId"), .literal (ascii "info")] []
                .handleFileInfo],
          .handle [.literal []] [] .handleIndex,
          .pathPrefix [.literal []] .fileServer]] := rfl
  have hpost : ascii "GET" ≠ ascii "POST" := by decide
  have hfolders : ascii "folders" ≠ ascii "files" := by decide
  rw [route, hpath, hrouter]
  simp only [List.tail_cons, Mux.dispatchFirst, Mux.dispatch, Mux.matchPrefix, Mux.matchFull,
    List.nil_append, List.cons_append, Mux.Pattern.matchElem, Mux.Pattern.matchStart, hfolders]
  simp [hpost, hrepo, hfolder, hfile]

/-- The handler of downloads has one template. -/
theorem templates_download : Mux.templatesAll Endpoint.handleFileDownloading [] configureRouter =
    [(false, Mux.template "/\x7brepoName\x7d/files/\x7bfolderId\x7d/\x7bfileId\x7d")] := by
  decide

/-- What is routed to the handler of downloads has the path of a download. -/
theorem vars_of_route {found : Mux.Found Endpoint Middleware}
    (hfound : route (ascii "GET") path = some found)
    (hhandler : found.handler = .handleFileDownloading) :
    ∃ repoName folderId fileId,
      (components path).tail = [repoName, ascii "files", folderId, fileId] ∧
        found.vars = [(ascii "repoName", repoName), (ascii "folderId", folderId),
          (ascii "fileId", fileId)] := by
  obtain ⟨kind, hkind, hmatch⟩ := Mux.dispatchFirst_templates _ _ _ _ found hfound
  rw [hhandler, templates_download, List.mem_singleton] at hkind
  subst hkind
  change Mux.matchFull [.var (ascii "repoName"), .literal (ascii "files"), .var (ascii "folderId"),
    .var (ascii "fileId")] _ = _ at hmatch
  obtain ⟨repoName, afterRepo, _, _, helems, hrepo, hmatch, hvars⟩ := Mux.matchFull_cons hmatch
  obtain ⟨files, afterFiles, _, _, hfirst, hfiles, hmatch, hlater⟩ := Mux.matchFull_cons hmatch
  obtain ⟨folderId, afterFolder, _, _, hsecond, hfolder, hmatch, hfolderVars⟩ :=
    Mux.matchFull_cons hmatch
  obtain ⟨fileId, others, _, _, hthird, hfile, hmatch, hfileVars⟩ := Mux.matchFull_cons hmatch
  obtain rfl := Mux.matchElem_var hrepo
  obtain ⟨rfl, rfl⟩ := Mux.matchElem_literal hfiles
  obtain rfl := Mux.matchElem_var hfolder
  obtain rfl := Mux.matchElem_var hfile
  cases others with
  | cons elem others => exact nomatch hmatch
  | nil =>
    obtain rfl := Option.some.inj hmatch
    refine ⟨repoName, folderId, fileId, ?_, ?_⟩
    · rw [helems, hfirst, hsecond, hthird]
    · rw [hvars, hlater, hfolderVars, hfileVars]
      rfl

/-- The literal element of the template. -/
def filesElem : Segment := ⟨ascii "files", by decide⟩

/-- The path of a download and what is downloaded determine each other. -/
theorem downloadArgs_eq_some_iff :
    downloadArgs path = some ⟨repo.val, folder.val, file.val⟩ ↔
      path = render [repo, filesElem, folder, file] := by
  unfold downloadArgs
  constructor
  · intro h
    split at h
    · exact nomatch h
    next hclean =>
    have hclean : Mux.cleanPath path = path := not_not.mp hclean
    obtain ⟨found, hfound, hargs⟩ := Option.bind_eq_some_iff.mp h
    split at hargs
    · next hhandler =>
      obtain ⟨repoName, folderId, fileId, helems, hvars⟩ := vars_of_route hfound hhandler
      have hsegments := route_values hclean hfound
      simp only [hvars, List.forall_mem_cons] at hsegments
      obtain ⟨-, hfolder, hfile, -⟩ := hsegments
      -- cleaning changes no path name
      have hfolderClean : clean folderId = folderId := clean_segment ⟨folderId, hfolder⟩
      have hfileClean : clean fileId = fileId := clean_segment ⟨fileId, hfile⟩
      rw [hvars] at hargs
      change some (DownloadArgs.mk repoName (clean folderId) (clean fileId)) = _ at hargs
      rw [hfolderClean, hfileClean] at hargs
      simp only [Option.some.injEq, DownloadArgs.mk.injEq] at hargs
      apply eq_render_of_components (Mux.isAbs_of_cleanPath hclean)
      rw [helems, hargs.1, hargs.2.1, hargs.2.2]
      rfl
    · exact nomatch hargs
  · rintro rfl
    have hclean : Mux.cleanPath (render [repo, filesElem, folder, file]) =
        render [repo, filesElem, folder, file] :=
      Mux.cleanPath_render [repo, filesElem, folder] file
    rw [if_neg (not_not.mpr hclean), route_download (components_render (List.cons_ne_nil _ _)),
      Option.bind_some, if_pos rfl]
    change some (DownloadArgs.mk repo.val (clean folder.val) (clean file.val)) = _
    rw [clean_segment, clean_segment]

end Route

/-! ## The URL of a download -/

section Link

open Site

variable (site : Site) (folder name : Segment)

/-- What follows the prefix and its separator in the URL of a download. -/
def linkTail : ByteString := ascii "files/" ++ folder.val ++ ascii "/" ++ name.val

/-- The interpolated path is put behind the prefix. -/
theorem url_download : (ClientRequest.download folder.val name.val).url site.urlPrefix =
    site.origin.bytes ++ slash :: (site.root ++ slash :: linkTail folder name) := by
  have hhead : site.urlPrefix.head? ≠ some slash := by
    rw [urlPrefix, site.rendered, Origin.bytes]
    cases site.origin.secure <;> exact fun heq => absurd (Option.some.inj heq) (by decide)
  have hlast : site.urlPrefix.getLast? ≠ some slash := by
    obtain ⟨start, hstart⟩ := site.config.getURLPrefix_segment site.repo
    rw [urlPrefix, hstart, List.append_cons]
    exact getLast?_append_segment _ site.repo
  have hpath : (ClientRequest.download folder.val name.val).path = slash :: linkTail folder name :=
    rfl
  have htail : (linkTail folder name).getLast? ≠ some slash := getLast?_append_segment _ name
  rw [ClientRequest.url, hpath, appUrl_eq hhead hlast htail, urlPrefix, site.rendered,
    List.append_assoc, List.cons_append]

/-- The elements of the tail of the URL. -/
theorem components_linkTail :
    components (linkTail folder name) = [filesElem.val, folder.val, name.val] := by
  have htail : linkTail folder name =
      filesElem.val ++ slash :: (folder.val ++ slash :: name.val) := by
    simp only [linkTail, List.append_assoc]
    rfl
  rw [htail, components_append, components_append,
    components_of_slash_notMem filesElem.property.2.1,
    components_of_slash_notMem folder.property.2.1, components_of_slash_notMem name.property.2.1]
  rfl

/-- Without percent signs no element of the tail is a dot segment. -/
theorem dotless_linkTail (h : percent ∉ folder.val ++ name.val) :
    Dotless (components (linkTail folder name)) := by
  rw [List.mem_append, not_or] at h
  rw [components_linkTail, Dotless, List.forall_mem_cons, List.forall_mem_cons,
    List.forall_mem_singleton]
  exact ⟨not_isDot_segment filesElem (by decide), not_isDot_segment folder h.1,
    not_isDot_segment name h.2⟩

/-- The tail of the URL means itself when its two names are safe. -/
theorem plain_linkTail_iff : Plain (linkTail folder name) ↔ LinkSafe folder name := by
  have hbytes : (∀ byte ∈ linkTail folder name, reserved byte = false) ↔
      ∀ byte ∈ folder.val ++ name.val, reserved byte = false := by
    have hfiles : ∀ byte ∈ ascii "files/", reserved byte = false := by decide +kernel
    have hslash : ∀ byte ∈ ascii "/", reserved byte = false := by decide +kernel
    simp only [linkTail, List.forall_mem_append]
    exact ⟨fun h => ⟨h.1.1.2, h.2⟩, fun h => ⟨⟨⟨hfiles, h.1⟩, hslash⟩, h.2⟩⟩
  have hlast : (∀ hne, ¬ isBlank ((linkTail folder name).getLast hne)) ↔
      ∀ byte ∈ name.val.getLast?, isBlank byte = false := by
    have hend : (linkTail folder name).getLast? = name.val.getLast? :=
      List.getLast?_append_of_ne_nil _ name.property.1
    have hne : linkTail folder name ≠ [] := List.append_ne_nil_of_right_ne_nil _ name.property.1
    rw [← hend, List.getLast?_eq_some_getLast hne]
    simp [hne]
  rw [Plain, LinkSafe, hbytes, hlast]
  constructor
  · intro h
    exact ⟨h.1, h.2.1⟩
  · intro h
    exact ⟨h.1, h.2, dotless_linkTail folder name fun hmem => absurd (h.1 _ hmem) (by decide)⟩

/-- What arrives is the path of the server behind the part that the proxy removes. -/
theorem serverPath_eq_some_iff (url path : ByteString) :
    site.serverPath url = some path ↔ arrives url = some (site.base ++ path) := by
  rw [serverPath, Option.bind_eq_some_iff]
  constructor
  · rintro ⟨whole, hwhole, hrest⟩
    split at hrest
    · next hbase =>
      obtain ⟨rest, rfl⟩ := hbase
      rw [hwhole, ← Option.some.inj hrest, List.drop_left]
    · exact nomatch hrest
  · intro hwhole
    exact ⟨_, hwhole, by rw [if_pos (List.prefix_append _ _), List.drop_left]⟩

/-- What is downloaded is what is named, exactly for the safe names. -/
theorem downloads_eq_some_iff :
    site.downloads folder name = some ⟨site.repo.val, folder.val, name.val⟩ ↔
      LinkSafe folder name := by
  have hcreator : actionDownloadingFile folder.val name.val =
      .inr (downloadThunk folder.val name.val) :=
    if_neg (not_or.mpr ⟨folder.property.1, name.property.1⟩)
  have hroot : render [site.repo, filesElem, folder, name] =
      slash :: site.repo.val ++ slash :: linkTail folder name := by
    simp only [render, linkTail, filesElem, List.map_cons, List.map_nil, List.intercalate_cons_cons,
      List.intercalate_singleton, List.append_assoc]
    rfl
  have hopens : arrives (site.origin.bytes ++ slash :: (site.root ++ [slash])) =
      some ((site.base ++ slash :: site.repo.val) ++ [slash]) := by
    rw [← site.opens, site.rendered, List.append_assoc, List.cons_append]
  rw [downloads, hcreator]
  change (site.serverPath ((ClientRequest.download folder.val name.val).url site.urlPrefix)).bind
    downloadArgs = _ ↔ _
  rw [url_download, Option.bind_eq_some_iff]
  simp only [downloadArgs_eq_some_iff, exists_eq_right, serverPath_eq_some_iff, hroot]
  rw [← plain_linkTail_iff, ← arrives_iff site.noQuery hopens, List.append_assoc]

end Link

namespace Site

/-- A row requests its own file exactly when its names are safe, and rows with safe names never
request the same file. -/
theorem links_agree_iff (site : Site) (folder name : Segment) :
    (site.downloads folder name = some ⟨site.repo.val, folder.val, name.val⟩ ↔
        LinkSafe folder name) ∧
      ∀ folder' name', LinkSafe folder name → LinkSafe folder' name' →
        site.downloads folder name = site.downloads folder' name' →
        folder = folder' ∧ name = name' := by
  refine ⟨downloads_eq_some_iff site folder name, ?_⟩
  intro folder' name' hsafe hsafe' heq
  rw [(downloads_eq_some_iff site folder name).mpr hsafe,
    (downloads_eq_some_iff site folder' name').mpr hsafe'] at heq
  simp only [Option.some.injEq, DownloadArgs.mk.injEq, true_and] at heq
  exact ⟨Segment.ext heq.1, Segment.ext heq.2⟩

/-- A server on its own host with the repository `kes`. -/
def sample : Site where
  config := ⟨⟨[], [], 0, ascii "http://localhost:3001/"⟩, none⟩
  repo := ⟨ascii "kes", by decide⟩
  origin := ⟨false, ascii "localhost:3001", by decide, by decide +kernel⟩
  root := ascii "kes"
  base := []
  rendered := by decide +kernel
  noQuery := by decide +kernel
  opens := by decide +kernel

/-- The rows `%41` and `A` of one folder request the same file. -/
theorem sample_not_linksAgree :
    ∃ folder name other : Segment, name.val = ascii "%41" ∧ other.val = ascii "A" ∧
      sample.downloads folder name = some ⟨sample.repo.val, folder.val, other.val⟩ ∧
      sample.downloads folder name = sample.downloads folder other ∧ ¬ sample.LinksAgree := by
  let folder : Segment := ⟨ascii "noarch", by decide⟩
  let name : Segment := ⟨ascii "%41", by decide⟩
  let other : Segment := ⟨ascii "A", by decide⟩
  have hname : sample.downloads folder name =
      some ⟨sample.repo.val, folder.val, other.val⟩ := by decide +kernel
  have hother : sample.downloads folder other =
      some ⟨sample.repo.val, folder.val, other.val⟩ := by decide +kernel
  refine ⟨folder, name, other, rfl, rfl, hname, hname.trans hother.symm, ?_⟩
  intro hagree
  exact absurd ((hagree folder name).symm.trans hname) (by decide)

end Site

end RepoManager
