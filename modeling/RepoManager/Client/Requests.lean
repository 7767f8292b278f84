import RepoManager.Client.FileLinks
import RepoManager.Handler.RoutingTable

/-!
# The requests of the client reach their handlers

Client and server agree on an interface by convention only: the actions interpolate names into the
paths of URLs, and the router takes paths apart again. For each request of the client there is a
handler that it is meant for, with the names it was given.

A request reaches it exactly when its names mean themselves in a URL, with one exception: nothing
can be uploaded to a folder with the name `reindex`, since that request runs the index command.
-/

open LexicalPath UrlPath

namespace RepoManager

namespace ClientRequest

/-- The method that `webclient` sends a request with. -/
def method : ClientRequest → ByteString
  | .folders => ascii "GET"
  | .reindex => ascii "POST"
  | .files _ => ascii "GET"
  | .upload _ _ => ascii "POST"
  | .download _ _ => ascii "GET"
  | .info _ _ => ascii "GET"

/-- The elements of the path of a request. -/
def elems : ClientRequest → List ByteString
  | .folders => [ascii "folders"]
  | .reindex => [ascii "files", ascii "reindex"]
  | .files folder => [ascii "files", folder]
  | .upload folder _ => [ascii "files", folder]
  | .download folder filename => [ascii "files", folder, filename]
  | .info folderId fileId => [ascii "files", folderId, fileId, ascii "info"]

/-- The handler that a request is meant for, and what it should read from the path. -/
def meant (repoName : ByteString) : ClientRequest → Endpoint × Mux.Vars
  | .folders => (.handleFolders, [(ascii "repoName", repoName)])
  | .reindex => (.handleFileReindexes, [(ascii "repoName", repoName)])
  | .files folder => (.handleFiles, [(ascii "repoName", repoName), (ascii "folderId", folder)])
  | .upload folder _ =>
    (.handleFileUploading, [(ascii "repoName", repoName), (ascii "folderId", folder)])
  | .download folder filename =>
    (.handleFileDownloading,
      [(ascii "repoName", repoName), (ascii "folderId", folder), (ascii "fileId", filename)])
  | .info folderId fileId =>
    (.handleFileInfo,
      [(ascii "repoName", repoName), (ascii "folderId", folderId), (ascii "fileId", fileId)])

/-- Folder and file are path names, as those that the server lists. -/
def Named (request : ClientRequest) : Prop := ∀ elem ∈ request.elems, IsSegment elem

/-- No other route takes the request away. -/
def Untaken : ClientRequest → Prop
  | .upload folder _ => folder ≠ ascii "reindex"
  | _ => True

/-- The names of a request mean themselves in its URL, and no other route takes it away. -/
structure Safe (request : ClientRequest) : Prop where
  bytes : ∀ elem ∈ request.elems, ∀ byte ∈ elem, reserved byte = false
  last : ∀ elem ∈ request.elems.getLast?, ∀ byte ∈ elem.getLast?, isBlank byte = false
  untaken : request.Untaken

end ClientRequest

section Routes

variable {request : ClientRequest} {repoName : ByteString}

/-- The request finds the handler it is meant for. -/
theorem foundAt_elems (h : request.Named) (huntaken : request.Untaken) :
    let found := foundAt request.method repoName request.elems
    (found.handler, found.vars) = request.meant repoName := by
  have hne : ∀ elem ∈ request.elems, elem ≠ [] := fun elem helem => (h elem helem).1
  have hpost : ascii "GET" ≠ ascii "POST" := by decide
  have hsignIn : ascii "folders" ≠ ascii "sign-in" := by decide
  have hreindex : ascii "reindex" ≠ [] := by decide
  cases request with
  | folders => simp [ClientRequest.method, ClientRequest.elems, ClientRequest.meant, foundAt, hsignIn]
  | reindex => simp [ClientRequest.method, ClientRequest.elems, ClientRequest.meant, foundAt, hreindex]
  | files folder =>
    simp only [ClientRequest.elems, List.forall_mem_cons] at hne
    simp [ClientRequest.method, ClientRequest.elems, ClientRequest.meant, foundAt, hpost, hne]
  | upload folder file =>
    simp only [ClientRequest.elems, List.forall_mem_cons] at hne
    simp only [ClientRequest.Untaken, ne_eq] at huntaken
    simp [ClientRequest.method, ClientRequest.elems, ClientRequest.meant, foundAt, huntaken, hne]
  | download folder filename =>
    simp only [ClientRequest.elems, List.forall_mem_cons] at hne
    simp [ClientRequest.elems, ClientRequest.meant, foundAt, hne]
  | info folderId fileId =>
    simp only [ClientRequest.elems, List.forall_mem_cons] at hne
    simp [ClientRequest.elems, ClientRequest.meant, foundAt, hne]

/-- What finds that handler has the elements of the request. -/
theorem elems_of_foundAt {other : ByteString} {elems : List ByteString}
    (h : ((foundAt request.method other elems).handler, (foundAt request.method other elems).vars) =
      request.meant repoName) :
    other = repoName ∧ elems = request.elems ∧ request.Untaken := by
  have htabled := tabled_foundAt request.method other elems
  obtain ⟨hhandler, hvars⟩ := Prod.mk.inj h
  rw [hhandler, hvars] at htabled
  cases request with
  | folders => cases htabled; exact ⟨rfl, rfl, trivial⟩
  | reindex => cases htabled; exact ⟨rfl, rfl, trivial⟩
  | files folder => cases htabled; exact ⟨rfl, rfl, trivial⟩
  | upload folder file =>
    cases htabled with
    | upload _ _ hfolder => exact ⟨rfl, rfl, hfolder⟩
  | download folder filename => cases htabled; exact ⟨rfl, rfl, trivial⟩
  | info folderId fileId => cases htabled; exact ⟨rfl, rfl, trivial⟩

end Routes

/-! ## The URLs of the requests -/

/-- The bytes of a path are those of its elements and separators. -/
theorem forall_mem_intercalate {P : UInt8 → Prop} (hslash : P slash) (elems : List ByteString) :
    (∀ byte ∈ [slash].intercalate elems, P byte) ↔ ∀ elem ∈ elems, ∀ byte ∈ elem, P byte := by
  induction elems with
  | nil => simp
  | cons elem rest ih =>
    cases rest with
    | nil => simp
    | cons next rest =>
      rw [List.intercalate_cons_cons, List.forall_mem_append, List.forall_mem_append,
        List.forall_mem_singleton, ih, List.forall_mem_cons (a := elem)]
      tauto

/-- The last byte of a path is that of its last element. -/
theorem getLast?_intercalate {elems : List ByteString} (h : ∀ elem ∈ elems, elem ≠ []) :
    ([slash].intercalate elems).getLast? = elems.getLast?.bind List.getLast? := by
  induction elems with
  | nil => rfl
  | cons elem rest ih =>
    cases rest with
    | nil => simp
    | cons next rest =>
      have hne : [slash].intercalate (next :: rest) ≠ [] := by
        have hnext := h next (List.mem_cons_of_mem _ List.mem_cons_self)
        cases rest with
        | nil => simpa using hnext
        | cons other rest => simp [List.intercalate_cons_cons]
      rw [List.intercalate_cons_cons, List.getLast?_append_of_ne_nil _ hne,
        ih fun other hother => h other (List.mem_cons_of_mem _ hother), List.getLast?_cons_cons]

section Urls

variable {request : ClientRequest}

/-- What follows the prefix and its separator in the URL of a request. -/
def ClientRequest.tail (request : ClientRequest) : ByteString := [slash].intercalate request.elems

/-- The path that is interpolated for a request. -/
theorem ClientRequest.path_eq (request : ClientRequest) : request.path = slash :: request.tail := by
  cases request with
  | folders => rfl
  | reindex => rfl
  | files folder =>
    simp only [path, tail, elems, List.intercalate_cons_cons, List.intercalate_singleton]
    rfl
  | upload folder file =>
    simp only [path, tail, elems, List.intercalate_cons_cons, List.intercalate_singleton]
    rfl
  | download folder filename =>
    simp only [path, tail, elems, List.intercalate_cons_cons, List.intercalate_singleton,
      List.append_assoc]
    rfl
  | info folderId fileId =>
    simp only [path, tail, elems, List.intercalate_cons_cons, List.intercalate_singleton,
      List.append_assoc]
    rfl

/-- A request has an element. -/
theorem ClientRequest.elems_ne_nil (request : ClientRequest) : request.elems ≠ [] := by
  cases request <;> exact List.cons_ne_nil _ _

variable (h : request.Named)

include h

/-- The last byte of a request is that of its last element. -/
theorem ClientRequest.Named.getLast?_tail :
    request.tail.getLast? = request.elems.getLast?.bind List.getLast? :=
  getLast?_intercalate fun elem helem => (h elem helem).1

/-- The path of a request does not end in a separator. -/
theorem ClientRequest.Named.getLast?_tail_ne : request.tail.getLast? ≠ some slash := by
  rw [h.getLast?_tail]
  intro hlast
  obtain ⟨elem, helem, hslash⟩ := Option.bind_eq_some_iff.mp hlast
  exact (h elem (List.mem_of_getLast? helem)).2.1 (List.mem_of_getLast? hslash)

/-- The elements of the path are those of the request. -/
theorem ClientRequest.Named.components_tail : components request.tail = request.elems := by
  rw [ClientRequest.tail, components_intercalate _ request.elems_ne_nil]
  exact flatMap_components_of_slash_notMem _ fun elem helem => (h elem helem).2.1

/-- The tail of the URL means itself when the names do. -/
theorem ClientRequest.Named.plain_tail_iff : Plain request.tail ↔
    (∀ elem ∈ request.elems, ∀ byte ∈ elem, reserved byte = false) ∧
      ∀ elem ∈ request.elems.getLast?, ∀ byte ∈ elem.getLast?, isBlank byte = false := by
  have hbytes : (∀ byte ∈ request.tail, reserved byte = false) ↔
      ∀ elem ∈ request.elems, ∀ byte ∈ elem, reserved byte = false :=
    forall_mem_intercalate (by decide) request.elems
  have hlast : (∀ hne : request.tail ≠ [], ¬ isBlank (request.tail.getLast hne)) ↔
      ∀ elem ∈ request.elems.getLast?, ∀ byte ∈ elem.getLast?, isBlank byte = false := by
    have hend : (∀ byte ∈ request.tail.getLast?, isBlank byte = false) ↔
        ∀ elem ∈ request.elems.getLast?, ∀ byte ∈ elem.getLast?, isBlank byte = false := by
      rw [h.getLast?_tail]
      simp only [Option.mem_def, Option.bind_eq_some_iff]
      exact ⟨fun hall elem helem byte hbyte => hall byte ⟨elem, helem, hbyte⟩,
        fun hall byte ⟨elem, helem, hbyte⟩ => hall elem helem byte hbyte⟩
    rw [← hend]
    cases htail : request.tail with
    | nil => simp
    | cons first rest => simp [List.getLast?_eq_some_getLast]
  rw [Plain, hbytes, hlast, h.components_tail]
  constructor
  · exact fun hplain => ⟨hplain.1, hplain.2.1⟩
  · intro hsafe
    refine ⟨hsafe.1, hsafe.2, fun elem helem => ?_⟩
    exact not_isDot_segment ⟨elem, h elem helem⟩ fun hpercent =>
      absurd (hsafe.1 elem helem _ hpercent) (by decide)

/-- The interpolated path is put behind the prefix. -/
theorem ClientRequest.Named.url_eq (site : Site) : request.url site.urlPrefix =
    site.origin.bytes ++ slash :: (site.root ++ slash :: request.tail) := by
  have hhead : site.urlPrefix.head? ≠ some slash := by
    rw [Site.urlPrefix, site.rendered, Origin.bytes]
    cases site.origin.secure <;> exact fun heq => absurd (Option.some.inj heq) (by decide)
  have hlast : site.urlPrefix.getLast? ≠ some slash := by
    obtain ⟨start, hstart⟩ := site.config.getURLPrefix_segment site.repo
    rw [Site.urlPrefix, hstart, List.append_cons]
    exact getLast?_append_segment _ site.repo
  rw [ClientRequest.url, request.path_eq, appUrl_eq hhead hlast h.getLast?_tail_ne, Site.urlPrefix,
    site.rendered, List.append_assoc, List.cons_append]

end Urls

/-! ## What a request reaches -/

/-- The handler for a path, with its variables; a path that is not clean is redirected. -/
def reached (method path : ByteString) : Option (Endpoint × Mux.Vars) :=
  if Mux.cleanPath path ≠ path then none
  else (route method path).map fun found => (found.handler, found.vars)

/-- What a request of a page reaches on the server. -/
def Site.reaches (site : Site) (request : ClientRequest) : Option (Endpoint × Mux.Vars) :=
  (site.serverPath (request.url site.urlPrefix)).bind (reached request.method)

/-- Path names make a location. -/
theorem exists_location (elems : List ByteString) (h : ∀ elem ∈ elems, IsSegment elem) :
    ∃ loc : Location, loc.map Segment.val = elems := by
  induction elems with
  | nil => exact ⟨[], rfl⟩
  | cons elem rest ih =>
    rw [List.forall_mem_cons] at h
    obtain ⟨loc, hloc⟩ := ih h.2
    exact ⟨⟨elem, h.1⟩ :: loc, by rw [List.map_cons, hloc]⟩

/-- The path of a request and what it is meant for determine each other. -/
theorem reached_eq_some_iff {request : ClientRequest} (h : request.Named) (repo : Segment)
    (path : ByteString) : reached request.method path = some (request.meant repo.val) ↔
      path = slash :: repo.val ++ slash :: request.tail ∧ request.Untaken := by
  obtain ⟨loc, hloc⟩ := exists_location request.elems h
  have hne : loc ≠ [] := by
    rintro rfl
    exact request.elems_ne_nil hloc.symm
  have hrender : render (repo :: loc) = slash :: repo.val ++ slash :: request.tail := by
    obtain ⟨first, rest, hcons⟩ := List.exists_cons_of_ne_nil request.elems_ne_nil
    rw [render, List.map_cons, hloc, ClientRequest.tail, hcons, List.intercalate_cons_cons]
    simp
  have helems : components (slash :: repo.val ++ slash :: request.tail) =
      [] :: repo.val :: request.elems := by
    rw [← hrender, components_render (List.cons_ne_nil _ _), List.map_cons, hloc]
  obtain ⟨first, rest, hcons⟩ := List.exists_cons_of_ne_nil request.elems_ne_nil
  unfold reached
  constructor
  · intro hreached
    split at hreached
    · contradiction
    next hclean =>
    have hclean : Mux.cleanPath path = path := not_not.mp hclean
    rw [route_eq_routingTable, routingTable] at hreached
    obtain ⟨found, hfound, hmeant⟩ := Option.map_eq_some_iff.mp hreached
    split at hfound
    · next other first rest hpath =>
      split at hfound
      · contradiction
      obtain rfl := Option.some.inj hfound
      obtain ⟨rfl, heq, huntaken⟩ := elems_of_foundAt hmeant
      refine ⟨?_, huntaken⟩
      rw [← hrender]
      apply eq_render_of_components (Mux.isAbs_of_cleanPath hclean)
      rw [hpath, heq, List.map_cons, hloc]
    · contradiction
  · rintro ⟨rfl, huntaken⟩
    have hclean : Mux.cleanPath (render (repo :: loc)) = render (repo :: loc) := by
      obtain ⟨start, last, rfl⟩ := (List.eq_nil_or_concat' loc).resolve_left hne
      exact Mux.cleanPath_render (repo :: start) last
    rw [← hrender, if_neg (not_not.mpr hclean), hrender, route_eq_routingTable, routingTable,
      helems, List.tail_cons, hcons]
    dsimp only
    rw [if_neg repo.property.1, ← hcons, Option.map_some]
    exact congrArg some (foundAt_elems h huntaken)

/-- A request reaches its handler exactly when it is safe. -/
theorem reaches_eq_some_iff (site : Site) {request : ClientRequest} (h : request.Named) :
    site.reaches request = some (request.meant site.repo.val) ↔ request.Safe := by
  have hopens : arrives (site.origin.bytes ++ slash :: (site.root ++ [slash])) =
      some ((site.base ++ slash :: site.repo.val) ++ [slash]) := by
    rw [← site.opens, site.rendered, List.append_assoc, List.cons_append]
  have harrives : arrives (site.origin.bytes ++ slash :: (site.root ++ slash :: request.tail)) =
      some (site.base ++ (slash :: site.repo.val ++ slash :: request.tail)) ↔ Plain request.tail := by
    rw [← arrives_iff site.noQuery hopens, List.append_assoc]
  rw [Site.reaches, h.url_eq, Option.bind_eq_some_iff]
  simp only [reached_eq_some_iff h, serverPath_eq_some_iff]
  constructor
  · rintro ⟨path, hpath, rfl, huntaken⟩
    obtain ⟨hbytes, hlast⟩ := h.plain_tail_iff.mp (harrives.mp hpath)
    exact ⟨hbytes, hlast, huntaken⟩
  · intro hsafe
    have hplain := h.plain_tail_iff.mpr ⟨hsafe.bytes, hsafe.last⟩
    exact ⟨_, harrives.mpr hplain, rfl, hsafe.untaken⟩

/-- Every request of the client reaches the handler it is meant for, with the names it was given,
exactly when these mean themselves in a URL and it is no upload to the folder `reindex`. Such an
upload runs the index command instead. -/
theorem requests_agree_iff (site : Site) :
    (∀ request : ClientRequest, request.Named →
      (site.reaches request = some (request.meant site.repo.val) ↔ request.Safe)) ∧
    ∀ file, site.reaches (.upload (ascii "reindex") file) =
      some (ClientRequest.reindex.meant site.repo.val) := by
  refine ⟨fun request h => reaches_eq_some_iff site h, fun file => ?_⟩
  have hnamed : ClientRequest.reindex.Named := by
    unfold ClientRequest.Named ClientRequest.elems
    decide
  have hsafe : ClientRequest.reindex.Safe :=
    ⟨by unfold ClientRequest.elems; decide +kernel, by unfold ClientRequest.elems; decide +kernel, trivial⟩
  exact (reaches_eq_some_iff site hnamed).mpr hsafe

/-- On the sample site the details of a file reach their handler; a file with a percent sign in its
name does not. -/
theorem sample_requests_agree_iff :
    Site.sample.reaches (.info (ascii "noarch") (ascii "kes.rpm")) =
        some ((ClientRequest.info (ascii "noarch") (ascii "kes.rpm")).meant (ascii "kes")) ∧
      Site.sample.reaches (.info (ascii "noarch") (ascii "%41")) ≠
        some ((ClientRequest.info (ascii "noarch") (ascii "%41")).meant (ascii "kes")) := by
  have hnamed : ∀ file, IsSegment file → (ClientRequest.info (ascii "noarch") file).Named := by
    intro file hfile
    simp only [ClientRequest.Named, ClientRequest.elems, List.forall_mem_cons, hfile]
    decide
  refine ⟨((requests_agree_iff Site.sample).1 _ (hnamed _ (by decide))).mpr ⟨?_, ?_, trivial⟩, ?_⟩
  · unfold ClientRequest.elems
    decide +kernel
  · unfold ClientRequest.elems
    decide +kernel
  · intro hreaches
    have hsafe := ((requests_agree_iff Site.sample).1 _ (hnamed _ (by decide))).mp hreaches
    exact absurd (hsafe.bytes (ascii "%41") (by simp [ClientRequest.elems]) percent (by decide))
      (by decide)

end RepoManager
