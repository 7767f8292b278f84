import RepoManager.Handler.Segments

/-!
# The routing table

`configureRouter` nests subrouters, and a request tries their routes one after another. Prefixes
match only the start of an element, methods may not fit, and an earlier literal may take what a
later variable would match. What comes out is a flat table: the elements of a path below the
repository and the method decide the handler, and whatever is not in the table is left to the file
server.

One route takes something away from another: a request to the folder `reindex` with the method
`POST` runs the index command.
-/

open LexicalPath

namespace RepoManager

/-- The middlewares of every route. -/
def unguarded : List Middleware := [.setRequestID, .logRequest, .setRequestChekRepo]

/-- What is found for the elements of a path below a repository. -/
def foundAt (method repo : ByteString) (elems : List ByteString) :
    Mux.Found Endpoint Middleware :=
  let plain := fun handler vars =>
    Mux.Found.mk handler unguarded ((ascii "repoName", repo) :: vars)
  let guarded := fun handler vars =>
    Mux.Found.mk handler (unguarded ++ [.authenticate]) ((ascii "repoName", repo) :: vars)
  match elems with
  | [last] =>
    if last = ascii "sign-in" ∧ method = ascii "POST" then plain .signIn []
    else if last = ascii "folders" then plain .handleFolders []
    else if last = [] then plain .handleIndex []
    else plain .fileServer []
  | [files, folder] =>
    if files ≠ ascii "files" ∨ folder = [] then plain .fileServer []
    else if method ≠ ascii "POST" then plain .handleFiles [(ascii "folderId", folder)]
    else if folder = ascii "reindex" then guarded .handleFileReindexes []
    else guarded .handleFileUploading [(ascii "folderId", folder)]
  | [files, folder, file] =>
    if files ≠ ascii "files" ∨ folder = [] ∨ file = [] then plain .fileServer []
    else plain .handleFileDownloading [(ascii "folderId", folder), (ascii "fileId", file)]
  | [files, folder, file, info] =>
    if files ≠ ascii "files" ∨ folder = [] ∨ file = [] ∨ info ≠ ascii "info" then
      plain .fileServer []
    else plain .handleFileInfo [(ascii "folderId", folder), (ascii "fileId", file)]
  | _ => plain .fileServer []

/-- The table: a path needs a repository and one more element, which may be empty. -/
def routingTable (method path : ByteString) : Option (Mux.Found Endpoint Middleware) :=
  match (components path).tail with
  | repo :: first :: rest => if repo = [] then none else some (foundAt method repo (first :: rest))
  | _ => none

/-- The routes without their subrouters. -/
theorem flattenAll_configureRouter : Mux.flattenAll [] [] configureRouter =
    let repo := Mux.Pattern.var (ascii "repoName")
    let files := Mux.Pattern.literal (ascii "files")
    let folder := Mux.Pattern.var (ascii "folderId")
    let file := Mux.Pattern.var (ascii "fileId")
    [⟨[ascii "POST"], (false, [repo, .literal (ascii "sign-in")]), unguarded, .signIn⟩,
      ⟨[], (false, [repo, .literal (ascii "folders")]), unguarded, .handleFolders⟩,
      ⟨[ascii "POST"], (false, [repo, files, .literal (ascii "reindex")]),
        unguarded ++ [.authenticate], .handleFileReindexes⟩,
      ⟨[ascii "POST"], (false, [repo, files, folder]), unguarded ++ [.authenticate],
        .handleFileUploading⟩,
      ⟨[], (false, [repo, files, folder]), unguarded, .handleFiles⟩,
      ⟨[], (false, [repo, files, folder, file]), unguarded, .handleFileDownloading⟩,
      ⟨[], (false, [repo, files, folder, file, .literal (ascii "info")]), unguarded,
        .handleFileInfo⟩,
      ⟨[], (false, [repo, .literal []]), unguarded, .handleIndex⟩,
      ⟨[], (true, [repo, .literal []]), unguarded, .fileServer⟩] := rfl

/-- The router finds what these routes find. -/
theorem route_eq_findSome? (method path : ByteString) : route method path =
    (Mux.flattenAll [] [] configureRouter).findSome?
      (Mux.Flat.dispatch method (components path).tail) := by
  rw [← Mux.dispatchFirst_eq_flatten, route]
  exact Option.map_id.symm ▸ rfl

section Shapes

variable {method repo first : ByteString} {rest : List ByteString}

/-- Without a repository, or with nothing below it, no route matches. -/
theorem dispatch_none {elems : List ByteString} (h : ∀ repo first rest, elems = repo :: first :: rest →
    repo = []) : (Mux.flattenAll [] [] configureRouter).findSome? (Mux.Flat.dispatch method elems) =
      none := by
  rw [flattenAll_configureRouter]
  simp only [Mux.findSome?_dispatch_cons, List.findSome?_nil]
  match elems with
  | [] => simp [Mux.matchTemplate, Mux.matchPrefix]
  | [repo] => by_cases hrepo : repo = [] <;>
      simp [Mux.matchTemplate, Mux.matchPrefix, Mux.Pattern.matchElem, hrepo]
  | repo :: first :: rest =>
    obtain rfl := h repo first rest rfl
    simp [Mux.matchTemplate, Mux.matchPrefix, Mux.Pattern.matchElem]

/-- The last route takes every path below a repository. -/
theorem dispatch_fileServer (hrepo : repo ≠ []) :
    Mux.Flat.dispatch method (repo :: first :: rest)
        ⟨[], (true, [.var (ascii "repoName"), .literal []]), unguarded, Endpoint.fileServer⟩ =
      some ⟨.fileServer, unguarded, [(ascii "repoName", repo)]⟩ := by
  simp [Mux.matchTemplate, Mux.matchPrefix, Mux.Pattern.matchElem, Mux.Pattern.matchStart, hrepo]

/-- Below a repository the first route that matches is the one of the table. -/
theorem dispatch_table (hrepo : repo ≠ []) :
    (Mux.flattenAll [] [] configureRouter).findSome?
        (Mux.Flat.dispatch method (repo :: first :: rest)) =
      some (foundAt method repo (first :: rest)) := by
  have hfolders : ascii "folders" ≠ ascii "sign-in" := by decide
  have hsignInNil : ascii "sign-in" ≠ [] := by decide
  have hfoldersNil : ascii "folders" ≠ [] := by decide
  have hreindexNil : ascii "reindex" ≠ [] := by decide
  rw [flattenAll_configureRouter]
  simp only [Mux.findSome?_dispatch_cons, List.findSome?_nil, dispatch_fileServer hrepo]
  match rest with
  | [] =>
    by_cases hsignIn : ascii "sign-in" = first
    · subst hsignIn
      by_cases hpost : method = ascii "POST" <;>
        simp [Mux.matchTemplate, foundAt, hrepo, hpost, hfolders, hfolders.symm, hsignInNil]
    by_cases hfirst : ascii "folders" = first
    · subst hfirst
      simp [Mux.matchTemplate, foundAt, hrepo, hfolders, hfolders.symm]
    by_cases hempty : first = [] <;>
      simp [Mux.matchTemplate, foundAt, hrepo, hsignIn, Ne.symm hsignIn, hfirst, Ne.symm hfirst,
        hempty, hsignInNil, hfoldersNil]
  | [second] =>
    by_cases hfiles : ascii "files" = first
    swap
    · simp [Mux.matchTemplate, foundAt, hrepo, hfiles, Ne.symm hfiles]
    subst hfiles
    by_cases hsecond : second = []
    · simp [Mux.matchTemplate, foundAt, hrepo, hsecond, hreindexNil]
    by_cases hpost : method = ascii "POST"
    · -- the literal comes before the variable
      by_cases hreindex : ascii "reindex" = second
      · subst hreindex
        simp [Mux.matchTemplate, foundAt, hrepo, hpost, hreindexNil]
      · simp [Mux.matchTemplate, foundAt, hrepo, hsecond, hpost, hreindex, Ne.symm hreindex]
    · simp [Mux.matchTemplate, foundAt, hrepo, hsecond, hpost]
  | [second, third] =>
    by_cases hfiles : ascii "files" = first
    · subst hfiles
      by_cases hsecond : second = [] <;> by_cases hthird : third = [] <;>
        simp [Mux.matchTemplate, foundAt, hrepo, hsecond, hthird]
    · simp [Mux.matchTemplate, foundAt, hrepo, hfiles, Ne.symm hfiles]
  | [second, third, fourth] =>
    by_cases hfiles : ascii "files" = first
    · subst hfiles
      by_cases hinfo : ascii "info" = fourth
      · subst hinfo
        by_cases hsecond : second = [] <;> by_cases hthird : third = [] <;>
          simp [Mux.matchTemplate, foundAt, hrepo, hsecond, hthird]
      · simp [Mux.matchTemplate, foundAt, hrepo, hinfo, Ne.symm hinfo]
    · simp [Mux.matchTemplate, foundAt, hrepo, hfiles, Ne.symm hfiles]
  | second :: third :: fourth :: fifth :: rest => simp [Mux.matchTemplate, foundAt, hrepo]

end Shapes

/-- The router computes the table. -/
theorem route_eq_routingTable (method path : ByteString) :
    route method path = routingTable method path := by
  rw [route_eq_findSome?, routingTable]
  generalize (components path).tail = elems
  split
  · next repo first rest =>
    split
    · next hrepo =>
      refine dispatch_none fun _ _ _ heq => ?_
      exact (List.cons.inj heq).1 ▸ hrepo
    · next hrepo => exact dispatch_table hrepo
  · next hshort => exact dispatch_none fun repo first rest heq => absurd heq (hshort repo first rest)

/-! ## The entries of the table -/

/-- The entries of the table: elements of the path, handler and variables. -/
inductive Tabled (method repo : ByteString) :
    List ByteString → Endpoint → Mux.Vars → Prop
  | signIn (hpost : method = ascii "POST") :
    Tabled method repo [ascii "sign-in"] .signIn [(ascii "repoName", repo)]
  | folders : Tabled method repo [ascii "folders"] .handleFolders [(ascii "repoName", repo)]
  | index : Tabled method repo [[]] .handleIndex [(ascii "repoName", repo)]
  | files (folder : ByteString) (hget : method ≠ ascii "POST") :
    Tabled method repo [ascii "files", folder] .handleFiles
      [(ascii "repoName", repo), (ascii "folderId", folder)]
  | reindex (hpost : method = ascii "POST") :
    Tabled method repo [ascii "files", ascii "reindex"] .handleFileReindexes
      [(ascii "repoName", repo)]
  | upload (folder : ByteString) (hpost : method = ascii "POST")
    (hfolder : folder ≠ ascii "reindex") :
    Tabled method repo [ascii "files", folder] .handleFileUploading
      [(ascii "repoName", repo), (ascii "folderId", folder)]
  | download (folder file : ByteString) :
    Tabled method repo [ascii "files", folder, file] .handleFileDownloading
      [(ascii "repoName", repo), (ascii "folderId", folder), (ascii "fileId", file)]
  | info (folder file : ByteString) :
    Tabled method repo [ascii "files", folder, file, ascii "info"] .handleFileInfo
      [(ascii "repoName", repo), (ascii "folderId", folder), (ascii "fileId", file)]
  | fileServer (elems : List ByteString) :
    Tabled method repo elems .fileServer [(ascii "repoName", repo)]

/-- What is found is in the table. -/
theorem tabled_foundAt (method repo : ByteString) (elems : List ByteString) :
    Tabled method repo elems (foundAt method repo elems).handler
      (foundAt method repo elems).vars := by
  unfold foundAt
  split
  · split
    · next h =>
      rw [h.1]
      exact .signIn h.2
    split
    · next h =>
      rw [h]
      exact .folders
    split
    · next h =>
      rw [h]
      exact .index
    · exact .fileServer _
  · split
    · exact .fileServer _
    next h =>
    rw [not_or, not_not] at h
    rw [h.1]
    split
    · next hget => exact .files _ hget
    next hpost =>
    rw [not_not] at hpost
    split
    · next hfolder =>
      rw [hfolder]
      exact .reindex hpost
    · next hfolder => exact .upload _ hpost hfolder
  · split
    · exact .fileServer _
    next h =>
    simp only [not_or, not_not] at h
    rw [h.1]
    exact .download _ _
  · split
    · exact .fileServer _
    next h =>
    simp only [not_or, not_not] at h
    rw [h.1, h.2.2.2]
    exact .info _ _
  · exact .fileServer _

end RepoManager
