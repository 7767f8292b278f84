import RepoManager.Handler.Handlers

/-!
# What the router hands to the handlers

A request reaches a handler only when its path is in clean form. Every template variable then
holds a path name: non-empty, without separator, and neither `.` nor `..`. In particular the
`filepath.Clean` of the handlers changes nothing.
-/

open LexicalPath

namespace RepoManager

/-- Every variable of a routed request is a path name. -/
theorem route_values {method path : ByteString} {found : Mux.Found Endpoint Middleware}
    (hclean : Mux.cleanPath path = path) (hfound : route method path = some found) :
    ∀ bound ∈ found.vars, IsSegment bound.2 := by
  intro bound hbound
  obtain ⟨helem, hne⟩ := Mux.dispatchFirst_values _ _ _ _ found hfound bound hbound
  exact Mux.cleanPath_elements hclean (List.mem_of_mem_tail helem) hne

/-- A routed request concerns the repository that is the first element of its path. -/
theorem repo_of_route {method path : ByteString} {found : Mux.Found Endpoint Middleware}
    (hfound : route method path = some found) :
    (components path).tail.head? = some (found.vars.get (ascii "repoName")) := by
  obtain ⟨kind, hkind, hmatch⟩ := Mux.dispatchFirst_templates _ _ _ _ found hfound
  have hnamed : ∀ endpoint, ∀ kind ∈ Mux.templatesAll endpoint [] configureRouter,
      kind.2.head? = some (.var (ascii "repoName")) := by
    intro endpoint
    cases endpoint <;> decide
  exact Mux.head?_of_matchTemplate (hnamed _ kind hkind) hmatch

/-- The handlers whose templates name a folder. -/
def Endpoint.NamesFolder (endpoint : Endpoint) : Prop :=
  endpoint ∈ [.handleFileUploading, .handleFiles, .handleFileDownloading, .handleFileInfo]

/-- The handlers whose templates name a file. -/
def Endpoint.NamesFile (endpoint : Endpoint) : Prop :=
  endpoint ∈ [.handleFileDownloading, .handleFileInfo]

instance : DecidablePred Endpoint.NamesFolder := fun endpoint =>
  inferInstanceAs (Decidable (endpoint ∈ _))

instance : DecidablePred Endpoint.NamesFile := fun endpoint =>
  inferInstanceAs (Decidable (endpoint ∈ _))

/-- The folder of a routed request is a path name. -/
theorem folder_of_route {method path : ByteString} {found : Mux.Found Endpoint Middleware}
    (hclean : Mux.cleanPath path = path) (hfound : route method path = some found)
    (hfolder : found.handler.NamesFolder) : ∃ folder : Segment, folderVar found.vars = folder.val := by
  have hnamed : ∀ endpoint, endpoint.NamesFolder →
      ∀ kind ∈ Mux.templatesAll endpoint [] configureRouter,
        kind.1 = false ∧ .var (ascii "folderId") ∈ kind.2 := by
    unfold Endpoint.NamesFolder
    decide
  have hmem := Mux.dispatchFirst_get_mem hfound (hnamed _ hfolder)
  exact ⟨⟨_, route_values hclean hfound _ hmem⟩, rfl⟩

/-- The file of a routed request is a path name. -/
theorem file_of_route {method path : ByteString} {found : Mux.Found Endpoint Middleware}
    (hclean : Mux.cleanPath path = path) (hfound : route method path = some found)
    (hfile : found.handler.NamesFile) : ∃ file : Segment, fileVar found.vars = file.val := by
  have hnamed : ∀ endpoint, endpoint.NamesFile →
      ∀ kind ∈ Mux.templatesAll endpoint [] configureRouter,
        kind.1 = false ∧ .var (ascii "fileId") ∈ kind.2 := by
    unfold Endpoint.NamesFile
    decide
  have hmem := Mux.dispatchFirst_get_mem hfound (hnamed _ hfile)
  exact ⟨⟨_, route_values hclean hfound _ hmem⟩, rfl⟩

end RepoManager
