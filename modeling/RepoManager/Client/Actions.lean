import RepoManager.Client.Store

/-!
# The action creators of the client

`www/src/components/redux/actions`. A thunk dispatches some actions, sends its request, and
dispatches more once the request has settled. The callbacks of one request run without anything
in between, so that each outcome has one list of actions, in the order of the callbacks.
-/

namespace RepoManager

/-- An action creator with a request. -/
structure Thunk (Reply : Type) where
  before : List Action
  request : ClientRequest
  fulfilled : Reply → List Action
  rejected : ByteString → List Action

/-- What is dispatched when the request has settled; a failure comes with the text for the user. -/
def Thunk.settle {Reply : Type} (thunk : Thunk Reply) : Except ByteString Reply → List Action
  | .ok reply => thunk.fulfilled reply
  | .error message => thunk.rejected message

/-- `actionLoadingOn` -/
def actionLoadingOn : Action := .treeView .loadingOn

/-- `actionLoadingOff` -/
def actionLoadingOff : Action := .treeView .loadingOff

/-- `addToast` -/
def addToast (message : ByteString) : Action := .toast ⟨message, false⟩

/-- `addToastError`, given the text it finds in the error. -/
def addToastError (message : ByteString) : Action := .toast ⟨message, true⟩

/-- A row as it is decoded. -/
def freshRow (name : ByteString) : GridRow := ⟨name, false⟩

/-- Decoded rows are the last ones on the heap, under their names. -/
theorem rowName_freshRow (heap : Heap) {names : List ByteString} {index : ℕ} {name : ByteString}
    (h : names[index]? = some name) : (heap.newRows (names.map freshRow)).rowName
      ((heap.newRows (names.map freshRow)).rows.length - names.length + index) = some name := by
  have hrow : (heap.newRows (names.map freshRow)).rows.length - names.length + index =
      heap.rows.length + index := by
    rw [Heap.newRows, List.length_append, List.length_map, Nat.add_sub_cancel]
  rw [hrow, Heap.rowName, Heap.newRows, List.getElem?_append_right (Nat.le_add_right _ _),
    Nat.add_sub_cancel_left, List.getElem?_map, h]
  rfl

/-- `actionDataLoad` -/
def actionDataLoad (folder : ByteString) : Thunk (List ByteString) where
  before := [actionLoadingOn]
  request := .files folder
  fulfilled names := [actionLoadingOff, .grid (.dataLoad (names.map freshRow))]
  rejected message := [actionLoadingOff, addToastError message]

/-- `actionSelectRow` -/
def actionSelectRow (row : Ref) : Action := .grid (.selectRow row)

/-- `actionClearSelect` -/
def actionClearSelect : Action := .grid .selectRowClean

/-- `actionFilteredRows` -/
def actionFilteredRows (filter : ByteString) : Action := .grid (.filteredRows filter)

/-- `actionUploadingFile` with a file. -/
def uploadThunk (folder file : ByteString) : Thunk ByteString where
  before := [actionLoadingOn]
  request := .upload folder file
  fulfilled name :=
    [.grid (.insertRow (freshRow name)), .grid .refreshRows,
      addToast (ascii "Success file uploading: " ++ file), actionLoadingOff]
  rejected message := [actionLoadingOff, addToastError message]

/-- `actionUploadingFile`, the file by its name; without a file it only dispatches. -/
def actionUploadingFile (folder : ByteString) (file : Option ByteString) :
    List Action ⊕ Thunk ByteString :=
  match file with
  | none => .inl [.grid .refreshRows]
  | some file => .inr (uploadThunk folder file)

/-- `actionDownloadingFile` with both names. -/
def downloadThunk (folder filename : ByteString) : Thunk Unit where
  before := [actionLoadingOn]
  request := .download folder filename
  fulfilled _ := [addToast (ascii "Success file downloading: " ++ filename), actionLoadingOff]
  rejected message := [actionLoadingOff, addToastError message]

/-- `actionDownloadingFile`; an empty name only dispatches. -/
def actionDownloadingFile (folder filename : ByteString) : List Action ⊕ Thunk Unit :=
  if folder = [] ∨ filename = [] then .inl [.grid .refreshRows]
  else .inr (downloadThunk folder filename)

/-- `actionRepoReindexes`; the reply is shown. -/
def actionRepoReindexes : Thunk ByteString where
  before := [actionLoadingOn]
  request := .reindex
  fulfilled data := [addToast data, actionLoadingOff]
  rejected message := [actionLoadingOff, addToastError message]

/-- `actionFoldersLoad`; the reply is the nodes of the tree and the references to its top. -/
def actionFoldersLoad : Thunk (List TreeNode × List Ref) where
  before := [actionLoadingOn]
  request := .folders
  fulfilled reply :=
    [actionLoadingOff, .tree (.selectRow none), .tree (.getRowsAll reply.1 reply.2)]
  rejected message := [actionLoadingOff, .tree (.selectRow none), addToastError message]

/-- `actionSelectFolder` -/
def actionSelectFolder (node : Ref) : Action := .tree (.selectRow (some node))

end RepoManager
