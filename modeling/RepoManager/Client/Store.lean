import RepoManager.Client.Webclient

/-!
# The store of the client

The redux store of `www/src/components/redux`: its slices, their reducers and the actions. The
rows of the grid and the nodes of the tree are objects with an identity, and the code sets their
field `selected` in place. They are kept on a heap, and the slices hold references to them.

The payload of `GRID_DATA_LOAD`, of `GRID_INSERT_ROW` and of `TREE_GET_ROWS_ALL` is decoded from a
response just before, so its objects are new: the reducer finds them at the end of the heap. The
slice of the toasts is read by none of the others and modelled on its own.
-/

namespace RepoManager

/-- A reference to an object on the heap. -/
abbrev Ref := ℕ

/-- An object of the grid, a `TGridRow`. -/
structure GridRow where
  name : ByteString
  selected : Bool
  deriving DecidableEq

/-- A node of the tree, a `TNodeType`. -/
structure TreeNode where
  name : ByteString
  root : Bool
  children : List Ref
  selected : Bool
  deriving DecidableEq

/-- The objects that the client has created. -/
structure Heap where
  rows : List GridRow
  nodes : List TreeNode

/-- `TStateGridFiles`; `null` and `undefined` are both `none`. -/
structure GridState where
  row : Option Ref
  data : List Ref
  filter : Option ByteString
  deriving DecidableEq

/-- `TStateTree` -/
structure TreeState where
  row : Option Ref
  data : List Ref
  deriving DecidableEq

/-- The actions of the grid slice. -/
inductive GridAction where
  | dataLoad (payload : List GridRow)
  | insertRow (payload : GridRow)
  | refreshRows
  | selectRow (payload : Ref)
  | filteredRows (payload : ByteString)
  | selectRowClean

/-- The actions of the tree slice; the payload of the first one lists the nodes of the new tree
and the references to its top. -/
inductive TreeAction where
  | getRowsAll (payload : List TreeNode) (data : List Ref)
  | selectRow (payload : Option Ref)

/-- The actions of the slice of the whole view. -/
inductive TreeViewAction where
  | loadingOn
  | loadingOff

/-- A message for the user. -/
structure Toast where
  message : ByteString
  danger : Bool
  deriving DecidableEq

/-- An action of the store. -/
inductive Action where
  | grid (action : GridAction)
  | tree (action : TreeAction)
  | treeView (action : TreeViewAction)
  | toast (toast : Toast)

namespace Heap

/-- `delete state.row.selected`, when there is a row. -/
def unselectRow (heap : Heap) : Option Ref → Heap
  | none => heap
  | some row =>
    { heap with rows := heap.rows.modify row fun object => { object with selected := false } }

/-- `payload.selected = true` -/
def selectRow (heap : Heap) (row : Ref) : Heap :=
  { heap with rows := heap.rows.modify row fun object => { object with selected := true } }

/-- Put new objects on the heap. -/
def newRows (heap : Heap) (payload : List GridRow) : Heap :=
  { heap with rows := heap.rows ++ payload }

/-- The references of the objects that `newRows` adds. -/
def newRefs (heap : Heap) (payload : List GridRow) : List Ref :=
  List.range' heap.rows.length payload.length

/-- Set the field `selected` of a node. -/
def setSelected (heap : Heap) (node : Ref) (selected : Bool) : Heap :=
  { heap with nodes := heap.nodes.modify node fun object => { object with selected } }

/-- The name of a row. -/
def rowName (heap : Heap) (row : Ref) : Option ByteString :=
  (heap.rows[row]?).map GridRow.name

end Heap

/-- `gridReducer`. What the import `NormalModule` refers to is a parameter. -/
def gridReducer (normalModule : Option Ref) (heap : Heap) (state : GridState) :
    GridAction → Heap × GridState
  | .dataLoad payload =>
    let heap := heap.unselectRow state.row
    (heap.newRows payload, { state with row := none, data := heap.newRefs payload })
  | .selectRowClean => (heap.unselectRow state.row, { state with row := none })
  | .selectRow payload =>
    ((heap.unselectRow state.row).selectRow payload, { state with row := some payload })
  | .insertRow payload =>
    let heap := heap.unselectRow state.row
    (heap.newRows [payload], { state with data := state.data ++ heap.newRefs [payload] })
  | .refreshRows => (heap.unselectRow state.row, { state with row := normalModule })
  | .filteredRows payload => (heap, { state with filter := some payload })

/-- `treeReducer` -/
def treeReducer (heap : Heap) (state : TreeState) : TreeAction → Heap × TreeState
  | .getRowsAll payload data => ({ heap with nodes := heap.nodes ++ payload }, ⟨none, data⟩)
  | .selectRow payload => (heap, { state with row := payload })

/-- `treeViewReducer`, on its only field `loading`. -/
def treeViewReducer (_ : Bool) : TreeViewAction → Bool
  | .loadingOn => true
  | .loadingOff => false

/-- The objects and the state of the store. -/
structure Client where
  heap : Heap
  gridReduser : GridState
  treeReduser : TreeState
  loading : Bool

/-- `initialState` of the grid slice. -/
def GridState.initial : GridState := ⟨none, [], none⟩

/-- `initialState` of the tree slice. -/
def TreeState.initial : TreeState := ⟨none, []⟩

namespace Client

/-- The store before the first action. -/
def initial (heap : Heap) : Client := ⟨heap, .initial, .initial, false⟩

/-- Dispatch an action. -/
def dispatch (normalModule : Option Ref) (client : Client) : Action → Client
  | .grid action =>
    let (heap, gridReduser) := gridReducer normalModule client.heap client.gridReduser action
    { client with heap, gridReduser }
  | .tree action =>
    let (heap, treeReduser) := treeReducer client.heap client.treeReduser action
    { client with heap, treeReduser }
  | .treeView action => { client with loading := treeViewReducer client.loading action }
  | .toast _ => client

/-- Dispatch actions in turn. -/
def dispatchAll (normalModule : Option Ref) (client : Client) (actions : List Action) : Client :=
  actions.foldl (dispatch normalModule) client

/-- The names of the rows in `gridReduser.data`. -/
def names (client : Client) : List ByteString :=
  client.gridReduser.data.filterMap client.heap.rowName

end Client

/-! ## Names do not change -/

namespace Heap

variable (heap : Heap)

/-- Setting the field `selected` of an object keeps its name. -/
theorem rowName_modify (row other : Ref) (selected : Bool) :
    ((heap.rows.modify row fun object => { object with selected })[other]?).map GridRow.name =
      (heap.rows[other]?).map GridRow.name := by
  rw [List.getElem?_modify]
  cases heap.rows[other]? <;> split <;> rfl

@[simp] theorem rowName_unselectRow (row : Option Ref) (other : Ref) :
    (heap.unselectRow row).rowName other = heap.rowName other := by
  cases row with
  | none => rfl
  | some row => exact heap.rowName_modify row other false

@[simp] theorem nodes_unselectRow (row : Option Ref) :
    (heap.unselectRow row).nodes = heap.nodes := by
  cases row <;> rfl

@[simp] theorem rowName_selectRow (row other : Ref) :
    (heap.selectRow row).rowName other = heap.rowName other :=
  heap.rowName_modify row other true

/-- New objects leave the names of the old ones. -/
theorem rowName_newRows {row : Ref} (payload : List GridRow) {name : ByteString}
    (h : heap.rowName row = some name) : (heap.newRows payload).rowName row = some name := by
  obtain ⟨object, hobject, hname⟩ := Option.map_eq_some_iff.mp h
  have hlength := (List.getElem?_eq_some_iff.mp hobject).1
  rw [rowName, newRows, List.getElem?_append_left hlength, hobject, Option.map_some, hname]

@[simp] theorem length_unselectRow (row : Option Ref) :
    (heap.unselectRow row).rows.length = heap.rows.length := by
  cases row with
  | none => rfl
  | some row => exact List.length_modify ..

/-- The names of new objects. -/
theorem rowName_newRefs (payload : List GridRow) :
    (heap.newRefs payload).map (heap.newRows payload).rowName =
      payload.map fun object => some object.name := by
  apply List.ext_getElem
  · simp [newRefs]
  · intro index hleft hright
    simp only [List.length_map] at hright
    simp [newRefs, rowName, newRows, hright]

end Heap

end RepoManager
