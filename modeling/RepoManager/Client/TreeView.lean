import RepoManager.Client.Actions

/-!
# The controls of the client

The event handlers of `TreeView.tsx`, `Tree.tsx` and `Grid.tsx`, with the conditions under which
their controls are enabled, and the props of the details panel. The handlers read two slices of
the store that change independently: the selected node of the tree and the selected row of the
grid.
-/

namespace RepoManager

/-- What the code refers to outside of the repository: the import `NormalModule` of the reducer,
which is no row of any response, and the case mapping of strings. -/
structure Bundle where
  normalModule : Option Ref
  toLowerCase : ByteString → ByteString

namespace Client

/-- `selectedNodeTree` -/
def selectedNode (client : Client) : Option TreeNode :=
  client.treeReduser.row.bind fun node => client.heap.nodes[node]?

/-- `selectedNodeTree?.name` -/
def folderId (client : Client) : Option ByteString := client.selectedNode.map TreeNode.name

/-- `selectedRowGrid?.name` -/
def fileId (client : Client) : Option ByteString := client.gridReduser.row.bind client.heap.rowName

/-- Search, upload and Refresh are disabled without a node and on the root. -/
def folderEnabled (client : Client) : Bool :=
  match client.selectedNode with
  | some node => !node.root
  | none => false

/-- `filteredItems` of the grid: the rows on display. -/
def filteredItems (bundle : Bundle) (client : Client) : List Ref :=
  client.gridReduser.data.filter fun row =>
    match client.gridReduser.filter, client.heap.rowName row with
    | some filter, some name =>
      filter = [] ∨ bundle.toLowerCase filter <:+: bundle.toLowerCase name
    | _, _ => true

/-- `onSelectNodeTree`, with the folder of the load it starts: a node without children loads its
files. -/
def onSelectNodeTree (bundle : Bundle) (client : Client) (node : TreeNode) :
    Client × Option ByteString :=
  let load := if node.children.length ≤ 0 then some node.name else none
  let before := (load.map fun folder => (actionDataLoad folder).before).getD []
  (client.dispatchAll bundle.normalModule
    (before ++ [actionClearSelect, actionFilteredRows []]), load)

/-- The first part of `onSelecRow`: mark the node, and remove the mark of the current one. -/
def markNode (client : Client) (node : Ref) : Heap :=
  let heap := client.heap.setSelected node true
  match client.treeReduser.row with
  | some row => heap.setSelected row false
  | none => heap

/-- `onSelecRow`: a click on a node that is not marked as selected. -/
def onSelecRow (bundle : Bundle) (client : Client) (node : Ref) : Client × Option ByteString :=
  match client.heap.nodes[node]? with
  | none => (client, none)
  | some object =>
    if object.selected then (client, none)
    else
      let marked := { client with heap := client.markNode node }
      let (client, load) := marked.onSelectNodeTree bundle object
      (client.dispatch bundle.normalModule (actionSelectFolder node), load)

/-- `onSelectNodeTree` leaves no row selected and keeps the names of the rows. -/
theorem onSelectNodeTree_eq (bundle : Bundle) (client : Client) (node : TreeNode) :
    (client.onSelectNodeTree bundle node).1.gridReduser =
        { client.gridReduser with row := none, filter := some [] } ∧
      (client.onSelectNodeTree bundle node).1.heap =
        client.heap.unselectRow client.gridReduser.row := by
  unfold onSelectNodeTree
  split <;> exact ⟨rfl, rfl⟩

/-- What a click on a node can do: nothing, or select it; then no row is selected any more. -/
theorem onSelecRow_cases (bundle : Bundle) (client : Client) (node : Ref) :
    client.onSelecRow bundle node = (client, none) ∨
      ∃ after load, client.onSelecRow bundle node = (after, load) ∧
        after.gridReduser = { client.gridReduser with row := none, filter := some [] } ∧
        after.heap.rowName = client.heap.rowName := by
  have hmarked : (client.markNode node).rowName = client.heap.rowName := by
    unfold markNode
    cases client.treeReduser.row <;> rfl
  unfold onSelecRow
  split
  · exact .inl rfl
  next object hobject =>
  split
  · exact .inl rfl
  obtain ⟨hgrid, hheap⟩ :=
    onSelectNodeTree_eq bundle { client with heap := client.markNode node } object
  refine .inr ⟨_, _, rfl, hgrid, ?_⟩
  funext row
  change Heap.rowName (Client.onSelectNodeTree bundle _ object).1.heap row = _
  rw [hheap, Heap.rowName_unselectRow, hmarked]

/-- A repository with two folders, of which nothing is selected yet. -/
def sample : Client where
  heap :=
    { rows := []
      nodes :=
        [⟨ascii "kes", true, [1, 2], false⟩, ⟨ascii "noarch", false, [], false⟩,
          ⟨ascii "x86_64", false, [], false⟩] }
  gridReduser := ⟨none, [], none⟩
  treeReduser := ⟨none, [0]⟩
  loading := false

end Client

end RepoManager
