import RepoManager.Client.TreeView
import RepoManager.Library.Transition

/-!
# The selected node of the tree

The tree is loaded on every mount, and a load ends at any later moment. Both outcomes first set
the row of the slice to `null`; only a success brings new nodes. After a failure the old nodes stay
on display, and the one that was selected keeps its flag: it is highlighted, and a click on it does
nothing.

`tree_throughout_iff` says for every run of mounts, outcomes and clicks when flag and row agree in
all states, so that a click selects any other node.
-/

namespace RepoManager

namespace Heap

/-- The flag `selected` of a node. -/
def nodeSelected (heap : Heap) (node : Ref) : Bool := (heap.nodes[node]?).any TreeNode.selected

/-- The node that a list of child numbers leads to, from the top of a tree. -/
def nodeAt (heap : Heap) : List Ref → List ℕ → Option Ref
  | _, [] => none
  | refs, [index] => refs[index]?
  | refs, index :: next :: rest => do
    let node ← refs[index]?
    let object ← heap.nodes[node]?
    heap.nodeAt object.children (next :: rest)

end Heap

namespace TreeSelection

/-- The client, and which of its loads have completed. -/
structure State where
  client : Client
  loads : List Bool

/-- The tree is mounted, a load ends, or a node of the displayed tree is clicked. -/
inductive Label where
  | mount
  | succeed (load : ℕ) (nodes : List TreeNode) (top : List Ref)
  | fail (load : ℕ) (message : ByteString)
  | click (way : List ℕ)

/-- A reference to one of the objects that are added at the end of the heap. -/
def Added (heap : Heap) (nodes : List TreeNode) (node : Ref) : Prop :=
  heap.nodes.length ≤ node ∧ node < heap.nodes.length + nodes.length

instance (heap : Heap) (nodes : List TreeNode) (node : Ref) : Decidable (Added heap nodes node) :=
  inferInstanceAs (Decidable (_ ∧ _))

/-- A tree as it is decoded: all its objects are new, and none of them is selected. -/
def Decoded (heap : Heap) (nodes : List TreeNode) (top : List Ref) : Prop :=
  (∀ node ∈ top, Added heap nodes node) ∧
    ∀ object ∈ nodes, object.selected = false ∧ ∀ child ∈ object.children, Added heap nodes child

instance (heap : Heap) (nodes : List TreeNode) (top : List Ref) :
    Decidable (Decoded heap nodes top) :=
  inferInstanceAs (Decidable (_ ∧ _))

/-- One step of the client. -/
def step (bundle : Bundle) (state : State) : Label → Option State
  | .mount =>
    some
      { client := state.client.dispatchAll bundle.normalModule actionFoldersLoad.before
        loads := state.loads ++ [false] }
  | .succeed load nodes top =>
    if state.loads[load]? = some false ∧ Decoded state.client.heap nodes top then
      let actions := actionFoldersLoad.settle (.ok (nodes, top))
      some
        { client := state.client.dispatchAll bundle.normalModule actions
          loads := state.loads.set load true }
    else none
  | .fail load message =>
    if state.loads[load]? = some false then
      let actions := actionFoldersLoad.settle (.error message)
      some
        { client := state.client.dispatchAll bundle.normalModule actions
          loads := state.loads.set load true }
    else none
  | .click way =>
    (state.client.heap.nodeAt state.client.treeReduser.data way).map fun node =>
      { state with client := (state.client.onSelecRow bundle node).1 }

/-- The tree as a machine. -/
def machine (bundle : Bundle) : Machine State Label := ⟨step bundle⟩

/-- A node of the displayed tree. -/
def Displayed (client : Client) (node : Ref) : Prop :=
  ∃ way, client.heap.nodeAt client.treeReduser.data way = some node

/-- A click selects the node: its flag is set, `onSelect` is called with it, and it is the row. -/
def Selects (bundle : Bundle) (client : Client) (node : Ref) : Prop :=
  ∃ object, client.heap.nodes[node]? = some object ∧
    (client.onSelecRow bundle node).2 =
      (({ client with heap := client.markNode node } : Client).onSelectNodeTree bundle object).2 ∧
    (client.onSelecRow bundle node).1 =
      (({ client with heap := client.markNode node } : Client).onSelectNodeTree bundle
        object).1.dispatch bundle.normalModule (actionSelectFolder node) ∧
    (client.onSelecRow bundle node).1.treeReduser.row = some node ∧
    (client.onSelecRow bundle node).1.heap.nodeSelected node = true

/-- The flags of the displayed nodes follow the row, so that at most one is highlighted, and a
click on any other node than the row selects it. -/
structure Agrees (bundle : Bundle) (state : State) : Prop where
  selected_iff : ∀ node, Displayed state.client node →
    (state.client.heap.nodeSelected node = true ↔ state.client.treeReduser.row = some node)
  unique : ∀ left right, Displayed state.client left → Displayed state.client right →
    state.client.heap.nodeSelected left = true → state.client.heap.nodeSelected right = true →
      left = right
  click : ∀ node, Displayed state.client node → state.client.treeReduser.row ≠ some node →
    Selects bundle state.client node

/-- The steps that keep flags and row in step: no load fails while a node is selected. -/
def Careful (state : State) : Label → Prop
  | .fail _ _ => state.client.treeReduser.row = none
  | .mount | .succeed _ _ _ | .click _ => True

/-! ## Nodes and flags -/

section Nodes

variable {heap other : Heap}

/-- Only the children of the objects matter to the tree that is displayed. -/
theorem nodeAt_congr (h : ∀ node : Ref, (other.nodes[node]?).map TreeNode.children =
    (heap.nodes[node]?).map TreeNode.children) (refs : List Ref) (way : List ℕ) :
    other.nodeAt refs way = heap.nodeAt refs way := by
  fun_induction Heap.nodeAt heap refs way with
  | case1 => rfl
  | case2 => rfl
  | case3 refs index next rest ih =>
    change (refs[index]?).bind (fun node => (other.nodes[node]?).bind fun object =>
      other.nodeAt object.children (next :: rest)) = (refs[index]?).bind fun node =>
        (heap.nodes[node]?).bind fun object => heap.nodeAt object.children (next :: rest)
    congr 1
    funext node
    have hnode := h node
    cases hheld : heap.nodes[node]? with
    | none =>
      rw [hheld, Option.map_none, Option.map_eq_none_iff] at hnode
      rw [hnode]
      rfl
    | some object =>
      rw [hheld, Option.map_some, Option.map_eq_some_iff] at hnode
      obtain ⟨object', hobject', hchildren⟩ := hnode
      rw [hobject', Option.bind_some, Option.bind_some, hchildren, ih object]

/-- What holds of the top and is inherited by children holds of every node of the tree. -/
theorem nodeAt_induction {P : Ref → Prop} {refs : List Ref} {way : List ℕ} {node : Ref}
    (hnode : heap.nodeAt refs way = some node) (htop : ∀ node ∈ refs, P node)
    (hchildren : ∀ node object, P node → heap.nodes[node]? = some object →
      ∀ child ∈ object.children, P child) : P node := by
  fun_induction Heap.nodeAt heap refs way with
  | case1 => exact nomatch hnode
  | case2 refs index => exact htop node (List.mem_of_getElem? hnode)
  | case3 refs index next rest ih =>
    obtain ⟨parent, hparent, hnode⟩ := Option.bind_eq_some_iff.mp hnode
    obtain ⟨object, hobject, hnode⟩ := Option.bind_eq_some_iff.mp hnode
    exact ih object hnode
      (hchildren parent object (htop parent (List.mem_of_getElem? hparent)) hobject)

variable (heap)

/-- Setting a flag keeps the children. -/
theorem children_setSelected (node : Ref) (selected : Bool) (held : Ref) :
    ((heap.setSelected node selected).nodes[held]?).map TreeNode.children =
      (heap.nodes[held]?).map TreeNode.children := by
  rw [Heap.setSelected, List.getElem?_modify]
  cases heap.nodes[held]? with
  | none => rfl
  | some object => by_cases heq : node = held <;> simp only [heq, if_true, if_false] <;> rfl

/-- A flag after one of them was set. -/
theorem nodeSelected_setSelected {node : Ref} (hnode : node < heap.nodes.length) (selected : Bool)
    (held : Ref) : (heap.setSelected node selected).nodeSelected held =
      if node = held then selected else heap.nodeSelected held := by
  simp only [Heap.setSelected, Heap.nodeSelected, List.getElem?_modify]
  by_cases heq : node = held
  · obtain rfl := heq
    simp only [if_pos]
    rw [List.getElem?_eq_getElem hnode]
    rfl
  · simp only [if_neg heq]
    cases heap.nodes[held]? <;> rfl

/-- Setting a flag adds no object. -/
theorem length_setSelected (node : Ref) (selected : Bool) :
    (heap.setSelected node selected).nodes.length = heap.nodes.length := List.length_modify ..

end Nodes

section Click

variable (bundle : Bundle) (client : Client)

/-- Marking a node keeps the children of all nodes. -/
theorem children_markNode (node held : Ref) :
    ((client.markNode node).nodes[held]?).map TreeNode.children =
      (client.heap.nodes[held]?).map TreeNode.children := by
  rw [Client.markNode]
  cases client.treeReduser.row with
  | none => exact children_setSelected ..
  | some row => exact (children_setSelected ..).trans (children_setSelected ..)

/-- Marking a node adds no object. -/
theorem length_markNode (node : Ref) :
    (client.markNode node).nodes.length = client.heap.nodes.length := by
  rw [Client.markNode]
  cases client.treeReduser.row with
  | none => exact length_setSelected ..
  | some row => exact (length_setSelected ..).trans (length_setSelected ..)

/-- The flags after a node was marked: it is set there and removed from the row. -/
theorem nodeSelected_markNode {node : Ref} (hnode : node < client.heap.nodes.length)
    (hrow : ∀ row, client.treeReduser.row = some row → row < client.heap.nodes.length)
    (held : Ref) : (client.markNode node).nodeSelected held =
      if client.treeReduser.row = some held then false
      else if node = held then true else client.heap.nodeSelected held := by
  rw [Client.markNode]
  cases hsome : client.treeReduser.row with
  | none => exact nodeSelected_setSelected _ hnode true held
  | some row =>
    have hlt : row < (client.heap.setSelected node true).nodes.length := by
      rw [length_setSelected]
      exact hrow row hsome
    simp only [Option.some.injEq]
    rw [nodeSelected_setSelected _ hlt, nodeSelected_setSelected _ hnode]

/-- `onSelect` of the tree view touches neither the nodes nor the tree slice. -/
theorem tree_onSelectNodeTree (object : TreeNode) :
    (client.onSelectNodeTree bundle object).1.treeReduser = client.treeReduser ∧
      (client.onSelectNodeTree bundle object).1.heap.nodes = client.heap.nodes := by
  refine ⟨?_, ?_⟩
  · unfold Client.onSelectNodeTree
    split <;> rfl
  · rw [(client.onSelectNodeTree_eq bundle object).2, Heap.nodes_unselectRow]

/-- A click on a node without the flag marks it, calls `onSelect` and makes it the row. -/
theorem onSelecRow_of_unselected {node : Ref} {object : TreeNode}
    (hobject : client.heap.nodes[node]? = some object) (hflag : object.selected = false) :
    client.onSelecRow bundle node =
      let marked := { client with heap := client.markNode node }
      ((marked.onSelectNodeTree bundle object).1.dispatch bundle.normalModule
        (actionSelectFolder node), (marked.onSelectNodeTree bundle object).2) := by
  rw [Client.onSelecRow, hobject]
  simp only [hflag]
  rfl

/-- What such a click leaves of the tree. -/
theorem tree_onSelecRow {node : Ref} {object : TreeNode}
    (hobject : client.heap.nodes[node]? = some object) (hflag : object.selected = false) :
    (client.onSelecRow bundle node).1.treeReduser = ⟨some node, client.treeReduser.data⟩ ∧
      (client.onSelecRow bundle node).1.heap.nodes = (client.markNode node).nodes := by
  obtain ⟨hslice, hnodes⟩ :=
    tree_onSelectNodeTree bundle { client with heap := client.markNode node } object
  rw [onSelecRow_of_unselected bundle client hobject hflag]
  refine ⟨?_, hnodes⟩
  exact congrArg (fun slice => TreeState.mk (some node) slice.data) hslice

end Click

/-! ## Runs -/

/-- What every step keeps: references are on the heap, and the row is a displayed node. -/
structure Inv (state : State) : Prop where
  top_lt : ∀ node ∈ state.client.treeReduser.data, node < state.client.heap.nodes.length
  child_lt : ∀ object ∈ state.client.heap.nodes, ∀ child ∈ object.children,
    child < state.client.heap.nodes.length
  row_displayed : ∀ row, state.client.treeReduser.row = some row → Displayed state.client row

section Runs

variable {bundle : Bundle} {state next : State} {label : Label}

/-- A displayed node is on the heap. -/
theorem Inv.displayed_lt (h : Inv state) {node : Ref} (hnode : Displayed state.client node) :
    node < state.client.heap.nodes.length := by
  obtain ⟨way, hway⟩ := hnode
  apply nodeAt_induction hway h.top_lt
  intro parent object _ hobject child hchild
  exact h.child_lt object (List.mem_of_getElem? hobject) child hchild

/-- A displayed node is an object, which carries its flag. -/
theorem Inv.object_of_displayed (h : Inv state) {node : Ref} (hnode : Displayed state.client node) :
    ∃ object, state.client.heap.nodes[node]? = some object ∧
      state.client.heap.nodeSelected node = object.selected := by
  have hobject := List.getElem?_eq_getElem (h.displayed_lt hnode)
  refine ⟨_, hobject, ?_⟩
  rw [Heap.nodeSelected, hobject, Option.any_some]

/-- What is displayed depends on the top of the tree and on the children alone. -/
theorem displayed_congr {client other : Client}
    (hdata : other.treeReduser.data = client.treeReduser.data)
    (hchildren : ∀ node : Ref, (other.heap.nodes[node]?).map TreeNode.children =
      (client.heap.nodes[node]?).map TreeNode.children) (node : Ref) :
    Displayed other node ↔ Displayed client node := by
  rw [Displayed, Displayed, hdata]
  simp only [nodeAt_congr hchildren]

/-- The invariant for the same objects up to their flags, in the same tree. -/
theorem Inv.of_children (h : Inv state) {after : State}
    (hdata : after.client.treeReduser.data = state.client.treeReduser.data)
    (hlength : after.client.heap.nodes.length = state.client.heap.nodes.length)
    (hchildren : ∀ node : Ref, (after.client.heap.nodes[node]?).map TreeNode.children =
      (state.client.heap.nodes[node]?).map TreeNode.children)
    (hrow : ∀ row, after.client.treeReduser.row = some row → Displayed state.client row) :
    Inv after where
  top_lt := by
    rw [hdata, hlength]
    exact h.top_lt
  child_lt object hobject child hchild := by
    obtain ⟨node, hnode⟩ := List.mem_iff_getElem?.mp hobject
    have hsame := hchildren node
    rw [hnode, Option.map_some, eq_comm, Option.map_eq_some_iff] at hsame
    obtain ⟨before, hbefore, heq⟩ := hsame
    rw [hlength]
    exact h.child_lt before (List.mem_of_getElem? hbefore) child (heq ▸ hchild)
  row_displayed row hsome := (displayed_congr hdata hchildren row).mpr (hrow row hsome)

/-- An added object is one of those that were decoded. -/
theorem getElem?_added {heap : Heap} {nodes : List TreeNode} {node : Ref} {object : TreeNode}
    (hadded : Added heap nodes node) (hobject : (heap.nodes ++ nodes)[node]? = some object) :
    object ∈ nodes := by
  rw [List.getElem?_append_right hadded.1] at hobject
  exact List.mem_of_getElem? hobject

/-- The nodes of a decoded tree are the objects that were added with it. -/
theorem added_of_nodeAt {heap : Heap} {nodes : List TreeNode} {top : List Ref}
    (hdecoded : Decoded heap nodes top) {way : List ℕ} {node : Ref}
    (hnode : ({ heap with nodes := heap.nodes ++ nodes } : Heap).nodeAt top way = some node) :
    Added heap nodes node := by
  apply nodeAt_induction hnode hdecoded.1
  intro parent object hparent hobject
  exact (hdecoded.2 object (getElem?_added hparent hobject)).2

/-- A decoded tree carries no flag. -/
theorem nodeSelected_added {heap : Heap} {nodes : List TreeNode} {top : List Ref}
    (hdecoded : Decoded heap nodes top) {node : Ref} (hadded : Added heap nodes node) :
    ({ heap with nodes := heap.nodes ++ nodes } : Heap).nodeSelected node = false := by
  rw [Heap.nodeSelected]
  cases hobject : (heap.nodes ++ nodes)[node]? with
  | none => rfl
  | some object => exact (hdecoded.2 object (getElem?_added hadded hobject)).1

/-- What a click does to the tree: nothing, or it moves flag and row to a node without the flag. -/
theorem click_cases (hinv : Inv state) {node : Ref} (hnode : Displayed state.client node) :
    (state.client.heap.nodeSelected node = true ∧
        (state.client.onSelecRow bundle node).1 = state.client) ∨
      (state.client.heap.nodeSelected node = false ∧
        (state.client.onSelecRow bundle node).1.treeReduser =
          ⟨some node, state.client.treeReduser.data⟩ ∧
        (state.client.onSelecRow bundle node).1.heap.nodes =
          (state.client.markNode node).nodes) := by
  obtain ⟨object, hobject, hflag⟩ := hinv.object_of_displayed hnode
  cases hselected : object.selected with
  | true =>
    refine .inl ⟨hflag.trans hselected, ?_⟩
    rw [Client.onSelecRow, hobject]
    simp only [hselected]
    rfl
  | false => exact .inr ⟨hflag.trans hselected, tree_onSelecRow bundle _ hobject hselected⟩

/-- The state after a load that brings a tree. -/
theorem step_succeed {load : ℕ} {nodes : List TreeNode} {top : List Ref}
    (hstep : step bundle state (.succeed load nodes top) = some next) :
    Decoded state.client.heap nodes top ∧ next =
      { client := state.client.dispatchAll bundle.normalModule
          (actionFoldersLoad.settle (.ok (nodes, top)))
        loads := state.loads.set load true } := by
  simp only [step] at hstep
  split at hstep
  · next hloaded => exact ⟨hloaded.2, (Option.some.inj hstep).symm⟩
  · exact nomatch hstep

/-- The state after a load that fails. -/
theorem step_fail {load : ℕ} {message : ByteString}
    (hstep : step bundle state (.fail load message) = some next) :
    next =
      { client := state.client.dispatchAll bundle.normalModule
          (actionFoldersLoad.settle (.error message))
        loads := state.loads.set load true } := by
  simp only [step] at hstep
  split at hstep
  · exact (Option.some.inj hstep).symm
  · exact nomatch hstep

/-- Every step keeps the invariant. -/
theorem inv_step (h : Inv state) (hstep : step bundle state label = some next) : Inv next := by
  cases label with
  | mount =>
    obtain rfl := Option.some.inj hstep
    exact ⟨h.top_lt, h.child_lt, h.row_displayed⟩
  | succeed load nodes top =>
    obtain ⟨hdecoded, rfl⟩ := step_succeed hstep
    have hlength : (state.client.heap.nodes ++ nodes).length =
        state.client.heap.nodes.length + nodes.length := List.length_append
    refine ⟨fun node hnode => ?_, fun object hobject child hchild => ?_, nofun⟩
    · exact (hdecoded.1 node hnode).2.trans_eq hlength.symm
    · rcases List.mem_append.mp hobject with hold | hnew
      · have hlt := h.child_lt object hold child hchild
        exact hlt.trans_le (hlength ▸ Nat.le_add_right _ _)
      · exact ((hdecoded.2 object hnew).2 child hchild).2.trans_eq hlength.symm
  | fail load message =>
    obtain rfl := step_fail hstep
    exact h.of_children rfl rfl (fun _ => rfl) nofun
  | click way =>
    obtain ⟨node, hnode, rfl⟩ := Option.map_eq_some_iff.mp hstep
    rcases @click_cases bundle _ h node ⟨way, hnode⟩ with ⟨-, hsame⟩ | ⟨-, hslice, hnodes⟩
    · rw [hsame]
      exact h
    · apply h.of_children
      · change (state.client.onSelecRow bundle node).1.treeReduser.data = _
        rw [hslice]
      · exact (congrArg List.length hnodes).trans (length_markNode ..)
      · intro held
        exact (congrArg (fun nodes : List TreeNode => (nodes[held]?).map TreeNode.children)
          hnodes).trans (children_markNode ..)
      · intro row hrow
        change (state.client.onSelecRow bundle node).1.treeReduser.row = some row at hrow
        rw [hslice] at hrow
        obtain rfl := Option.some.inj hrow
        exact ⟨way, hnode⟩

/-- A click selects every node without the flag. -/
theorem selects_of_unselected (hinv : Inv state) {node : Ref} (hnode : Displayed state.client node)
    (hflag : state.client.heap.nodeSelected node = false)
    (hrow : state.client.treeReduser.row ≠ some node) : Selects bundle state.client node := by
  obtain ⟨object, hobject, hselected⟩ := hinv.object_of_displayed hnode
  rw [hflag] at hselected
  have hclick := onSelecRow_of_unselected bundle state.client hobject hselected.symm
  obtain ⟨hslice, hnodes⟩ := tree_onSelecRow bundle state.client hobject hselected.symm
  refine ⟨object, hobject, by rw [hclick], by rw [hclick], ?_, ?_⟩
  · rw [hslice]
  · rw [Heap.nodeSelected, hnodes, ← Heap.nodeSelected,
      nodeSelected_markNode _ (hinv.displayed_lt hnode)]
    · rw [if_neg hrow, if_pos rfl]
    · exact fun row hsome => hinv.displayed_lt (hinv.row_displayed row hsome)

/-- Flags that follow the row are all there is to show. -/
theorem agrees_iff (hinv : Inv state) : Agrees bundle state ↔
    ∀ node, Displayed state.client node →
      (state.client.heap.nodeSelected node = true ↔ state.client.treeReduser.row = some node) := by
  constructor
  · exact Agrees.selected_iff
  · intro hflags
    refine ⟨hflags, fun left right hleft hright hleft' hright' => ?_, fun node hnode hrow => ?_⟩
    · have hrow := (hflags left hleft).mp hleft'
      rw [(hflags right hright).mp hright'] at hrow
      exact (Option.some.inj hrow).symm
    · apply selects_of_unselected hinv hnode ?_ hrow
      rw [← Bool.not_eq_true, hflags node hnode]
      exact hrow

/-- Flags and row stay in step exactly in a careful step. -/
theorem agrees_step (hinv : Inv state) (h : Agrees bundle state)
    (hstep : step bundle state label = some next) : Agrees bundle next ↔ Careful state label := by
  rw [agrees_iff (inv_step hinv hstep)]
  cases label with
  | mount =>
    obtain rfl := Option.some.inj hstep
    exact ⟨fun _ => trivial, fun _ => h.selected_iff⟩
  | succeed load nodes top =>
    obtain ⟨hdecoded, rfl⟩ := step_succeed hstep
    refine ⟨fun _ => trivial, fun _ node hnode => ?_⟩
    obtain ⟨way, hway⟩ := hnode
    have hflag := nodeSelected_added hdecoded (added_of_nodeAt hdecoded hway)
    exact ⟨fun hselected => absurd hselected (by rw [Bool.not_eq_true]; exact hflag), nofun⟩
  | fail load message =>
    obtain rfl := step_fail hstep
    -- flags and tree are as before, and the row is gone
    change (∀ node, Displayed state.client node →
      (state.client.heap.nodeSelected node = true ↔ none = some node)) ↔
        state.client.treeReduser.row = none
    constructor
    · intro hflags
      by_contra hsome
      obtain ⟨row, hrow⟩ := Option.ne_none_iff_exists'.mp hsome
      have hdisplayed := hinv.row_displayed row hrow
      exact nomatch (hflags row hdisplayed).mp ((h.selected_iff row hdisplayed).mpr hrow)
    · intro hnone node hnode
      rw [h.selected_iff node hnode, hnone]
  | click way =>
    obtain ⟨node, hnode, rfl⟩ := Option.map_eq_some_iff.mp hstep
    refine ⟨fun _ => trivial, fun _ held hheld => ?_⟩
    rcases @click_cases bundle _ hinv node ⟨way, hnode⟩ with ⟨-, hsame⟩ | ⟨hflag, hslice, hnodes⟩
    · rw [hsame] at hheld ⊢
      exact h.selected_iff held hheld
    · have hheld' : Displayed state.client held := by
        apply (displayed_congr _ _ held).mp hheld
        · change (state.client.onSelecRow bundle node).1.treeReduser.data = _
          rw [hslice]
        · intro other
          exact (congrArg (fun nodes : List TreeNode => (nodes[other]?).map TreeNode.children)
            hnodes).trans (children_markNode ..)
      have hmarked := nodeSelected_markNode state.client (hinv.displayed_lt ⟨way, hnode⟩)
        (fun row hsome => hinv.displayed_lt (hinv.row_displayed row hsome)) held
      change (state.client.onSelecRow bundle node).1.heap.nodeSelected held = true ↔
        (state.client.onSelecRow bundle node).1.treeReduser.row = some held
      rw [hslice, Heap.nodeSelected, hnodes, ← Heap.nodeSelected, hmarked, Option.some.injEq]
      by_cases hrow : state.client.treeReduser.row = some held
      · -- the old row lost its flag, and is not the node that was clicked
        have hne : node ≠ held := by
          rintro rfl
          rw [(h.selected_iff node hheld').mpr hrow] at hflag
          exact nomatch hflag
        rw [if_pos hrow]
        exact ⟨nofun, fun heq => absurd heq hne⟩
      · rw [if_neg hrow]
        by_cases heq : node = held
        · rw [if_pos heq]
          exact ⟨fun _ => heq, fun _ => rfl⟩
        · rw [if_neg heq, h.selected_iff held hheld']
          exact ⟨fun hsome => absurd hsome hrow, fun hsame => absurd hsame heq⟩

end Runs

/-- In a run of the folder tree from the initial state, flags and row agree in every state, and a
click selects every other node than the row, exactly when no load fails while a node is
selected. -/
theorem tree_throughout_iff (bundle : Bundle) (rows : List GridRow) (labels : List Label)
    (last : State) (hrun : (machine bundle).run ⟨.initial ⟨rows, []⟩, []⟩ labels = some last) :
    (machine bundle).Throughout (Agrees bundle) ⟨.initial ⟨rows, []⟩, []⟩ labels ↔
      (machine bundle).Along Careful ⟨.initial ⟨rows, []⟩, []⟩ labels := by
  have hnone (node : Ref) : ¬ Displayed (.initial ⟨rows, []⟩) node := by
    rintro ⟨way, hway⟩
    exact @nodeAt_induction _ (fun _ => False) _ _ _ hway
      (fun _ hmem => absurd hmem List.not_mem_nil) fun _ _ hfalse => hfalse.elim
  have hinv : Inv ⟨.initial ⟨rows, []⟩, []⟩ :=
    ⟨fun _ hmem => absurd hmem List.not_mem_nil, fun _ hmem => absurd hmem List.not_mem_nil, nofun⟩
  apply (machine bundle).throughout_iff_along (I := Inv) ?_ ?_ hinv ?_ hrun
  · exact fun _ _ _ => inv_step
  · exact fun _ _ _ => agrees_step
  · exact (agrees_iff hinv).mpr fun node hnode => absurd hnode (hnone node)

/-- A folder is selected, the tree is mounted again, and the load of this mount fails. -/
def sampleLabels : List Label :=
  [.mount, .succeed 0 Client.sample.heap.nodes [0], .click [0, 0], .mount,
    .fail 1 (ascii "Network Error")]

/-- The folder stays highlighted without being the row, and a click on it has no effect. -/
theorem sample_tree_not_agrees :
    ∃ last, (machine ⟨none, id⟩).run ⟨.initial ⟨[], []⟩, []⟩ sampleLabels = some last ∧
      last.client.treeReduser = ⟨none, [0]⟩ ∧ last.client.heap.nodeAt [0] [0, 0] = some 1 ∧
      last.client.heap.nodeSelected 1 = true ∧
      last.client.onSelecRow ⟨none, id⟩ 1 = (last.client, none) ∧ ¬ Agrees ⟨none, id⟩ last := by
  refine ⟨_, rfl, rfl, rfl, rfl, rfl, ?_⟩
  intro h
  exact nomatch (h.selected_iff 1 ⟨[0, 0], rfl⟩).mp rfl

/-- A load that fails before a folder is selected leaves flags and row in step. -/
theorem sample_tree_throughout_iff :
    (machine ⟨none, id⟩).Throughout (Agrees ⟨none, id⟩) ⟨.initial ⟨[], []⟩, []⟩
      [.mount, .mount, .fail 1 (ascii "Network Error"), .succeed 0 Client.sample.heap.nodes [0],
        .click [0, 0]] := by
  apply (tree_throughout_iff ⟨none, id⟩ [] _ _ rfl).mpr
  exact .cons rfl trivial (.cons rfl trivial (.cons rfl rfl (.cons rfl trivial
    (.cons rfl trivial trivial))))

end TreeSelection

end RepoManager
