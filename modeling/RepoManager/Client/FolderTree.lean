import RepoManager.Api.Replies
import RepoManager.Client.TreeSelection

/-!
# The tree that is displayed

`TREE_GET_ROWS_ALL` puts the decoded message into the store as it is: its objects are the nodes of
the tree, and `Tree` shows them below one another. `nodes` lists these objects as they are put at
the end of the heap.

A way of child numbers leads to a node of the displayed tree exactly when it leads to a folder of
the message, and the node is that folder's.
-/

open LexicalPath

namespace RepoManager

namespace Api.Folders

mutual

/-- The number of objects of a message. -/
def count : Folders → ℕ
  | ⟨_, _, children⟩ => countAll children + 1

/-- The number of objects of some messages. -/
def countAll : List Folders → ℕ
  | [] => 0
  | child :: rest => count child + countAll rest

end

/-- The references of messages whose objects follow one another from a place on the heap. -/
def refs : ℕ → List Folders → List Ref
  | _, [] => []
  | base, child :: rest => base :: refs (base + count child) rest

mutual

/-- The objects of a message from a place on the heap. -/
def nodes : ℕ → Folders → List TreeNode
  | base, ⟨name, root, children⟩ =>
    ⟨name, root.getD false, refs (base + 1) children, false⟩ :: nodesAll (base + 1) children

/-- The objects of messages that follow one another. -/
def nodesAll : ℕ → List Folders → List TreeNode
  | _, [] => []
  | base, child :: rest => nodes base child ++ nodesAll (base + count child) rest

end

/-- The folder that a way of child numbers leads to. -/
def folderAt : List Folders → List ℕ → Option Folders
  | _, [] => none
  | folders, [index] => folders[index]?
  | folders, index :: next :: rest => do
    let folder ← folders[index]?
    folderAt folder.children (next :: rest)

mutual

/-- There are as many objects as `count` says. -/
theorem length_nodes : ∀ (base : ℕ) (message : Folders),
    (nodes base message).length = message.count
  | base, ⟨name, root, children⟩ => by
    rw [nodes, count, List.length_cons, length_nodesAll]

/-- There are as many objects as `countAll` says. -/
theorem length_nodesAll : ∀ (base : ℕ) (messages : List Folders),
    (nodesAll base messages).length = countAll messages
  | _, [] => rfl
  | base, child :: rest => by
    rw [nodesAll, countAll, List.length_append, length_nodes, length_nodesAll]

end

/-- The objects of some messages are on the heap from a place on. -/
def OnHeap (heap : Heap) (base : ℕ) (messages : List Folders) : Prop :=
  nodesAll base messages <+: heap.nodes.drop base

section Heap

variable {heap : Heap} {base : ℕ}

/-- Messages on the heap are the first of them and the others. -/
theorem OnHeap.cons {child : Folders} {rest : List Folders} (h : OnHeap heap base (child :: rest)) :
    nodes base child <+: heap.nodes.drop base ∧ OnHeap heap (base + child.count) rest := by
  obtain ⟨tail, htail⟩ := h
  rw [nodesAll, List.append_assoc] at htail
  refine ⟨⟨_, htail⟩, ⟨tail, ?_⟩⟩
  rw [← List.drop_drop, ← htail, List.drop_left' (length_nodes base child)]

/-- A message on the heap is its object and its children. -/
theorem object_of_nodes {message : Folders} (h : nodes base message <+: heap.nodes.drop base) :
    heap.nodes[base]? =
        some ⟨message.name, message.root.getD false, refs (base + 1) message.children, false⟩ ∧
      OnHeap heap (base + 1) message.children := by
  obtain ⟨name, root, children⟩ := message
  obtain ⟨tail, htail⟩ := h
  rw [nodes, List.cons_append] at htail
  refine ⟨?_, ⟨tail, ?_⟩⟩
  · have hhead := congrArg (·[0]?) htail
    simpa using hhead.symm
  · rw [← List.drop_drop, ← htail, List.drop_one, List.tail_cons]

/-- Each of the messages on the heap has its reference. -/
theorem OnHeap.getElem? {messages : List Folders} (h : OnHeap heap base messages) (index : ℕ) :
    (messages[index]? = none ∧ (refs base messages)[index]? = none) ∨
      ∃ message ref, messages[index]? = some message ∧ (refs base messages)[index]? = some ref ∧
        nodes ref message <+: heap.nodes.drop ref := by
  induction messages generalizing base index with
  | nil => exact .inl ⟨rfl, rfl⟩
  | cons child rest ih =>
    obtain ⟨hchild, hrest⟩ := h.cons
    cases index with
    | zero => exact .inr ⟨child, base, rfl, rfl, hchild⟩
    | succ index => exact ih hrest index

/-- A way leads to a node exactly when it leads to a folder, and the node is that folder's. -/
theorem OnHeap.nodeAt {messages : List Folders} (h : OnHeap heap base messages) (way : List ℕ) :
    (folderAt messages way = none ∧ heap.nodeAt (refs base messages) way = none) ∨
      ∃ folder ref, folderAt messages way = some folder ∧
        heap.nodeAt (refs base messages) way = some ref ∧
        nodes ref folder <+: heap.nodes.drop ref := by
  induction way generalizing base messages with
  | nil => exact .inl ⟨rfl, rfl⟩
  | cons index rest ih =>
    obtain ⟨hnone, href⟩ | ⟨folder, ref, hfolder, href, hnodes⟩ := h.getElem? index
    · cases rest with
      | nil => exact .inl ⟨hnone, href⟩
      | cons next rest => exact .inl ⟨by simp [folderAt, hnone], by simp [Heap.nodeAt, href]⟩
    · cases rest with
      | nil => exact .inr ⟨folder, ref, hfolder, href, hnodes⟩
      | cons next rest =>
        obtain ⟨hobject, hchildren⟩ := object_of_nodes hnodes
        simpa [folderAt, Heap.nodeAt, hfolder, href, hobject] using ih hchildren

end Heap

/-- A message has an object of its own. -/
theorem count_pos (message : Folders) : 0 < message.count := by
  cases message
  rw [count]
  exact Nat.succ_pos _

/-- A reference to one of so many objects from a place on the heap. -/
def InRange (base count node : ℕ) : Prop := base ≤ node ∧ node < base + count

/-- A range within another one. -/
theorem InRange.mono {base count first length node : ℕ} (h : InRange base count node)
    (hfirst : first ≤ base) (hlast : base + count ≤ first + length) :
    InRange first length node :=
  ⟨hfirst.trans h.1, h.2.trans_le hlast⟩

/-- The references of messages are among their objects. -/
theorem refs_range {base ref : ℕ} {messages : List Folders} (h : ref ∈ refs base messages) :
    InRange base (countAll messages) ref := by
  induction messages generalizing base with
  | nil => cases h
  | cons child rest ih =>
    have hpos := child.count_pos
    rw [refs, List.mem_cons] at h
    rw [countAll]
    obtain rfl | hrest := h
    · exact ⟨le_rfl, by omega⟩
    · exact (ih hrest).mono (by omega) (by omega)

mutual

/-- The objects of a message are unselected, and their children are among them. -/
theorem nodes_range : ∀ (base : ℕ) (message : Folders), ∀ object ∈ nodes base message,
    object.selected = false ∧ ∀ child ∈ object.children, InRange base message.count child
  | base, ⟨name, root, children⟩, object, h => by
    rw [nodes, List.mem_cons] at h
    rw [count]
    obtain rfl | hchild := h
    · exact ⟨rfl, fun child hchild => (refs_range hchild).mono (by omega) (by omega)⟩
    · obtain ⟨hselected, hchildren⟩ := nodesAll_range (base + 1) children object hchild
      exact ⟨hselected, fun child hmem => (hchildren child hmem).mono (by omega) (by omega)⟩

/-- The objects of some messages are unselected, and their children are among them. -/
theorem nodesAll_range : ∀ (base : ℕ) (messages : List Folders),
    ∀ object ∈ nodesAll base messages, object.selected = false ∧
      ∀ child ∈ object.children, InRange base (countAll messages) child
  | _, [], _, h => by
    rw [nodesAll] at h
    cases h
  | base, child :: rest, object, h => by
    rw [nodesAll, List.mem_append] at h
    rw [countAll]
    obtain hfirst | hrest := h
    · obtain ⟨hselected, hchildren⟩ := nodes_range base child object hfirst
      exact ⟨hselected, fun ref hmem => (hchildren ref hmem).mono (by omega) (by omega)⟩
    · obtain ⟨hselected, hchildren⟩ := nodesAll_range (base + child.count) rest object hrest
      exact ⟨hselected, fun ref hmem => (hchildren ref hmem).mono (by omega) (by omega)⟩

end

/-- There is nothing below folders without children. -/
theorem folderAt_nil (way : List ℕ) : folderAt [] way = none := by
  unfold folderAt
  split <;> simp

/-- A folder whose children have none: the way to it, and the ways to its children. -/
theorem folderAt_leaves (name : ByteString) (root : Option Bool) (names : List ByteString)
    (way : List ℕ) (folder : Folders) :
    folderAt [⟨name, root, names.map leaf⟩] way = some folder ↔
      (way = [0] ∧ folder = ⟨name, root, names.map leaf⟩) ∨
        ∃ index child, way = [0, index] ∧ names[index]? = some child ∧ folder = leaf child := by
  match way with
  | [] => simp [folderAt]
  | [index] => cases index with
    | zero => simp [folderAt, eq_comm]
    | succ index => simp [folderAt]
  | index :: next :: rest => cases index with
    | succ index => simp [folderAt]
    | zero => cases rest with
      | nil =>
        simp only [folderAt, List.getElem?_cons_zero, Option.bind_eq_bind, Option.bind_some,
          List.getElem?_map, Option.map_eq_some_iff]
        simp [eq_comm]
      | cons deeper rest =>
        cases hchild : names[next]? with
        | none => simp [folderAt, hchild]
        | some child => simp [folderAt, hchild, leaf, folderAt_nil]

/-- A message is a tree as it is decoded. -/
theorem decoded_nodes (heap : Heap) (message : Folders) :
    TreeSelection.Decoded heap (nodes heap.nodes.length message) [heap.nodes.length] := by
  have hadded (node : Ref) (h : InRange heap.nodes.length message.count node) :
      TreeSelection.Added heap (nodes heap.nodes.length message) node := by
    rw [TreeSelection.Added, length_nodes]
    exact h
  refine ⟨fun node hnode => ?_, fun object hobject => ?_⟩
  · rw [List.mem_singleton.mp hnode]
    exact hadded _ ⟨le_rfl, Nat.lt_add_of_pos_right message.count_pos⟩
  · obtain ⟨hselected, hchildren⟩ := nodes_range _ _ object hobject
    exact ⟨hselected, fun child hchild => hadded child (hchildren child hchild)⟩

end Api.Folders

namespace Client

/-- The client when a load of the tree has brought a message. -/
def loadFolders (bundle : Bundle) (client : Client) (message : Api.Folders) : Client :=
  client.dispatchAll bundle.normalModule (actionFoldersLoad.settle
    (.ok (message.nodes client.heap.nodes.length, [client.heap.nodes.length])))

/-- The nodes of the displayed tree are the folders of the message. -/
theorem displayed_loadFolders (bundle : Bundle) (client : Client) (message : Api.Folders)
    (way : List ℕ) (name : ByteString) (root : Bool) :
    (∃ node object, (client.loadFolders bundle message).heap.nodeAt
        (client.loadFolders bundle message).treeReduser.data way = some node ∧
      (client.loadFolders bundle message).heap.nodes[node]? = some object ∧
      object.name = name ∧ object.root = root) ↔
    ∃ folder, Api.Folders.folderAt [message] way = some folder ∧ folder.name = name ∧
      folder.root.getD false = root := by
  have hheap : Api.Folders.OnHeap (client.loadFolders bundle message).heap
      client.heap.nodes.length [message] := by
    have hnodes : (client.loadFolders bundle message).heap.nodes =
        client.heap.nodes ++ message.nodes client.heap.nodes.length := rfl
    rw [Api.Folders.OnHeap, hnodes, List.drop_left, Api.Folders.nodesAll, Api.Folders.nodesAll,
      List.append_nil]
  have hdata : (client.loadFolders bundle message).treeReduser.data =
      Api.Folders.refs client.heap.nodes.length [message] := rfl
  rw [hdata]
  obtain ⟨hnone, hnode⟩ | ⟨folder, ref, hfolder, hnode, hnodes⟩ := hheap.nodeAt way
  · simp [hnone, hnode]
  · obtain ⟨hobject, -⟩ := Api.Folders.object_of_nodes hnodes
    simp [hfolder, hnode, hobject]

end Client

section Server

variable {env : Externals} {vars : Mux.Vars} {req : Request} {world : World}

/-- The names of the folders that a repository shows. -/
def shownFolders (objects : List (Segment × Node)) : List ByteString :=
  (objects.filter fun object => object.2 = .dir ∧ object.1.val ∈ FoldersPath.noSkip).map
    fun object => object.1.val

/-- Whatever the server answers to the client's request for the folders, the tree on display is the
repository with its folders: a root of its name, below it every directory of a supported
architecture once and nothing else, and no node is marked. -/
theorem handleFolders_displayed (marshal : Api.Marshal) (reader : Api.BinaryReader)
    (bundle : Bundle) (client : Client) (hproto : env.proto = marshal.proto reader)
    {data : ByteString} (h : (handleFolders env vars req world).reply = respondData data) :
    ∃ repo objects message, world.config.getRepoVarPath env.cwd (repoVar vars) = .ok repo ∧
      getOdjectsInFolder world.tree (join [repo.root, repo.dir]) = .ok objects ∧
      Api.Folders.deserialize reader data = some message ∧
      (shownFolders objects).Nodup ∧
      TreeSelection.Decoded client.heap (message.nodes client.heap.nodes.length)
        [client.heap.nodes.length] ∧
      ∀ way name root,
        (∃ node object, (client.loadFolders bundle message).heap.nodeAt
            (client.loadFolders bundle message).treeReduser.data way = some node ∧
          (client.loadFolders bundle message).heap.nodes[node]? = some object ∧
          object.name = name ∧ object.root = root) ↔
        (way = [0] ∧ name = repo.name ∧ root = true) ∨
          ∃ index, way = [0, index] ∧ (shownFolders objects)[index]? = some name ∧
            root = false := by
  obtain ⟨repo, hrepo, hcall⟩ := (Api.reply_eq_respondData_iff data _).mp h
  rw [FoldersService.getFolders, FoldersPath.getFolders, hproto] at hcall
  obtain ⟨objects, hobjects, hdata⟩ := bind_eq_ok_iff.mp hcall
  have hdecoded := Api.Folders.deserialize_of_encodes reader (marshal.folders_encodes _ data hdata)
  refine ⟨repo, objects, _, hrepo, hobjects, hdecoded, ?_, Api.Folders.decoded_nodes _ _, ?_⟩
  · have hread := (getOdjectsInFolder_eq_ok_iff ..).mp hobjects
    have hnames := (FileTree.nodup_readDir hread).map Segment.val_injective
    rw [List.map_map] at hnames
    exact hnames.sublist (List.filter_sublist.map _)
  · intro way name root
    rw [Client.displayed_loadFolders]
    simp only [Api.Folders.folderAt_leaves]
    constructor
    · rintro ⟨folder, ⟨rfl, rfl⟩ | ⟨index, child, rfl, hchild, rfl⟩, rfl, rfl⟩
      · exact .inl ⟨rfl, rfl, rfl⟩
      · exact .inr ⟨index, rfl, hchild, rfl⟩
    · rintro (⟨rfl, rfl, rfl⟩ | ⟨index, rfl, hname, rfl⟩)
      · exact ⟨_, .inl ⟨rfl, rfl⟩, rfl, rfl⟩
      · exact ⟨_, .inr ⟨index, name, rfl, hname, rfl⟩, rfl, rfl⟩

end Server

/-- The sample repository is displayed as a root with one folder. -/
theorem sample_handleFolders_displayed :
    ∃ data message, (handleFolders Api.sampleEnv Api.sampleVars sampleSignIn
        Api.sampleWorld).reply = respondData data ∧
      Api.Folders.deserialize .sample data = some message ∧
      ∃ node object, (Client.sample.loadFolders ⟨none, id⟩ message).heap.nodeAt
          (Client.sample.loadFolders ⟨none, id⟩ message).treeReduser.data [0, 0] = some node ∧
        (Client.sample.loadFolders ⟨none, id⟩ message).heap.nodes[node]? = some object ∧
        object.name = ascii "noarch" ∧ object.root = false := by
  have hfound : Api.sampleWorld.config.getRepoVarPath Api.sampleEnv.cwd (repoVar Api.sampleVars) =
      .ok ⟨ascii "/srv", ascii "kes", ascii "kes"⟩ := rfl
  have hlisted : getOdjectsInFolder Api.sampleWorld.tree (join [ascii "/srv", ascii "kes"]) =
      .ok [(noarch, .dir)] := rfl
  obtain ⟨data, hdata⟩ := Api.Marshal.inOrder.folders_ok
    ⟨ascii "kes", some true, [.leaf (ascii "noarch")]⟩
    (by
      simp only [Api.Folders.names, Api.Folders.leaf, List.flatMap_cons, List.flatMap_nil]
      decide)
    (by
      simp only [Api.Folders.serialize, Api.Folders.leaf, List.map_cons, List.map_nil]
      decide)
  have hreply : (handleFolders Api.sampleEnv Api.sampleVars sampleSignIn Api.sampleWorld).reply =
      respondData data :=
    (Api.reply_eq_respondData_iff data _).mpr
      ⟨_, hfound, bind_eq_ok_iff.mpr ⟨_, hlisted, hdata⟩⟩
  obtain ⟨repo, objects, message, hrepo, hobjects, hmessage, -, -, hdisplayed⟩ :=
    handleFolders_displayed Api.Marshal.inOrder .sample ⟨none, id⟩ Client.sample rfl hreply
  refine ⟨data, message, hreply, hmessage, (hdisplayed [0, 0] _ _).mpr (.inr ⟨0, rfl, ?_, rfl⟩)⟩
  obtain rfl := Except.ok.inj (hfound.symm.trans hrepo)
  obtain rfl := Except.ok.inj (hlisted.symm.trans hobjects)
  rfl

end RepoManager
