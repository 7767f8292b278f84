import Mathlib.Data.List.AList
import Mathlib.Data.List.Lattice
import RepoManager.Library.LexicalPath

/-!
# A tree of directories and files

The state of a file system without links: a finite map from locations to nodes in which the
root is a directory and every other node lies in one. The operations are the system calls a
program uses on whole files. Opening for writing creates or truncates; writing through a
handle overwrites from the start and keeps what lies beyond, so two handles on one file
overlay each other's bytes.

Each operation has one lemma that says which nodes it changes.
-/

open LexicalPath

/-- What a location holds. -/
inductive Node where
  | dir
  | file (content : ByteString)
  deriving DecidableEq

/-- Why a path cannot be opened. -/
inductive OpenError where
  | notExist
  | notDirectory
  | isDirectory
  deriving DecidableEq

/-- A finite tree: the root is a directory and only directories have children. -/
structure FileTree where
  nodes : AList fun _ : Location => Node
  root : nodes.lookup [] = some .dir
  closed : ∀ (loc : Location) (name : Segment),
    (nodes.lookup (loc ++ [name])).isSome → nodes.lookup loc = some .dir

namespace FileTree

/-- The node at a location. -/
def node (tree : FileTree) (loc : Location) : Option Node := tree.nodes.lookup loc

/-- The tree of the root directory alone. -/
def empty : FileTree where
  nodes := AList.singleton [] .dir
  root := rfl
  closed := by
    intro loc name h
    simp [AList.lookup] at h

/-- Prefixes of one list differ. -/
theorem nodup_inits {α : Type*} (l : List α) : l.inits.Nodup := by
  induction l with
  | nil => exact List.nodup_singleton _
  | cons a rest ih =>
    rw [List.inits_cons, List.nodup_cons]
    refine ⟨by simp, ih.map ?_⟩
    exact List.cons_injective

/-- No child is on the way to its directory. -/
theorem not_child_prefix (loc : Location) (name : Segment) : ¬ loc ++ [name] <+: loc := by
  intro h
  have hlength := h.length_le
  rw [List.length_append, List.length_singleton] at hlength
  omega

/-- The tree of the directories on the way to one location. -/
def wayTo (loc : Location) : FileTree where
  nodes := ⟨loc.inits.map fun above => ⟨above, .dir⟩, by
    rw [List.NodupKeys, List.keys, List.map_map]
    simpa [Function.comp_def] using nodup_inits loc⟩
  root := AList.mem_lookup_iff.mpr (by simp)
  closed := by
    intro above name h
    obtain ⟨found, hfound⟩ := Option.isSome_iff_exists.mp h
    have hmem := AList.mem_lookup_iff.mp hfound
    simp only [List.mem_map, List.mem_inits, Sigma.mk.injEq] at hmem
    obtain ⟨_, hway, rfl, -⟩ := hmem
    apply AList.mem_lookup_iff.mpr
    simp only [List.mem_map, List.mem_inits, Sigma.mk.injEq]
    exact ⟨above, (List.prefix_append above [name]).trans hway, rfl, HEq.rfl⟩

/-- A location of that tree is a directory exactly when it is on the way. -/
theorem node_wayTo (loc other : Location) :
    (wayTo loc).node other = if other <+: loc then some .dir else none := by
  have hmem : ∀ found, (wayTo loc).node other = some found ↔ other <+: loc ∧ found = .dir := by
    intro found
    have h := AList.mem_lookup_iff (s := (wayTo loc).nodes) (a := other) (b := found)
    refine h.trans ?_
    simp [wayTo, eq_comm]
  by_cases hway : other <+: loc
  · rw [if_pos hway]
    exact (hmem .dir).mpr ⟨hway, rfl⟩
  · rw [if_neg hway, Option.eq_none_iff_forall_ne_some]
    intro found hfound
    exact hway ((hmem found).mp hfound).1
/-- A node lies in a directory. -/
theorem parent_dir (tree : FileTree) {loc : Location} {name : Segment} {found : Node}
    (h : tree.node (loc ++ [name]) = some found) : tree.node loc = some .dir :=
  tree.closed loc name (by rw [node] at h; simp [h])

/-- Put a node below an existing directory, where no directory is. -/
def put (tree : FileTree) (loc : Location) (name : Segment) (new : Node)
    (hparent : tree.node loc = some .dir) (hnode : tree.node (loc ++ [name]) ≠ some .dir) :
    FileTree where
  nodes := tree.nodes.insert (loc ++ [name]) new
  root := by
    rw [AList.lookup_insert_ne (by simp)]
    exact tree.root
  closed := by
    intro other child h
    by_cases hchild : other ++ [child] = loc ++ [name]
    · obtain ⟨rfl, -⟩ := List.append_inj' hchild rfl
      rw [AList.lookup_insert_ne (by simp)]
      exact hparent
    · rw [AList.lookup_insert_ne hchild] at h
      have hother := tree.closed other child h
      have hne : other ≠ loc ++ [name] := fun heq => hnode (heq ▸ hother)
      rw [AList.lookup_insert_ne hne]
      exact hother

section Put

variable (tree : FileTree) (loc : Location) (name : Segment) (new : Node)
  (hparent : tree.node loc = some .dir) (hnode : tree.node (loc ++ [name]) ≠ some .dir)

/-- The node that was put is there. -/
@[simp] theorem node_put_self :
    (tree.put loc name new hparent hnode).node (loc ++ [name]) = some new :=
  AList.lookup_insert tree.nodes

/-- The node that was put, by any name of its location. -/
theorem node_put_of_eq {other : Location} (h : other = loc ++ [name]) :
    (tree.put loc name new hparent hnode).node other = some new := by
  subst h
  exact node_put_self ..

/-- Every other node is unchanged. -/
theorem node_put_of_ne {other : Location} (h : other ≠ loc ++ [name]) :
    (tree.put loc name new hparent hnode).node other = tree.node other :=
  AList.lookup_insert_ne h

end Put

/-! ## Operations -/

/-- Why nothing is at a location: some ancestor is a file, or some are missing. -/
def missing (tree : FileTree) (loc : Location) : OpenError :=
  if ∃ above ∈ loc.inits, ∃ found ∈ tree.node above, found ≠ .dir then .notDirectory else .notExist

/-- Open a file for writing: create it in an existing directory, or truncate it. -/
def create (tree : FileTree) (loc : Location) : Except OpenError FileTree :=
  match hlast : loc.getLast? with
  | none => .error .isDirectory
  | some name =>
    if hnode : tree.node loc = some .dir then .error .isDirectory
    else if hparent : tree.node loc.dropLast = some .dir then
      .ok (tree.put loc.dropLast name (.file []) hparent
        (by rwa [List.dropLast_append_getLast? name hlast]))
    else .error (tree.missing loc)

/-- What a file holds after `bytes` are written over `content` from its start. -/
def overlay (bytes content : ByteString) : ByteString := bytes ++ content.drop bytes.length

/-- Write through a handle on a file, from the start. -/
def write (tree : FileTree) (loc : Location) (bytes : ByteString) : FileTree :=
  match hnode : tree.node loc, hlast : loc.getLast? with
  | some (.file content), some name =>
    tree.put loc.dropLast name (.file (overlay bytes content))
      (tree.parent_dir ((List.dropLast_append_getLast? name hlast).symm ▸ hnode))
      (by rw [List.dropLast_append_getLast? name hlast, hnode]; simp)
  | _, _ => tree

/-- Read a whole file. -/
def readFile (tree : FileTree) (loc : Location) : Except OpenError ByteString :=
  match tree.node loc with
  | some (.file content) => .ok content
  | some .dir => .error .isDirectory
  | none => .error (tree.missing loc)

/-- The child of `loc` that an entry of the map is, if it is one. -/
def childOf (loc : Location) (entry : (_ : Location) × Node) : Option (Segment × Node) :=
  match entry.1.getLast? with
  | none => none
  | some name => if entry.1.dropLast = loc then some (name, entry.2) else none

/-- Read a whole directory. -/
def readDir (tree : FileTree) (loc : Location) : Except OpenError (List (Segment × Node)) :=
  match tree.node loc with
  | some .dir => .ok (tree.nodes.entries.filterMap (childOf loc))
  | some (.file _) => .error .notDirectory
  | none => .error (tree.missing loc)

/-! ## Opening for writing -/

/-- The root is a directory and is never opened for writing. -/
@[simp] theorem create_root (tree : FileTree) : tree.create [] = .error .isDirectory := rfl

/-- Opening a child for writing, by the kind of its node and of its directory. -/
theorem create_child (tree : FileTree) (loc : Location) (name : Segment) :
    tree.create (loc ++ [name]) =
      if hnode : tree.node (loc ++ [name]) = some .dir then .error .isDirectory
      else if hparent : tree.node loc = some .dir then
        .ok (tree.put loc name (.file []) hparent hnode)
      else .error (tree.missing (loc ++ [name])) := by
  unfold create
  split
  · next hlast => simp at hlast
  · next last hlast =>
    obtain rfl : name = last := by simpa using hlast
    simp only [List.dropLast_concat]

/-- A location that can be opened for writing lies in a directory and is none itself. -/
theorem create_eq_ok_iff (tree : FileTree) (loc : Location) :
    (∃ new, tree.create loc = .ok new) ↔
      ∃ parent name, loc = parent ++ [name] ∧ tree.node parent = some .dir ∧
        tree.node loc ≠ some .dir := by
  rcases List.eq_nil_or_concat' loc with rfl | ⟨parent, name, rfl⟩
  · simp
  · rw [create_child]
    by_cases hnode : tree.node (parent ++ [name]) = some .dir
    · simp [hnode]
    · by_cases hparent : tree.node parent = some .dir
      · simp [hnode, hparent]
      · simp only [hnode, hparent, dite_false, reduceCtorEq, exists_false, false_iff]
        rintro ⟨other, last, heq, hdir, -⟩
        obtain ⟨rfl, -⟩ := List.append_inj' heq rfl
        exact hparent hdir

/-- What opening for writing does: the location holds an empty file, all else is unchanged. -/
theorem create_ok {tree new : FileTree} {loc : Location} (h : tree.create loc = .ok new) :
    new.node loc = some (.file []) ∧ ∀ other, other ≠ loc → new.node other = tree.node other := by
  obtain ⟨parent, name, rfl, hparent, hnode⟩ := (tree.create_eq_ok_iff loc).mp ⟨new, h⟩
  rw [create_child, dif_neg hnode, dif_pos hparent] at h
  obtain rfl := Except.ok.inj h
  exact ⟨node_put_self .., fun other hother => node_put_of_ne _ _ _ _ _ _ hother⟩

/-! ## Writing through a handle -/

/-- Writing into an empty file leaves exactly the written bytes. -/
@[simp] theorem overlay_nil (bytes : ByteString) : overlay bytes [] = bytes := by simp [overlay]

/-- A content longer than the written bytes keeps its length. -/
@[simp] theorem length_overlay (bytes content : ByteString) :
    (overlay bytes content).length = max bytes.length content.length := by
  simp only [overlay, List.length_append, List.length_drop]
  omega

/-- A write leaves every other node unchanged. -/
theorem node_write_of_ne (tree : FileTree) {loc other : Location} (bytes : ByteString)
    (h : other ≠ loc) : (tree.write loc bytes).node other = tree.node other := by
  unfold write
  split
  · next content name hnode hlast =>
    exact node_put_of_ne _ _ _ _ _ _ (by rwa [List.dropLast_append_getLast? name hlast])
  · rfl

/-- A write puts its bytes over the content of the file. -/
theorem node_write_self {tree : FileTree} {loc : Location} {content : ByteString}
    (h : tree.node loc = some (.file content)) (bytes : ByteString) :
    (tree.write loc bytes).node loc = some (.file (overlay bytes content)) := by
  have hloc : loc ≠ [] := by
    rintro rfl
    simp [node, tree.root] at h
  unfold write
  split
  · next found name hnode hlast =>
    obtain rfl : content = found := by simpa [h] using hnode
    exact node_put_of_eq _ _ _ _ _ _ (List.dropLast_append_getLast? name hlast).symm
  · next hnone => exact absurd (List.getLast?_eq_some_getLast hloc) (hnone content _ h)

/-! ## Reading -/

/-- Reading a file that is there. -/
theorem readFile_eq_ok_iff (tree : FileTree) (loc : Location) (content : ByteString) :
    tree.readFile loc = .ok content ↔ tree.node loc = some (.file content) := by
  unfold readFile
  split <;> simp_all

/-- Why a location is missing depends on the nodes on the way to it only. -/
theorem missing_congr {tree new : FileTree} {loc : Location}
    (h : ∀ above, above <+: loc → new.node above = tree.node above) :
    new.missing loc = tree.missing loc := by
  refine if_congr (exists_congr fun above => and_congr_right fun habove => ?_) rfl rfl
  rw [h above ((List.mem_inits above loc).mp habove)]

/-- Reading a file depends on the nodes on the way to it only. -/
theorem readFile_congr {tree new : FileTree} {loc : Location}
    (h : ∀ above, above <+: loc → new.node above = tree.node above) :
    new.readFile loc = tree.readFile loc := by
  unfold readFile
  rw [h loc (List.prefix_refl loc), missing_congr h]

/-- Only directories can be read as such. -/
theorem readDir_eq_ok_iff (tree : FileTree) (loc : Location) :
    (∃ entries, tree.readDir loc = .ok entries) ↔ tree.node loc = some .dir := by
  unfold readDir
  split <;> simp_all

/-- An entry of the map is a child exactly when its location is that of the child. -/
theorem childOf_eq_some_iff (loc : Location) (entry : (_ : Location) × Node) (name : Segment)
    (found : Node) :
    childOf loc entry = some (name, found) ↔ entry = ⟨loc ++ [name], found⟩ := by
  obtain ⟨key, held⟩ := entry
  rcases List.eq_nil_or_concat' key with rfl | ⟨parent, last, rfl⟩
  · simp [childOf]
  · simp only [childOf, List.getLast?_concat, List.dropLast_concat]
    by_cases hparent : parent = loc
    · simp [hparent]
    · simp [hparent]

/-- The entries of a directory are the nodes of its children. -/
theorem mem_readDir {tree : FileTree} {loc : Location} {entries : List (Segment × Node)}
    (h : tree.readDir loc = .ok entries) (name : Segment) (found : Node) :
    (name, found) ∈ entries ↔ tree.node (loc ++ [name]) = some found := by
  unfold readDir at h
  rw [(tree.readDir_eq_ok_iff loc).mp ⟨entries, h⟩] at h
  obtain rfl := Except.ok.inj h
  rw [List.mem_filterMap]
  constructor
  · rintro ⟨entry, hentry, hchild⟩
    rw [childOf_eq_some_iff] at hchild
    exact AList.mem_lookup_iff.mpr (hchild ▸ hentry)
  · intro hnode
    exact ⟨_, AList.mem_lookup_iff.mp hnode, (childOf_eq_some_iff ..).mpr rfl⟩

/-- A directory lists each name once. -/
theorem nodup_readDir {tree : FileTree} {loc : Location} {entries : List (Segment × Node)}
    (h : tree.readDir loc = .ok entries) : (entries.map Prod.fst).Nodup := by
  unfold readDir at h
  rw [(tree.readDir_eq_ok_iff loc).mp ⟨entries, h⟩] at h
  obtain rfl := Except.ok.inj h
  rw [List.Nodup, List.pairwise_map, List.pairwise_filterMap]
  refine (List.nodupKeys_iff_pairwise.mp tree.nodes.nodupKeys).imp ?_
  rintro left right hkeys ⟨leftName, leftNode⟩ hleft ⟨rightName, rightNode⟩ hright hname
  rw [childOf_eq_some_iff] at hleft hright
  subst hleft hright
  exact hkeys (congrArg (loc ++ [·]) hname)

end FileTree
