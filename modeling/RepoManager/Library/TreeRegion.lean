import RepoManager.Library.FileTree

/-!
# Regions of a tree

A region is a set of locations that contains all that is above them. Two trees agree on a region
when its locations hold the same nodes and list the same children in the same order. Reading,
opening and writing at a location of the region cannot tell such trees apart; opening and writing
below a location outside it changes nothing of the region.
-/

open LexicalPath

namespace FileTree

/-- The children of a location, in the order of the directory. -/
def children (tree : FileTree) (loc : Location) : List (Segment × Node) :=
  tree.nodes.entries.filterMap (childOf loc)

/-- A set of locations that contains all that is above them. -/
structure Region where
  carrier : Set Location
  above : ∀ loc ∈ carrier, ∀ way, way <+: loc → way ∈ carrier

instance : Membership Location Region := ⟨fun region loc => loc ∈ region.carrier⟩

/-- A child is in a region only with its directory. -/
theorem Region.parent {region : Region} {loc : Location} {name : Segment}
    (h : loc ++ [name] ∈ region) : loc ∈ region :=
  region.above _ h loc (List.prefix_append loc [name])

/-- Two trees agree on a region. -/
structure AgreeOn (region : Region) (left right : FileTree) : Prop where
  node_eq : ∀ loc ∈ region, left.node loc = right.node loc
  children_eq : ∀ loc ∈ region, left.children loc = right.children loc

section AgreeOn

variable {region : Region} {left right : FileTree}

theorem AgreeOn.refl (tree : FileTree) : AgreeOn region tree tree := ⟨fun _ _ => rfl, fun _ _ => rfl⟩

theorem AgreeOn.symm (h : AgreeOn region left right) : AgreeOn region right left where
  node_eq loc hloc := (h.node_eq loc hloc).symm
  children_eq loc hloc := (h.children_eq loc hloc).symm

theorem AgreeOn.trans {third : FileTree} (h : AgreeOn region left right)
    (h' : AgreeOn region right third) : AgreeOn region left third where
  node_eq loc hloc := (h.node_eq loc hloc).trans (h'.node_eq loc hloc)
  children_eq loc hloc := (h.children_eq loc hloc).trans (h'.children_eq loc hloc)

/-! ## Reading -/

/-- Why a location of the region is missing is the same. -/
theorem AgreeOn.missing_eq (h : AgreeOn region left right) {loc : Location} (hloc : loc ∈ region) :
    left.missing loc = right.missing loc :=
  missing_congr fun way hway => h.node_eq way (region.above loc hloc way hway)

/-- A file of the region reads the same. -/
theorem AgreeOn.readFile_eq (h : AgreeOn region left right) {loc : Location}
    (hloc : loc ∈ region) : left.readFile loc = right.readFile loc :=
  readFile_congr fun way hway => h.node_eq way (region.above loc hloc way hway)

/-- A directory of the region lists the same, in the same order. -/
theorem AgreeOn.readDir_eq (h : AgreeOn region left right) {loc : Location}
    (hloc : loc ∈ region) : left.readDir loc = right.readDir loc := by
  have hchildren := h.children_eq loc hloc
  simp only [children] at hchildren
  rw [readDir, readDir, h.node_eq loc hloc, h.missing_eq hloc, hchildren]

end AgreeOn

/-! ## Putting a node -/

section Entries

variable (loc : Location) (name : Segment)

/-- Erasing a child takes it from the children of its directory. -/
theorem filterMap_kerase_self (entries : List ((_ : Location) × Node)) :
    (entries.kerase (loc ++ [name])).filterMap (childOf loc) =
      (entries.filterMap (childOf loc)).eraseP fun child => child.1 = name := by
  induction entries with
  | nil => rfl
  | cons entry rest ih =>
    by_cases hkey : loc ++ [name] = entry.1
    · have hchild : childOf loc entry = some (name, entry.2) :=
        (childOf_eq_some_iff ..).mpr (Sigma.ext hkey.symm HEq.rfl)
      rw [List.kerase_cons_eq hkey, List.filterMap_cons_some hchild,
        List.eraseP_cons_of_pos (by simp)]
    · rw [List.kerase_cons_ne hkey]
      cases hchild : childOf loc entry with
      | none => rw [List.filterMap_cons_none hchild, List.filterMap_cons_none hchild, ih]
      | some child =>
        have hname : child.1 ≠ name := by
          rintro rfl
          exact hkey (congrArg Sigma.fst ((childOf_eq_some_iff ..).mp hchild)).symm
        rw [List.filterMap_cons_some hchild, List.filterMap_cons_some hchild,
          List.eraseP_cons_of_neg (by simpa using hname), ih]

/-- Erasing a child leaves the children of other directories. -/
theorem filterMap_kerase_of_ne {other : Location} (h : other ≠ loc)
    (entries : List ((_ : Location) × Node)) :
    (entries.kerase (loc ++ [name])).filterMap (childOf other) =
      entries.filterMap (childOf other) := by
  induction entries with
  | nil => rfl
  | cons entry rest ih =>
    by_cases hkey : loc ++ [name] = entry.1
    · have hchild : childOf other entry = none := by
        rw [Option.eq_none_iff_forall_ne_some]
        intro child hchild
        have hentry := congrArg Sigma.fst ((childOf_eq_some_iff ..).mp hchild)
        exact h (List.append_inj' (hkey.trans hentry) rfl).1.symm
      rw [List.kerase_cons_eq hkey, List.filterMap_cons_none hchild]
    · rw [List.kerase_cons_ne hkey, List.filterMap_cons, List.filterMap_cons, ih]

end Entries

section Put

variable (tree : FileTree) (loc : Location) (name : Segment) (new : Node)
  (hparent : tree.node loc = some .dir) (hnode : tree.node (loc ++ [name]) ≠ some .dir)

/-- The node that was put comes first in its directory. -/
theorem children_put_self : (tree.put loc name new hparent hnode).children loc =
    (name, new) :: (tree.children loc).eraseP fun child => child.1 = name := by
  have hchild : childOf loc ⟨loc ++ [name], new⟩ = some (name, new) :=
    (childOf_eq_some_iff ..).mpr rfl
  have hentries : (tree.nodes.insert (loc ++ [name]) new).entries =
      ⟨loc ++ [name], new⟩ :: tree.nodes.entries.kerase (loc ++ [name]) := AList.entries_insert ..
  rw [children, put, hentries, List.filterMap_cons_some hchild, filterMap_kerase_self]
  rfl

/-- Other directories list what they did. -/
theorem children_put_of_ne {other : Location} (h : other ≠ loc) :
    (tree.put loc name new hparent hnode).children other = tree.children other := by
  have hchild : childOf other ⟨loc ++ [name], new⟩ = none := by
    rw [Option.eq_none_iff_forall_ne_some]
    intro child hchild
    have hentry := congrArg Sigma.fst ((childOf_eq_some_iff ..).mp hchild)
    exact h (List.append_inj' hentry rfl).1.symm
  have hentries : (tree.nodes.insert (loc ++ [name]) new).entries =
      ⟨loc ++ [name], new⟩ :: tree.nodes.entries.kerase (loc ++ [name]) := AList.entries_insert ..
  rw [children, put, hentries, List.filterMap_cons_none hchild, filterMap_kerase_of_ne loc name h]
  rfl

/-- Putting a node below a location outside a region changes nothing of the region. -/
theorem agreeOn_put {region : Region} (h : loc ∉ region) :
    AgreeOn region (tree.put loc name new hparent hnode) tree where
  node_eq other hother := by
    apply node_put_of_ne
    rintro rfl
    exact h (Region.parent hother)
  children_eq other hother := by
    apply children_put_of_ne
    rintro rfl
    exact h hother

end Put

section Operations

variable {region : Region} {left right : FileTree}

/-- Putting the same node keeps agreement. -/
theorem AgreeOn.put (h : AgreeOn region left right) (loc : Location) (name : Segment) (new : Node)
    (hleft : left.node loc = some .dir) (hleft' : left.node (loc ++ [name]) ≠ some .dir)
    (hright : right.node loc = some .dir) (hright' : right.node (loc ++ [name]) ≠ some .dir) :
    AgreeOn region (left.put loc name new hleft hleft') (right.put loc name new hright hright') where
  node_eq other hother := by
    by_cases heq : other = loc ++ [name]
    · rw [node_put_of_eq _ _ _ _ _ _ heq, node_put_of_eq _ _ _ _ _ _ heq]
    · rw [node_put_of_ne _ _ _ _ _ _ heq, node_put_of_ne _ _ _ _ _ _ heq, h.node_eq other hother]
  children_eq other hother := by
    by_cases heq : other = loc
    · subst heq
      rw [children_put_self, children_put_self, h.children_eq other hother]
    · rw [children_put_of_ne _ _ _ _ _ _ heq, children_put_of_ne _ _ _ _ _ _ heq,
        h.children_eq other hother]

/-- Opening a location of the region for writing fails alike, or leaves trees that agree. -/
theorem AgreeOn.create (h : AgreeOn region left right) {loc : Location} (hloc : loc ∈ region) :
    (∃ err, left.create loc = .error err ∧ right.create loc = .error err) ∨
      ∃ left' right', left.create loc = .ok left' ∧ right.create loc = .ok right' ∧
        AgreeOn region left' right' := by
  rcases List.eq_nil_or_concat' loc with rfl | ⟨parent, name, rfl⟩
  · exact Or.inl ⟨.isDirectory, create_root left, create_root right⟩
  have hself := h.node_eq _ hloc
  have hparent := h.node_eq _ (Region.parent hloc)
  rw [create_child, create_child]
  by_cases hdir : left.node (parent ++ [name]) = some .dir
  · exact Or.inl ⟨.isDirectory, dif_pos hdir, dif_pos (hself.symm.trans hdir)⟩
  · have hdir' : right.node (parent ++ [name]) ≠ some .dir := fun hbad => hdir (hself.trans hbad)
    by_cases hopen : left.node parent = some .dir
    · have hopen' := hparent.symm.trans hopen
      simp only [dif_neg hdir, dif_neg hdir', dif_pos hopen, dif_pos hopen']
      exact Or.inr ⟨_, _, rfl, rfl, h.put ..⟩
    · have hopen' : right.node parent ≠ some .dir := fun hbad => hopen (hparent.trans hbad)
      simp only [dif_neg hdir, dif_neg hdir', dif_neg hopen, dif_neg hopen', h.missing_eq hloc]
      exact Or.inl ⟨_, rfl, rfl⟩

/-- What a write to a child is: a node put in its directory, if the child is a file. -/
theorem write_child (tree : FileTree) {loc : Location} {name : Segment} {content : ByteString}
    (h : tree.node (loc ++ [name]) = some (.file content)) (bytes : ByteString) :
    tree.write (loc ++ [name]) bytes = tree.put loc name (.file (overlay bytes content))
      (tree.parent_dir h) (by rw [h]; exact nofun) := by
  unfold write
  split
  · next found last hnode hlast =>
    obtain rfl : content = found := by simpa [h] using hnode
    obtain rfl : name = last := by simpa using hlast
    simp only [List.dropLast_concat]
  · next hnone => exact absurd List.getLast?_concat (hnone content name h)

/-- Nothing is written where no file is. -/
theorem write_of_not_file (tree : FileTree) {loc : Location}
    (h : ∀ content, tree.node loc ≠ some (.file content)) (bytes : ByteString) :
    tree.write loc bytes = tree := by
  unfold write
  split
  · next found last hnode _ => exact absurd hnode (h found)
  · rfl

/-- The root is no file. -/
theorem node_nil_ne_file (tree : FileTree) (content : ByteString) :
    tree.node [] ≠ some (.file content) := by
  simp [node, tree.root]

/-- Writing at a location of the region keeps agreement. -/
theorem AgreeOn.write (h : AgreeOn region left right) {loc : Location} (hloc : loc ∈ region)
    (bytes : ByteString) : AgreeOn region (left.write loc bytes) (right.write loc bytes) := by
  have hself := h.node_eq loc hloc
  by_cases hfile : ∃ content, left.node loc = some (.file content)
  · obtain ⟨content, hcontent⟩ := hfile
    rcases List.eq_nil_or_concat' loc with rfl | ⟨parent, name, rfl⟩
    · exact absurd hcontent (left.node_nil_ne_file content)
    · rw [write_child left hcontent, write_child right (hself ▸ hcontent)]
      exact h.put ..
  · have hnone : ∀ content, left.node loc ≠ some (.file content) := not_exists.mp hfile
    rw [write_of_not_file left hnone, write_of_not_file right (hself ▸ hnone)]
    exact h

/-- Opening below a location outside the region changes nothing of the region. -/
theorem agreeOn_create {tree new : FileTree} {loc : Location} {name : Segment}
    (hloc : loc ∉ region) (h : tree.create (loc ++ [name]) = .ok new) : AgreeOn region new tree := by
  rw [create_child] at h
  split at h
  · contradiction
  · split at h
    · obtain rfl := Except.ok.inj h
      exact agreeOn_put _ _ _ _ _ _ hloc
    · contradiction

/-- Writing below a location outside the region changes nothing of the region. -/
theorem agreeOn_write (tree : FileTree) {loc : Location} (name : Segment) (hloc : loc ∉ region)
    (bytes : ByteString) : AgreeOn region (tree.write (loc ++ [name]) bytes) tree := by
  by_cases hfile : ∃ content, tree.node (loc ++ [name]) = some (.file content)
  · obtain ⟨content, hcontent⟩ := hfile
    rw [write_child tree hcontent]
    exact agreeOn_put _ _ _ _ _ _ hloc
  · rw [write_of_not_file tree (not_exists.mp hfile)]
    exact AgreeOn.refl tree

end Operations

end FileTree
