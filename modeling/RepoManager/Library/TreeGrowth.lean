import RepoManager.Library.TreeRegion

/-!
# Growing trees

A tree grows when its directories stay what they are, each with the same directories in it and in
the same order, and no file goes away. Opening a file for writing and writing it are growth: they
make files in directories that exist, and never a directory.
-/

open LexicalPath

namespace FileTree

/-- The child is a directory. -/
def IsDir (child : Segment × Node) : Prop := child.2 = .dir

instance : DecidablePred IsDir := fun child => inferInstanceAs (Decidable (child.2 = .dir))

/-- The directories of a location, in the order of the directory. -/
def directories (tree : FileTree) (loc : Location) : List (Segment × Node) :=
  (tree.children loc).filter (IsDir ·)

/-- The same directories, and no fewer files. -/
structure Grows (before after : FileTree) : Prop where
  dir_iff : ∀ loc, after.node loc = some .dir ↔ before.node loc = some .dir
  file : ∀ loc content, before.node loc = some (.file content) →
    ∃ held, after.node loc = some (.file held)
  directories_eq : ∀ loc, after.directories loc = before.directories loc

theorem Grows.refl (tree : FileTree) : Grows tree tree where
  dir_iff _ := Iff.rfl
  file _ content h := ⟨content, h⟩
  directories_eq _ := rfl

theorem Grows.trans {first second third : FileTree} (h : Grows first second)
    (h' : Grows second third) : Grows first third where
  dir_iff loc := (h'.dir_iff loc).trans (h.dir_iff loc)
  file loc content hfile := by
    obtain ⟨held, hheld⟩ := h.file loc content hfile
    exact h'.file loc held hheld
  directories_eq loc := (h'.directories_eq loc).trans (h.directories_eq loc)

/-- The children of a location are the nodes below it. -/
theorem mem_children (tree : FileTree) (loc : Location) (name : Segment) (found : Node) :
    (name, found) ∈ tree.children loc ↔ tree.node (loc ++ [name]) = some found := by
  rw [children, List.mem_filterMap]
  constructor
  · intro h
    obtain ⟨entry, hentry, hchild⟩ := h
    rw [childOf_eq_some_iff] at hchild
    exact AList.mem_lookup_iff.mpr (hchild ▸ hentry)
  · intro hnode
    exact ⟨_, AList.mem_lookup_iff.mp hnode, (childOf_eq_some_iff ..).mpr rfl⟩

/-- Erasing what a filter drops does not change what it keeps. -/
theorem filter_eraseP_of_imp {α : Type*} {p q : α → Bool} {list : List α}
    (h : ∀ item ∈ list, p item = true → q item = false) :
    (list.eraseP p).filter q = list.filter q := by
  induction list with
  | nil => rfl
  | cons head rest ih =>
    by_cases hhead : p head = true
    · have hdrop := h head List.mem_cons_self hhead
      rw [List.eraseP_cons_of_pos hhead, List.filter_cons_of_neg (by simpa using hdrop)]
    · have hrest : ∀ item ∈ rest, p item = true → q item = false := fun item hitem =>
        h item (List.mem_cons_of_mem _ hitem)
      rw [List.eraseP_cons_of_neg hhead, List.filter_cons, List.filter_cons, ih hrest]

/-- Putting a file where no directory is. -/
theorem grows_put (tree : FileTree) (loc : Location) (name : Segment) (content : ByteString)
    (hparent : tree.node loc = some .dir) (hnode : tree.node (loc ++ [name]) ≠ some .dir) :
    Grows tree (tree.put loc name (.file content) hparent hnode) where
  dir_iff other := by
    by_cases heq : other = loc ++ [name]
    · rw [node_put_of_eq _ _ _ _ _ _ heq, heq]
      simp [hnode]
    · rw [node_put_of_ne _ _ _ _ _ _ heq]
  file other held hheld := by
    by_cases heq : other = loc ++ [name]
    · exact ⟨content, node_put_of_eq _ _ _ _ _ _ heq⟩
    · exact ⟨held, (node_put_of_ne _ _ _ _ _ _ heq).trans hheld⟩
  directories_eq other := by
    rw [directories, directories]
    by_cases heq : other = loc
    · subst heq
      have hnew : ¬ IsDir (name, Node.file content) := nofun
      rw [children_put_self, List.filter_cons_of_neg (by simpa using hnew)]
      apply filter_eraseP_of_imp
      intro child hchild hname
      obtain ⟨childName, found⟩ := child
      obtain rfl : childName = name := by simpa using hname
      have hfound := (tree.mem_children other childName found).mp hchild
      rw [hfound, ne_eq, Option.some.injEq] at hnode
      exact decide_eq_false hnode
    · rw [children_put_of_ne _ _ _ _ _ _ heq]

/-- Opening for writing. -/
theorem grows_create {tree new : FileTree} {loc : Location} (h : tree.create loc = .ok new) :
    Grows tree new := by
  obtain ⟨parent, name, rfl, hparent, hnode⟩ := (tree.create_eq_ok_iff loc).mp ⟨new, h⟩
  rw [create_child, dif_neg hnode, dif_pos hparent] at h
  obtain rfl := Except.ok.inj h
  exact grows_put ..

/-- Writing through a handle. -/
theorem grows_write (tree : FileTree) (loc : Location) (bytes : ByteString) :
    Grows tree (tree.write loc bytes) := by
  by_cases hfile : ∃ content, tree.node loc = some (.file content)
  · obtain ⟨content, hcontent⟩ := hfile
    rcases List.eq_nil_or_concat' loc with rfl | ⟨parent, name, rfl⟩
    · exact absurd hcontent (tree.node_nil_ne_file content)
    · rw [write_child tree hcontent]
      exact grows_put ..
  · rw [write_of_not_file tree (not_exists.mp hfile)]
    exact Grows.refl tree

end FileTree
