import Mathlib.Data.List.Sort

/-!
# Sorting and removing duplicates

A function that sorts a list and drops the duplicates is known by two facts: it keeps the members,
and its result ascends strictly. Two such results with the same members are equal, so sorting again
after more of the same members changes nothing.

`sortUnique` is one such function, by insertion.
-/

/-- The function sorts a list and removes its duplicates. -/
structure SortsUnique {α : Type*} [LT α] (unique : List α → List α) : Prop where
  mem_iff : ∀ list item, item ∈ unique list ↔ item ∈ list
  ascending : ∀ list, (unique list).Pairwise (· < ·)

namespace SortsUnique

variable {α : Type*} [LT α] [Std.Asymm (α := α) (· < ·)] {unique : List α → List α}

/-- The members determine the result. -/
theorem congr (hunique : SortsUnique unique) {left right : List α}
    (hmem : ∀ item, item ∈ left ↔ item ∈ right) : unique left = unique right := by
  apply (hunique.ascending left).eq_of_mem_iff (hunique.ascending right)
  intro item
  rw [hunique.mem_iff, hunique.mem_iff, hmem]

/-- Items that were appended before are absorbed. -/
theorem absorb (hunique : SortsUnique unique) (own others : List α) :
    unique (unique (own ++ others) ++ others) = unique (own ++ others) := by
  apply hunique.congr
  intro item
  rw [List.mem_append, hunique.mem_iff, List.mem_append, or_assoc, or_self]

end SortsUnique

section Insertion

variable {α : Type*} [LT α] [DecidableLT α] [DecidableEq α]

/-- Insert an item into an ascending list that may hold it already. -/
def insertNew (item : α) : List α → List α
  | [] => [item]
  | head :: rest =>
    if item < head then item :: head :: rest
    else if item = head then head :: rest
    else head :: insertNew item rest

/-- Sort a list and remove its duplicates. -/
def sortUnique (list : List α) : List α := list.foldr insertNew []

/-- Insertion adds its item to the members. -/
theorem mem_insertNew (item other : α) (list : List α) :
    other ∈ insertNew item list ↔ other = item ∨ other ∈ list := by
  induction list with
  | nil => rw [insertNew, List.mem_singleton, List.mem_nil_iff, or_false]
  | cons head rest ih =>
    rw [insertNew]
    split
    · exact List.mem_cons
    · split
      · next _ hsame => rw [hsame, List.mem_cons, or_self_left]
      · rw [List.mem_cons, ih, List.mem_cons, or_left_comm]

variable [IsTrans α (· < ·)] [Std.Trichotomous (α := α) (· < ·)]

/-- Insertion keeps an ascending list ascending. -/
theorem pairwise_insertNew (item : α) {list : List α} (h : list.Pairwise (· < ·)) :
    (insertNew item list).Pairwise (· < ·) := by
  induction list with
  | nil => exact List.pairwise_singleton ..
  | cons head rest ih =>
    obtain ⟨hhead, hrest⟩ := List.pairwise_cons.mp h
    rw [insertNew]
    split
    · next hless =>
      rw [List.pairwise_cons]
      refine ⟨fun other hother => ?_, h⟩
      rcases List.mem_cons.mp hother with rfl | hother
      · exact hless
      · exact trans_of (· < ·) hless (hhead other hother)
    · split
      · exact h
      · next hnot hne =>
        have hless : head < item :=
          ((trichotomous_of (· < ·) item head).resolve_left hnot).resolve_left hne
        rw [List.pairwise_cons]
        refine ⟨fun other hother => ?_, ih hrest⟩
        rcases (mem_insertNew ..).mp hother with rfl | hother
        · exact hless
        · exact hhead other hother

/-- Insertion sort without duplicates sorts and removes duplicates. -/
theorem sortsUnique_sortUnique : SortsUnique (sortUnique (α := α)) where
  mem_iff list item := by
    induction list with
    | nil => exact Iff.rfl
    | cons head rest ih =>
      change item ∈ insertNew head (sortUnique rest) ↔ _
      rw [mem_insertNew, ih, List.mem_cons]
  ascending list := by
    induction list with
    | nil => exact List.Pairwise.nil
    | cons head rest ih => exact pairwise_insertNew head ih

end Insertion
