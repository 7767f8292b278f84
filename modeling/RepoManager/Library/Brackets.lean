import Mathlib.Data.Int.Order.Basic
import Mathlib.Data.List.Induction
import Mathlib.Data.List.Sort

/-!
# Matching brackets

A text over any alphabet, with one symbol that opens and another that closes. The depth of a
text is the number of its opening symbols less the number of its closing ones. A text is
balanced when no prefix has a negative depth and its own depth is zero.

A top-level group is an interval of positions that starts at an opening symbol of depth zero and
ends where the depth first returns to zero. `group_concat_iff` says which groups a text gains
with one more symbol, so that a scanner can find them from left to right; in a balanced text the
groups are disjoint and hold every bracket.
-/

namespace Brackets

variable {α : Type*}

/-- The symbol after a prefix. -/
private theorem getElem?_concat_length (text : List α) (symbol : α) :
    (text ++ [symbol])[text.length]? = some symbol := by
  rw [List.getElem?_append_right (le_refl _), Nat.sub_self, List.getElem?_singleton, if_pos rfl]

/-- A position that holds a symbol comes before the end. -/
private theorem lt_length_of_getElem? {text : List α} {symbol : α} {first : ℕ}
    (h : text[first]? = some symbol) :
    first < text.length :=
  (List.getElem?_eq_some_iff.mp h).1

variable [DecidableEq α] (opening closing : α)

/-- The opening symbols of a text less its closing ones. -/
def depth (text : List α) : ℤ := text.count opening - text.count closing

/-- What one symbol adds to the depth. -/
def weight (symbol : α) : ℤ := depth opening closing [symbol]

/-- No prefix closes more than it opens. -/
def NeverBelow (text : List α) : Prop := ∀ front, front <+: text → 0 ≤ depth opening closing front

/-- Every bracket has its partner. -/
structure Balanced (text : List α) : Prop where
  neverBelow : NeverBelow opening closing text
  total : depth opening closing text = 0

/-- A bracket opens at this position, at depth zero, and is still open at the end of the text. -/
structure Started (text : List α) (first : ℕ) : Prop where
  opens : text[first]? = some opening
  outside : depth opening closing (text.take first) = 0
  inside : ∀ k, first < k → k ≤ text.length → 0 < depth opening closing (text.take k)

/-- The positions from `first` until before `after` are a top-level group. -/
structure Group (text : List α) (first after : ℕ) : Prop where
  opens : text[first]? = some opening
  outside : depth opening closing (text.take first) = 0
  lt : first < after
  le : after ≤ text.length
  inside : ∀ k, first < k → k < after → 0 < depth opening closing (text.take k)
  closes : depth opening closing (text.take after) = 0

variable {opening closing}

@[simp] theorem depth_nil : depth opening closing [] = 0 := rfl

/-- Depths add up. -/
theorem depth_append (left right : List α) :
    depth opening closing (left ++ right) =
      depth opening closing left + depth opening closing right := by
  simp only [depth, List.count_append]
  omega

/-- One more symbol adds its weight. -/
theorem depth_concat (text : List α) (symbol : α) :
    depth opening closing (text ++ [symbol]) =
      depth opening closing text + weight opening closing symbol := depth_append ..

/-- Opening goes one deeper. -/
theorem weight_opening (hne : opening ≠ closing) : weight opening closing opening = 1 := by
  simp [weight, depth, hne]

/-- Closing comes one back. -/
theorem weight_closing (hne : opening ≠ closing) : weight opening closing closing = -1 := by
  simp [weight, depth, hne.symm]

/-- Other symbols leave the depth alone. -/
theorem weight_other {symbol : α} (hopen : symbol ≠ opening) (hclose : symbol ≠ closing) :
    weight opening closing symbol = 0 := by
  simp [weight, depth, hopen, hclose]

/-- The depth one position on. -/
theorem depth_take_succ {text : List α} {k : ℕ} {symbol : α} (h : text[k]? = some symbol) :
    depth opening closing (text.take (k + 1)) =
      depth opening closing (text.take k) + weight opening closing symbol := by
  rw [List.take_add_one, h, Option.toList_some, depth_concat]

section Concat

variable {text : List α} {symbol : α} {first after : ℕ}

/-- What has started is still open. -/
theorem Started.depth_pos (h : Started opening closing text first) :
    0 < depth opening closing text := by
  have hend := h.inside text.length (lt_length_of_getElem? h.opens) (le_refl _)
  rwa [List.take_length] at hend

/-- At most one group is open. -/
theorem Started.unique {other : ℕ} (h : Started opening closing text first)
    (hother : Started opening closing text other) : first = other := by
  by_contra hne
  rcases Nat.lt_or_gt_of_ne hne with hlt | hlt
  · have hdeep := h.inside other hlt (lt_length_of_getElem? hother.opens).le
    exact absurd hother.outside hdeep.ne'
  · have hdeep := hother.inside first hlt (lt_length_of_getElem? h.opens).le
    exact absurd h.outside hdeep.ne'

/-- What starts with one more symbol: an open group stays open, or a new one starts. -/
theorem started_concat_iff (hne : opening ≠ closing) :
    Started opening closing (text ++ [symbol]) first ↔
      (Started opening closing text first ∧ 0 < depth opening closing (text ++ [symbol])) ∨
        (first = text.length ∧ symbol = opening ∧ depth opening closing text = 0) := by
  constructor
  · intro h
    have hlt := lt_length_of_getElem? h.opens
    rw [List.length_append, List.length_singleton] at hlt
    rcases Nat.lt_or_eq_of_le (Nat.le_of_lt_succ hlt) with hlt | rfl
    · refine Or.inl ⟨⟨?_, ?_, ?_⟩, h.depth_pos⟩
      · rw [← h.opens, List.getElem?_append_left hlt]
      · rw [← h.outside, List.take_append_of_le_length hlt.le]
      · intro k hk hle
        rw [← @List.take_append_of_le_length _ _ [symbol] _ hle]
        exact h.inside k hk (by rw [List.length_append]; omega)
    · have hopens := h.opens
      rw [getElem?_concat_length, Option.some.injEq] at hopens
      have houtside := h.outside
      rw [List.take_left' rfl] at houtside
      exact Or.inr ⟨rfl, hopens, houtside⟩
  · rintro (⟨h, hpos⟩ | ⟨rfl, rfl, hzero⟩)
    · have hlt := lt_length_of_getElem? h.opens
      refine ⟨?_, ?_, ?_⟩
      · rw [List.getElem?_append_left hlt, h.opens]
      · rw [List.take_append_of_le_length hlt.le, h.outside]
      · intro k hk hle
        rw [List.length_append, List.length_singleton] at hle
        rcases Nat.lt_or_eq_of_le hle with hle | rfl
        · rw [List.take_append_of_le_length (Nat.le_of_lt_succ hle)]
          exact h.inside k hk (Nat.le_of_lt_succ hle)
        · rwa [List.take_of_length_le (by simp)]
    · refine ⟨getElem?_concat_length .., by rw [List.take_left' rfl, hzero], ?_⟩
      intro k hk hle
      rw [List.take_of_length_le (by simp; omega), depth_concat, hzero, weight_opening hne]
      decide

/-- The last symbol of a group closes. -/
theorem Group.last (hne : opening ≠ closing) (h : Group opening closing text first after) :
    text[after - 1]? = some closing ∧ depth opening closing (text.take (after - 1)) = 1 := by
  obtain ⟨k, rfl⟩ : ∃ k, after = k + 1 := ⟨after - 1, by have := h.lt; omega⟩
  rw [Nat.add_sub_cancel]
  have hlt : k < text.length := h.le
  have hsymbol := List.getElem?_eq_getElem hlt
  have hcloses := h.closes
  rw [depth_take_succ hsymbol] at hcloses
  rcases Nat.lt_or_eq_of_le (Nat.le_of_lt_succ h.lt) with hk | rfl
  · have hinside := h.inside k hk (Nat.lt_succ_self k)
    by_cases hclose : text[k] = closing
    · rw [hclose, weight_closing hne] at hcloses
      exact ⟨by rw [hsymbol, hclose], by omega⟩
    · by_cases hopen : text[k] = opening
      · rw [hopen, weight_opening hne] at hcloses
        omega
      · rw [weight_other hopen hclose] at hcloses
        omega
  · have hopens := h.opens
    rw [hsymbol, Option.some.injEq] at hopens
    rw [hopens, weight_opening hne, h.outside] at hcloses
    omega

/-- What groups one more symbol adds: the open one, when the symbol closes it. -/
theorem group_concat_iff (hne : opening ≠ closing) :
    Group opening closing (text ++ [symbol]) first after ↔
      Group opening closing text first after ∨
        (after = text.length + 1 ∧ symbol = closing ∧ Started opening closing text first ∧
          depth opening closing text = 1) := by
  constructor
  · intro h
    have hle := h.le
    rw [List.length_append, List.length_singleton] at hle
    have hlt : first < text.length + 1 := lt_of_lt_of_le h.lt hle
    rcases Nat.lt_or_eq_of_le hle with hle | rfl
    · have hle := Nat.le_of_lt_succ hle
      refine Or.inl ⟨?_, ?_, h.lt, hle, ?_, ?_⟩
      · rw [← h.opens, List.getElem?_append_left (lt_of_lt_of_le h.lt hle)]
      · rw [← h.outside, List.take_append_of_le_length (Nat.le_of_lt_succ hlt)]
      · intro k hk hlast
        rw [← @List.take_append_of_le_length _ _ [symbol] _ (hlast.le.trans hle)]
        exact h.inside k hk hlast
      · rw [← h.closes, List.take_append_of_le_length hle]
    · obtain ⟨hlast, hone⟩ := h.last hne
      rw [Nat.add_sub_cancel, getElem?_concat_length, Option.some.injEq] at hlast
      rw [Nat.add_sub_cancel, List.take_left' rfl] at hone
      have hfirst : first ≠ text.length := by
        rintro rfl
        have houtside := h.outside
        rw [List.take_left' rfl] at houtside
        omega
      have hlt : first < text.length := by omega
      refine Or.inr ⟨rfl, hlast, ⟨?_, ?_, ?_⟩, hone⟩
      · rw [← h.opens, List.getElem?_append_left hlt]
      · rw [← h.outside, List.take_append_of_le_length hlt.le]
      · intro k hk hle
        rw [← @List.take_append_of_le_length _ _ [symbol] _ hle]
        exact h.inside k hk (Nat.lt_succ_of_le hle)
  · rintro (h | ⟨rfl, rfl, h, hone⟩)
    · have hlt := lt_of_lt_of_le h.lt h.le
      refine ⟨?_, ?_, h.lt, h.le.trans (by simp), ?_, ?_⟩
      · rw [List.getElem?_append_left hlt, h.opens]
      · rw [List.take_append_of_le_length hlt.le, h.outside]
      · intro k hk hlast
        rw [List.take_append_of_le_length (hlast.le.trans h.le)]
        exact h.inside k hk hlast
      · rw [List.take_append_of_le_length h.le, h.closes]
    · have hlt := lt_length_of_getElem? h.opens
      refine ⟨?_, ?_, by omega, by simp, ?_, ?_⟩
      · rw [List.getElem?_append_left hlt, h.opens]
      · rw [List.take_append_of_le_length hlt.le, h.outside]
      · intro k hk hlast
        rw [List.take_append_of_le_length (Nat.le_of_lt_succ hlast)]
        exact h.inside k hk (Nat.le_of_lt_succ hlast)
      · rw [List.take_of_length_le (by simp), depth_concat, hone, weight_closing hne]
        decide

end Concat

section Cover

variable {text : List α}

/-- A prefix of a text closes no more than the text does. -/
theorem NeverBelow.of_append {left right : List α}
    (h : NeverBelow opening closing (left ++ right)) : NeverBelow opening closing left :=
  fun front hfront => h front (hfront.trans (List.prefix_append ..))

/-- One more symbol keeps the depth from going below. -/
theorem NeverBelow.concat {symbol : α} (h : NeverBelow opening closing text)
    (hdepth : 0 ≤ depth opening closing (text ++ [symbol])) :
    NeverBelow opening closing (text ++ [symbol]) := by
  intro front hfront
  rcases List.prefix_concat_iff.mp hfront with rfl | hfront
  · exact hdepth
  · exact h front hfront

/-- At a positive depth some group is open. -/
theorem NeverBelow.exists_started (hne : opening ≠ closing)
    (h : NeverBelow opening closing text) (hpos : 0 < depth opening closing text) :
    ∃ first, Started opening closing text first := by
  induction text using List.reverseRecOn with
  | nil => exact absurd hpos (lt_irrefl 0)
  | append_singleton text symbol ih =>
    rcases (h.of_append text (List.prefix_refl _)).lt_or_eq with hdeep | hzero
    · obtain ⟨first, hstarted⟩ := ih h.of_append hdeep
      exact ⟨first, (started_concat_iff hne).mpr (Or.inl ⟨hstarted, hpos⟩)⟩
    · refine ⟨text.length, (started_concat_iff hne).mpr (Or.inr ⟨rfl, ?_, hzero.symm⟩)⟩
      by_contra hopen
      rw [depth_concat, ← hzero] at hpos
      by_cases hclose : symbol = closing
      · rw [hclose, weight_closing hne] at hpos
        omega
      · rw [weight_other hopen hclose] at hpos
        omega

/-- When a group is open, one more symbol leaves it open or ends it. -/
theorem Started.concat {symbol : α} {first : ℕ} (hne : opening ≠ closing)
    (h : Started opening closing text first)
    (hdepth : 0 ≤ depth opening closing (text ++ [symbol])) :
    Started opening closing (text ++ [symbol]) first ∨
      Group opening closing (text ++ [symbol]) first (text.length + 1) := by
  rcases hdepth.lt_or_eq with hpos | hzero
  · exact Or.inl ((started_concat_iff hne).mpr (Or.inl ⟨h, hpos⟩))
  · have hdeep := h.depth_pos
    rw [depth_concat] at hzero
    have hopen : symbol ≠ opening := by
      rintro rfl
      rw [weight_opening hne] at hzero
      omega
    have hclose : symbol = closing := by
      by_contra hclose
      rw [weight_other hopen hclose] at hzero
      omega
    rw [hclose, weight_closing hne] at hzero
    exact Or.inr ((group_concat_iff hne).mpr (Or.inr ⟨rfl, hclose, h, by omega⟩))

/-- Every bracket lies in a group, or after the start of the open one. -/
theorem NeverBelow.cover (hne : opening ≠ closing) (h : NeverBelow opening closing text) {k : ℕ}
    {symbol : α} (hk : text[k]? = some symbol) (hbracket : symbol = opening ∨ symbol = closing) :
    (∃ first after, Group opening closing text first after ∧ first ≤ k ∧ k < after) ∨
      ∃ first, Started opening closing text first ∧ first ≤ k := by
  induction text using List.reverseRecOn with
  | nil => cases hk
  | append_singleton text last ih =>
    have hdepth := h _ (List.prefix_refl _)
    have hlt := lt_length_of_getElem? hk
    rw [List.length_append, List.length_singleton] at hlt
    -- a group that was open covers the rest, whether it stays open or ends here
    have hopen : ∀ first, Started opening closing text first → first ≤ k →
        (∃ first after, Group opening closing (text ++ [last]) first after ∧
          first ≤ k ∧ k < after) ∨
          ∃ first, Started opening closing (text ++ [last]) first ∧ first ≤ k := by
      intro first hstarted hle
      rcases hstarted.concat hne hdepth with hopen | hgroup
      · exact Or.inr ⟨first, hopen, hle⟩
      · exact Or.inl ⟨first, _, hgroup, hle, hlt⟩
    rcases Nat.lt_or_eq_of_le (Nat.le_of_lt_succ hlt) with hlt | rfl
    · rw [List.getElem?_append_left hlt] at hk
      rcases ih h.of_append hk with ⟨first, after, hgroup, hcover⟩ | ⟨first, hstarted, hle⟩
      · exact Or.inl ⟨first, after, (group_concat_iff hne).mpr (Or.inl hgroup), hcover⟩
      · exact hopen first hstarted hle
    · rw [getElem?_concat_length, Option.some.injEq] at hk
      subst hk
      rcases (h.of_append text (List.prefix_refl _)).lt_or_eq with hdeep | hzero
      · obtain ⟨first, hstarted⟩ := h.of_append.exists_started hne hdeep
        exact hopen first hstarted (lt_length_of_getElem? hstarted.opens).le
      · rcases hbracket with rfl | rfl
        · exact Or.inr ⟨text.length,
            (started_concat_iff hne).mpr (Or.inr ⟨rfl, rfl, hzero.symm⟩), le_refl _⟩
        · rw [depth_concat, weight_closing hne] at hdepth
          omega

/-- In a balanced text every bracket lies in a group. -/
theorem Balanced.cover (hne : opening ≠ closing) (h : Balanced opening closing text) {k : ℕ}
    {symbol : α} (hk : text[k]? = some symbol) (hbracket : symbol = opening ∨ symbol = closing) :
    ∃ first after, Group opening closing text first after ∧ first ≤ k ∧ k < after := by
  rcases h.neverBelow.cover hne hk hbracket with hgroup | ⟨first, hstarted, -⟩
  · exact hgroup
  · exact absurd h.total hstarted.depth_pos.ne'

/-- What a group encloses is balanced. -/
theorem Group.balanced {first after : ℕ} (hne : opening ≠ closing)
    (h : Group opening closing text first after) :
    Balanced opening closing ((text.take (after - 1)).drop (first + 1)) := by
  obtain ⟨hlast, hone⟩ := h.last hne
  have hle : first + 1 ≤ after - 1 := by
    by_contra hle
    have hsame : after - 1 = first := by have := h.lt; omega
    rw [hsame, h.opens, Option.some.injEq] at hlast
    exact hne hlast
  have hfirst : depth opening closing (text.take (first + 1)) = 1 := by
    rw [depth_take_succ h.opens, h.outside, weight_opening hne, Int.zero_add]
  -- the depth inside is the depth of the text, less the bracket that opened the group
  have hshift : ∀ k, first + 1 ≤ k →
      depth opening closing (text.take k) =
        1 + depth opening closing ((text.take k).drop (first + 1)) := by
    intro k hk
    conv_lhs => rw [← List.take_append_drop (first + 1) (text.take k)]
    rw [depth_append, List.take_take, Nat.min_eq_left hk, hfirst]
  constructor
  · intro front hfront
    rw [List.prefix_iff_eq_take.mp hfront, List.take_drop, List.take_take]
    have hlength := hfront.length_le
    rw [List.length_drop, List.length_take] at hlength
    have hend : first + 1 + front.length ≤ after - 1 := by have := h.le; omega
    have hpos := h.inside (first + 1 + front.length) (by omega) (by omega)
    rw [Nat.min_eq_left hend]
    rw [hshift _ (Nat.le_add_right ..)] at hpos
    omega
  · rw [hshift _ hle] at hone
    omega

end Cover

end Brackets
