import RepoManager.Library.Brackets
import RepoManager.Library.LexicalPath

/-!
# The groups of a path template

`_braceIndices` scans a template for its top-level groups in braces. The loop keeps the depth of
what it has read, the start of the open group and the intervals found so far; `Scanned` is the
invariant that relates them to the brackets of the text, one byte after another.

`StripPrefix` slices the template at these indices. A slice out of range would be a panic, here
`none`; `braceIndices_exact` shows that there is none, whatever the template is.
-/

open Brackets

namespace RepoManager

/-- The byte that opens a group. -/
def openBrace : UInt8 := 0x7b

/-- The byte that closes a group. -/
def closeBrace : UInt8 := 0x7d

theorem openBrace_ne : openBrace ≠ closeBrace := by decide

/-- The loop of `_braceIndices`, from position `i` on. -/
def braceScan (i : ℕ) (level : ℤ) (idx : ℕ) (idxs : List ℕ) : ByteString → List ℕ
  | [] => if level ≠ 0 then [] else idxs
  | byte :: rest =>
    if byte = openBrace then
      braceScan (i + 1) (level + 1) (if level + 1 = 1 then i else idx) idxs rest
    else if byte = closeBrace then
      if level - 1 = 0 then braceScan (i + 1) (level - 1) idx (idxs ++ [idx, i + 1]) rest
      else if level - 1 < 0 then []
      else braceScan (i + 1) (level - 1) idx idxs rest
    else braceScan (i + 1) level idx idxs rest

/-- `_braceIndices`; the nil slice is the empty list. -/
def braceIndices (s : ByteString) : List ℕ := braceScan 0 0 0 [] s

/-- `text[low:high]`, where `none` is the panic of a bound out of range. -/
def slice (text : ByteString) (low high : ℕ) : Option ByteString :=
  if low ≤ high ∧ high ≤ text.length then some ((text.take high).drop low) else none

/-- The raw pieces of a prefix, as the loop of `StripPrefix` and the line after it slice them. -/
def rawPieces (pre : ByteString) : ℕ → List ℕ → Option (List ByteString)
  | fin, [] => (slice pre fin pre.length).map fun raw => [raw]
  | _, [_] => none
  | fin, first :: after :: rest => do
    let raw ← slice pre fin first
    let raws ← rawPieces pre after rest
    some (raw :: raws)

/-- The indices of a list of intervals. -/
def flatten (intervals : List (ℕ × ℕ)) : List ℕ := intervals.flatMap fun i => [i.1, i.2]

/-- Pieces and groups in turn. -/
def weave : List ByteString → List ByteString → ByteString
  | raw :: raws, group :: groups => raw ++ (group ++ weave raws groups)
  | raws, [] => raws.flatten
  | [], groups => groups.flatten

/-- The intervals are the top-level groups of the text from left to right, with all its braces. -/
structure TopLevel (s : ByteString) (intervals : List (ℕ × ℕ)) : Prop where
  ordered : intervals.Pairwise fun before later => before.2 ≤ later.1
  groups : ∀ first after, (first, after) ∈ intervals ↔ Group openBrace closeBrace s first after
  ends : ∀ i ∈ intervals, i.1 + 1 < i.2 ∧ i.2 ≤ s.length ∧ s[i.1]? = some openBrace ∧
    s[i.2 - 1]? = some closeBrace ∧
    Balanced openBrace closeBrace ((s.take (i.2 - 1)).drop (i.1 + 1))
  outside : ∀ k byte, s[k]? = some byte → byte = openBrace ∨ byte = closeBrace →
    ∃ i ∈ intervals, i.1 ≤ k ∧ k < i.2

/-- What the loop knows after it has read a text. -/
structure Scanned (text : ByteString) (level : ℤ) (idx : ℕ) (intervals : List (ℕ × ℕ)) :
    Prop where
  level_eq : level = depth openBrace closeBrace text
  neverBelow : NeverBelow openBrace closeBrace text
  started : 0 < level → Started openBrace closeBrace text idx
  ordered : intervals.Pairwise fun before later => before.2 ≤ later.1
  groups : ∀ first after, (first, after) ∈ intervals ↔ Group openBrace closeBrace text first after

@[simp] theorem flatten_concat (intervals : List (ℕ × ℕ)) (first after : ℕ) :
    flatten (intervals ++ [(first, after)]) = flatten intervals ++ [first, after] := by
  rw [flatten, List.flatMap_append]
  rfl

/-- Nothing is known before the first byte. -/
theorem scanned_nil : Scanned [] 0 0 [] where
  level_eq := rfl
  neverBelow front hfront := by rw [List.prefix_nil.mp hfront, depth_nil]
  started hpos := absurd hpos (lt_irrefl 0)
  ordered := List.Pairwise.nil
  groups first after := by
    constructor
    · exact fun h => absurd h List.not_mem_nil
    · intro h
      cases h.opens

section Step

variable {text : ByteString} {level : ℤ} {idx : ℕ} {intervals : List (ℕ × ℕ)}

/-- The groups stay the same when the byte does not close the open one. -/
theorem Scanned.groups_concat (h : Scanned text level idx intervals) {byte : UInt8}
    (hbyte : byte ≠ closeBrace ∨ level ≠ 1) (first after : ℕ) :
    (first, after) ∈ intervals ↔
      Group openBrace closeBrace (text ++ [byte]) first after := by
  rw [h.groups, group_concat_iff openBrace_ne, or_iff_left]
  rintro ⟨-, hclose, -, hone⟩
  rcases hbyte with hbyte | hlevel
  · exact hbyte hclose
  · exact hlevel (h.level_eq.trans hone)

/-- An opening brace. -/
theorem Scanned.step_open (h : Scanned text level idx intervals) :
    Scanned (text ++ [openBrace]) (level + 1) (if level + 1 = 1 then text.length else idx)
      intervals := by
  have hdepth : depth openBrace closeBrace (text ++ [openBrace]) = level + 1 := by
    rw [depth_concat, weight_opening openBrace_ne, h.level_eq]
  have hlevel : 0 ≤ level := h.level_eq ▸ h.neverBelow text (List.prefix_refl _)
  refine ⟨hdepth.symm, h.neverBelow.concat (by omega), fun _ => ?_, h.ordered,
    h.groups_concat (Or.inl openBrace_ne)⟩
  rw [started_concat_iff openBrace_ne]
  split
  · exact Or.inr ⟨rfl, rfl, by rw [← h.level_eq]; omega⟩
  · exact Or.inl ⟨h.started (by omega), by omega⟩

/-- A closing brace that leaves the group open. -/
theorem Scanned.step_close (h : Scanned text level idx intervals) (hlevel : 1 < level) :
    Scanned (text ++ [closeBrace]) (level - 1) idx intervals := by
  have hdepth : depth openBrace closeBrace (text ++ [closeBrace]) = level - 1 := by
    rw [depth_concat, weight_closing openBrace_ne, h.level_eq]
    rfl
  refine ⟨hdepth.symm, h.neverBelow.concat (by omega), fun _ => ?_, h.ordered,
    h.groups_concat (Or.inr (by omega))⟩
  rw [started_concat_iff openBrace_ne]
  exact Or.inl ⟨h.started (by omega), by omega⟩

/-- A closing brace that ends the group. -/
theorem Scanned.step_end (h : Scanned text 1 idx intervals) :
    Scanned (text ++ [closeBrace]) 0 idx (intervals ++ [(idx, text.length + 1)]) := by
  have hdepth : depth openBrace closeBrace (text ++ [closeBrace]) = 0 := by
    rw [depth_concat, weight_closing openBrace_ne, ← h.level_eq]
    rfl
  have hstarted := h.started one_pos
  have hnew : Group openBrace closeBrace (text ++ [closeBrace]) idx (text.length + 1) :=
    (group_concat_iff openBrace_ne).mpr (Or.inr ⟨rfl, rfl, hstarted, h.level_eq.symm⟩)
  refine ⟨hdepth.symm, h.neverBelow.concat hdepth.ge, fun hpos => absurd hpos (lt_irrefl 0),
    ?_, ?_⟩
  · rw [List.pairwise_append]
    refine ⟨h.ordered, List.pairwise_singleton .., ?_⟩
    rintro ⟨first, after⟩ hmem later hlater
    rw [List.mem_singleton.mp hlater]
    -- an earlier group cannot begin inside the new one, which would hold a zero depth
    have hgroup := (h.groups first after).mp hmem
    have hold := (@group_concat_iff _ _ _ _ _ closeBrace _ _ openBrace_ne).mpr (Or.inl hgroup)
    have hle := hgroup.le
    by_contra hover
    have hend := hstarted.inside after (not_le.mp hover) hle
    exact absurd hgroup.closes hend.ne'
  · intro first after
    rw [List.mem_append, List.mem_singleton, Prod.mk.injEq, h.groups,
      group_concat_iff openBrace_ne]
    constructor
    · rintro (hgroup | ⟨rfl, rfl⟩)
      · exact Or.inl hgroup
      · exact Or.inr ⟨rfl, rfl, hstarted, h.level_eq.symm⟩
    · rintro (hgroup | ⟨rfl, -, hother, -⟩)
      · exact Or.inl hgroup
      · exact Or.inr ⟨hother.unique hstarted, rfl⟩

/-- A byte that is no brace. -/
theorem Scanned.step_other (h : Scanned text level idx intervals) {byte : UInt8}
    (hopen : byte ≠ openBrace) (hclose : byte ≠ closeBrace) :
    Scanned (text ++ [byte]) level idx intervals := by
  have hdepth : depth openBrace closeBrace (text ++ [byte]) = level := by
    rw [depth_concat, weight_other hopen hclose, h.level_eq, Int.add_zero]
  have hlevel : 0 ≤ level := h.level_eq ▸ h.neverBelow text (List.prefix_refl _)
  refine ⟨hdepth.symm, h.neverBelow.concat (by omega), fun hpos => ?_, h.ordered,
    h.groups_concat (Or.inl hclose)⟩
  rw [started_concat_iff openBrace_ne]
  exact Or.inl ⟨h.started hpos, by omega⟩

end Step

/-- The result of the loop: nothing for an unbalanced text, else what was found in all of it. -/
theorem braceScan_spec {text : ByteString} {level : ℤ} {idx : ℕ} {intervals : List (ℕ × ℕ)}
    (h : Scanned text level idx intervals) (rest : ByteString) :
    (¬ Balanced openBrace closeBrace (text ++ rest) ∧
      braceScan text.length level idx (flatten intervals) rest = []) ∨
      ∃ last found, Scanned (text ++ rest) 0 last found ∧
        braceScan text.length level idx (flatten intervals) rest = flatten found := by
  induction rest generalizing text level idx intervals with
  | nil =>
    rw [braceScan, List.append_nil]
    split
    · next hopen =>
      refine Or.inl ⟨fun hbalanced => hopen ?_, rfl⟩
      rw [h.level_eq, hbalanced.total]
    · next hzero =>
      rw [not_not] at hzero
      subst hzero
      exact Or.inr ⟨idx, intervals, h, rfl⟩
  | cons byte rest ih =>
    rw [braceScan, List.append_cons]
    split
    · next hopen =>
      subst hopen
      have hnext := ih h.step_open
      rwa [List.length_append] at hnext
    · next hopen =>
      split
      · next hclose =>
        subst hclose
        split
        · next hend =>
          obtain rfl : level = 1 := by omega
          have hnext := ih h.step_end
          rwa [List.length_append, flatten_concat] at hnext
        · next hend =>
          split
          · next hbelow =>
            -- the source returns here, whatever follows
            refine Or.inl ⟨fun hbalanced => ?_, rfl⟩
            have hdepth := hbalanced.neverBelow _ (List.prefix_append ..)
            rw [depth_concat, weight_closing openBrace_ne, ← h.level_eq] at hdepth
            omega
          · next hbelow =>
            have hnext := ih (h.step_close (by omega))
            rwa [List.length_append] at hnext
      · next hclose =>
        have hnext := ih (h.step_other hopen hclose)
        rwa [List.length_append] at hnext

/-- A text that was read to depth zero is balanced. -/
theorem Scanned.balanced {s : ByteString} {idx : ℕ} {intervals : List (ℕ × ℕ)}
    (h : Scanned s 0 idx intervals) : Balanced openBrace closeBrace s :=
  ⟨h.neverBelow, h.level_eq.symm⟩

/-- What the loop found in a balanced text. -/
theorem Scanned.topLevel {s : ByteString} {idx : ℕ} {intervals : List (ℕ × ℕ)}
    (h : Scanned s 0 idx intervals) : TopLevel s intervals where
  ordered := h.ordered
  groups := h.groups
  ends := by
    rintro ⟨first, after⟩ hmem
    have hgroup := (h.groups first after).mp hmem
    obtain ⟨hlast, -⟩ := hgroup.last openBrace_ne
    refine ⟨?_, hgroup.le, hgroup.opens, hlast, hgroup.balanced openBrace_ne⟩
    have hlt := hgroup.lt
    have hne : first ≠ after - 1 := by
      rintro heq
      rw [← heq, hgroup.opens] at hlast
      exact openBrace_ne (Option.some.inj hlast)
    change first + 1 < after
    omega
  outside := by
    intro k byte hk hbrace
    obtain ⟨first, after, hgroup, hcover⟩ := h.balanced.cover openBrace_ne hk hbrace
    exact ⟨(first, after), (h.groups first after).mpr hgroup, hcover⟩

/-- `_braceIndices` finds nothing in an unbalanced text, and the top-level groups in another. -/
theorem braceIndices_spec (s : ByteString) :
    ∃ intervals, braceIndices s = flatten intervals ∧
      (¬ Balanced openBrace closeBrace s ∧ intervals = [] ∨
        Balanced openBrace closeBrace s ∧ TopLevel s intervals) := by
  rcases braceScan_spec scanned_nil s with ⟨hunbalanced, hscan⟩ | ⟨last, found, hfound, hscan⟩
  · exact ⟨[], hscan, Or.inl ⟨hunbalanced, rfl⟩⟩
  · exact ⟨found, hscan, Or.inr ⟨hfound.balanced, hfound.topLevel⟩⟩

/-- A slice within its bounds. -/
theorem slice_eq_some {text : ByteString} {low high : ℕ} (hlow : low ≤ high)
    (hhigh : high ≤ text.length) : slice text low high = some ((text.take high).drop low) :=
  if_pos ⟨hlow, hhigh⟩

/-- The text from `low` on, up to `high` and after it. -/
theorem drop_take_append {text : ByteString} {low high : ℕ} (hlow : low ≤ high) :
    (text.take high).drop low ++ text.drop high = text.drop low := by
  have hdrop : text.drop high = (text.drop low).drop (high - low) := by
    rw [List.drop_drop, Nat.add_sub_cancel' hlow]
  rw [List.drop_take, hdrop, List.take_append_drop]

/-- Disjoint intervals in increasing order: every slice is in range, and nothing is lost. -/
theorem rawPieces_flatten (s : ByteString) {intervals : List (ℕ × ℕ)} {fin : ℕ}
    (hfin : fin ≤ s.length)
    (hordered : intervals.Pairwise fun before later => before.2 ≤ later.1)
    (hbounds : ∀ i ∈ intervals, fin ≤ i.1 ∧ i.1 ≤ i.2 ∧ i.2 ≤ s.length) :
    ∃ raws, rawPieces s fin (flatten intervals) = some raws ∧
      weave raws (intervals.map fun i => (s.take i.2).drop i.1) = s.drop fin := by
  induction intervals generalizing fin with
  | nil =>
    refine ⟨[s.drop fin], ?_, List.append_nil _⟩
    change (slice s fin s.length).map _ = _
    rw [slice_eq_some hfin (le_refl _), List.take_length]
    rfl
  | cons interval rest ih =>
    obtain ⟨hfirst, hrest⟩ := List.pairwise_cons.mp hordered
    obtain ⟨hlow, hmid, hhigh⟩ := hbounds interval List.mem_cons_self
    obtain ⟨raws, hraws, hweave⟩ := ih hhigh hrest fun i hi =>
      ⟨hfirst i hi, (hbounds i (List.mem_cons_of_mem _ hi)).2⟩
    refine ⟨(s.take interval.1).drop fin :: raws, ?_, ?_⟩
    · change rawPieces s fin (interval.1 :: interval.2 :: flatten rest) = _
      rw [rawPieces, slice_eq_some hlow (hmid.trans hhigh), hraws]
      rfl
    · rw [List.map_cons, weave, hweave, drop_take_append hmid, drop_take_append hlow]

/-- Template scanning is exact, and every slice that `StripPrefix` takes is in range. -/
theorem braceIndices_exact (s : ByteString) :
    ∃ intervals, braceIndices s = flatten intervals ∧
      (¬ Balanced openBrace closeBrace s → braceIndices s = []) ∧
      (Balanced openBrace closeBrace s → TopLevel s intervals) ∧
      ∃ raws, rawPieces s 0 (braceIndices s) = some raws ∧
        weave raws (intervals.map fun i => (s.take i.2).drop i.1) = s := by
  obtain ⟨intervals, hscan, hcases⟩ := braceIndices_spec s
  refine ⟨intervals, hscan, fun hunbalanced => ?_, fun hbalanced => ?_, ?_⟩
  · rcases hcases with ⟨-, rfl⟩ | ⟨hbalanced, -⟩
    · exact hscan
    · exact absurd hbalanced hunbalanced
  · rcases hcases with ⟨hunbalanced, -⟩ | ⟨-, htop⟩
    · exact absurd hbalanced hunbalanced
    · exact htop
  · rw [hscan]
    rcases hcases with ⟨-, rfl⟩ | ⟨-, htop⟩
    · exact rawPieces_flatten s (Nat.zero_le _) List.Pairwise.nil fun i hi =>
        absurd hi List.not_mem_nil
    · refine rawPieces_flatten s (Nat.zero_le _) htop.ordered fun i hi => ?_
      obtain ⟨hlt, hle, -⟩ := htop.ends i hi
      exact ⟨Nat.zero_le _, by omega, hle⟩

end RepoManager
