import Mathlib.Data.List.Lex
import Mathlib.Data.List.Infix

/-!
# Patterns of symbols and runs

A pattern over any alphabet is a sequence of nodes: a symbol that stands for itself, or a run of
one or more symbols other than the separator. `matchLength` matches a pattern at the start of a
text by backtracking, each run taking as much as it can.

`matchLength_eq_some_iff` states the result without the search: among all instances of the
pattern that the text begins with, it is the one whose runs are longest, from left to right.
-/

namespace RunPattern

variable {α : Type*}

/-- One node of a pattern. -/
inductive Node (α : Type*) where
  | symbol (value : α)
  | run
  deriving DecidableEq

/-- The pattern spells this text, with runs of these widths. -/
inductive Spells (sep : α) : List (Node α) → List ℕ → List α → Prop
  | nil : Spells sep [] [] []
  | symbol {nodes widths text} (value : α) (rest : Spells sep nodes widths text) :
    Spells sep (.symbol value :: nodes) widths (value :: text)
  | run {nodes widths text} (values : List α) (hne : values ≠ []) (hsep : sep ∉ values)
    (rest : Spells sep nodes widths text) :
    Spells sep (.run :: nodes) (values.length :: widths) (values ++ text)

/-- An instance of the pattern at the start of a text. -/
def StartsWith (sep : α) (nodes : List (Node α)) (text : List α) : Prop :=
  ∃ widths front, Spells sep nodes widths front ∧ front <+: text

/-- The instance at the start of a text whose runs are longest, from left to right. -/
structure Greedy (sep : α) (nodes : List (Node α)) (text : List α) (widths : List ℕ)
    (front : List α) : Prop where
  spells : Spells sep nodes widths front
  isPrefix : front <+: text
  greatest : ∀ widths' front', Spells sep nodes widths' front' → front' <+: text →
    widths' ≤ widths

/-- The length of the match at the start of a text; a run first tries to take one more symbol. -/
def matchLength [DecidableEq α] (sep : α) : List (Node α) → List α → Option ℕ
  | [], _ => some 0
  | _ :: _, [] => none
  | .symbol value :: nodes, head :: text =>
    if value = head then (matchLength sep nodes text).map (· + 1) else none
  | .run :: nodes, head :: text =>
    if head = sep then none
    else ((matchLength sep (.run :: nodes) text).or (matchLength sep nodes text)).map (· + 1)

variable {sep : α}

/-- The pattern and the widths determine the length of what is spelt. -/
theorem Spells.length_eq {nodes : List (Node α)} {widths : List ℕ} {left right : List α}
    (h : Spells sep nodes widths left) (hright : Spells sep nodes widths right) :
    left.length = right.length := by
  induction h generalizing right with
  | nil => cases hright; rfl
  | symbol value rest ih =>
    cases hright with
    | symbol _ other => rw [List.length_cons, List.length_cons, ih other]
  | run values hne hsep rest ih =>
    generalize hwidths : values.length :: _ = widths at hright
    cases hright with
    | run others hne' hsep' other =>
      obtain ⟨hvalues, rfl⟩ := List.cons.inj hwidths
      rw [List.length_append, List.length_append, hvalues, ih other]

/-- Only one instance has the longest runs. -/
theorem Greedy.unique {nodes : List (Node α)} {text : List α} {widths widths' : List ℕ}
    {front front' : List α} (h : Greedy sep nodes text widths front)
    (h' : Greedy sep nodes text widths' front') : front = front' := by
  have hwidths : widths = widths' := le_antisymm (h'.greatest _ _ h.spells h.isPrefix)
    (h.greatest _ _ h'.spells h'.isPrefix)
  subst hwidths
  have hlength := h.spells.length_eq h'.spells
  rw [List.prefix_iff_eq_take.mp h.isPrefix, List.prefix_iff_eq_take.mp h'.isPrefix, hlength]

/-- A symbol and what follows it. -/
theorem spells_symbol_iff {nodes : List (Node α)} {widths : List ℕ} {front : List α} {value : α} :
    Spells sep (.symbol value :: nodes) widths front ↔
      ∃ rest, front = value :: rest ∧ Spells sep nodes widths rest := by
  constructor
  · rintro ⟨⟩
    next rest h => exact ⟨rest, rfl, h⟩
  · rintro ⟨rest, rfl, h⟩
    exact .symbol value h

/-- A run spells one symbol, and then either ends or goes on. -/
theorem spells_run_iff {nodes : List (Node α)} {widths : List ℕ} {front : List α} :
    Spells sep (.run :: nodes) widths front ↔
      ∃ head rest, front = head :: rest ∧ head ≠ sep ∧
        ((∃ others, widths = 1 :: others ∧ Spells sep nodes others rest) ∨
          ∃ width others, widths = (width + 1) :: others ∧
            Spells sep (.run :: nodes) (width :: others) rest) := by
  constructor
  · rintro ⟨⟩
    next others text values hne hsep h =>
    cases values with
    | nil => exact absurd rfl hne
    | cons head values =>
      obtain ⟨hhead, htail⟩ := not_or.mp (mt List.mem_cons.mpr hsep)
      refine ⟨head, values ++ text, rfl, fun heq => hhead heq.symm, ?_⟩
      cases values with
      | nil => exact Or.inl ⟨others, rfl, h⟩
      | cons next values =>
        exact Or.inr ⟨_, others, rfl, .run (next :: values) (List.cons_ne_nil _ _) htail h⟩
  · rintro ⟨head, rest, rfl, hhead, ⟨others, rfl, h⟩ | ⟨width, others, rfl, h⟩⟩
    · exact .run [head] (List.cons_ne_nil _ _)
        (fun hmem => hhead (List.mem_singleton.mp hmem).symm) h
    · generalize hwidths : width :: others = widths at h
      cases h with
      | run values hne hsep h =>
        obtain ⟨rfl, rfl⟩ := List.cons.inj hwidths
        refine .run (head :: values) (List.cons_ne_nil _ _) ?_ h
        rw [List.mem_cons]
        rintro (heq | hmem)
        · exact hhead heq.symm
        · exact hsep hmem

/-- Widths are compared from left to right. -/
theorem cons_le_cons_iff {width width' : ℕ} {widths widths' : List ℕ} :
    width :: widths ≤ width' :: widths' ↔ width < width' ∨ width = width' ∧ widths ≤ widths' := by
  rw [le_iff_lt_or_eq, List.cons_lt_cons_iff, List.cons.injEq, le_iff_lt_or_eq]
  tauto

section Match

variable {nodes : List (Node α)} {text : List α} {head : α}

/-- A run starts with a symbol other than the separator; it goes on, or the rest follows. -/
theorem startsWith_run_iff :
    StartsWith sep (.run :: nodes) (head :: text) ↔
      head ≠ sep ∧ (StartsWith sep (.run :: nodes) text ∨ StartsWith sep nodes text) := by
  constructor
  · rintro ⟨widths, front, hspells, hprefix⟩
    obtain ⟨first, rest, rfl, hfirst, hrest⟩ := spells_run_iff.mp hspells
    obtain ⟨rfl, hrestPrefix⟩ := List.cons_prefix_cons.mp hprefix
    rcases hrest with ⟨others, -, hrest⟩ | ⟨width, others, -, hrest⟩
    · exact ⟨hfirst, Or.inr ⟨others, rest, hrest, hrestPrefix⟩⟩
    · exact ⟨hfirst, Or.inl ⟨_, rest, hrest, hrestPrefix⟩⟩
  · rintro ⟨hhead, ⟨widths, front, hspells, hprefix⟩ | ⟨widths, front, hspells, hprefix⟩⟩
    · obtain ⟨first, rest, rfl, hfirst, hrest⟩ := spells_run_iff.mp hspells
      obtain ⟨width, others, rfl⟩ : ∃ width others, widths = width :: others := by
        rcases hrest with ⟨others, rfl, -⟩ | ⟨width, others, rfl, -⟩ <;> exact ⟨_, _, rfl⟩
      exact ⟨_, head :: first :: rest, spells_run_iff.mpr
        ⟨head, _, rfl, hhead, Or.inr ⟨width, others, rfl, hspells⟩⟩,
        List.cons_prefix_cons.mpr ⟨rfl, hprefix⟩⟩
    · exact ⟨_, head :: front, spells_run_iff.mpr
        ⟨head, _, rfl, hhead, Or.inl ⟨widths, rfl, hspells⟩⟩,
        List.cons_prefix_cons.mpr ⟨rfl, hprefix⟩⟩

/-- The longest runs after a symbol are the longest with it. -/
theorem Greedy.symbol {widths : List ℕ} {front : List α} (h : Greedy sep nodes text widths front) :
    Greedy sep (.symbol head :: nodes) (head :: text) widths (head :: front) where
  spells := .symbol head h.spells
  isPrefix := List.cons_prefix_cons.mpr ⟨rfl, h.isPrefix⟩
  greatest widths' front' hspells hprefix := by
    obtain ⟨rest, rfl, hrest⟩ := spells_symbol_iff.mp hspells
    exact h.greatest widths' rest hrest (List.cons_prefix_cons.mp hprefix).2

/-- A run that can go on does, with the longest runs after that. -/
theorem Greedy.run_on {width : ℕ} {widths : List ℕ} {front : List α} (hhead : head ≠ sep)
    (h : Greedy sep (.run :: nodes) text (width :: widths) front) :
    Greedy sep (.run :: nodes) (head :: text) ((width + 1) :: widths) (head :: front) where
  spells := spells_run_iff.mpr ⟨head, front, rfl, hhead, Or.inr ⟨width, widths, rfl, h.spells⟩⟩
  isPrefix := List.cons_prefix_cons.mpr ⟨rfl, h.isPrefix⟩
  greatest widths' front' hspells hprefix := by
    obtain ⟨first, rest, rfl, -, hrest⟩ := spells_run_iff.mp hspells
    have hrestPrefix := (List.cons_prefix_cons.mp hprefix).2
    have hpos : 0 < width := by
      rcases spells_run_iff.mp h.spells with ⟨_, _, _, _, ⟨_, heq, -⟩ | ⟨_, _, heq, -⟩⟩
      · rw [(List.cons.inj heq).1]
        exact Nat.one_pos
      · rw [(List.cons.inj heq).1]
        exact Nat.succ_pos _
    rcases hrest with ⟨others, rfl, -⟩ | ⟨width', others, rfl, hrest⟩
    · exact cons_le_cons_iff.mpr (Or.inl (by omega))
    · have hle := h.greatest _ rest hrest hrestPrefix
      rw [cons_le_cons_iff] at hle ⊢
      rcases hle with hlt | ⟨rfl, hle⟩
      · exact Or.inl (by omega)
      · exact Or.inr ⟨rfl, hle⟩

/-- A run that cannot go on ends after one symbol. -/
theorem Greedy.run_end {widths : List ℕ} {front : List α} (hhead : head ≠ sep)
    (hstop : ¬ StartsWith sep (.run :: nodes) text) (h : Greedy sep nodes text widths front) :
    Greedy sep (.run :: nodes) (head :: text) (1 :: widths) (head :: front) where
  spells := spells_run_iff.mpr ⟨head, front, rfl, hhead, Or.inl ⟨widths, rfl, h.spells⟩⟩
  isPrefix := List.cons_prefix_cons.mpr ⟨rfl, h.isPrefix⟩
  greatest widths' front' hspells hprefix := by
    obtain ⟨first, rest, rfl, -, hrest⟩ := spells_run_iff.mp hspells
    have hrestPrefix := (List.cons_prefix_cons.mp hprefix).2
    rcases hrest with ⟨others, rfl, hrest⟩ | ⟨width, others, -, hrest⟩
    · exact cons_le_cons_iff.mpr (Or.inr ⟨rfl, h.greatest others rest hrest hrestPrefix⟩)
    · exact absurd ⟨_, rest, hrest, hrestPrefix⟩ hstop

end Match

section Search

variable [DecidableEq α]

/-- The search fails exactly when the text starts with no instance, and finds the longest runs. -/
theorem matchLength_spec (nodes : List (Node α)) (text : List α) :
    (matchLength sep nodes text = none ∧ ¬ StartsWith sep nodes text) ∨
      ∃ widths front, Greedy sep nodes text widths front ∧
        matchLength sep nodes text = some front.length := by
  fun_induction matchLength sep nodes text with
  | case1 text =>
    refine Or.inr ⟨[], [], ⟨.nil, List.nil_prefix, ?_⟩, rfl⟩
    rintro widths' front' ⟨⟩ -
    exact le_refl _
  | case2 node nodes =>
    refine Or.inl ⟨rfl, ?_⟩
    rintro ⟨widths, front, hspells, hprefix⟩
    rw [List.prefix_nil.mp hprefix] at hspells
    cases node with
    | symbol value =>
      obtain ⟨rest, heq, -⟩ := spells_symbol_iff.mp hspells
      cases heq
    | run =>
      obtain ⟨head, rest, heq, -⟩ := spells_run_iff.mp hspells
      cases heq
  | case3 nodes head text ih =>
    rcases ih with ⟨hnone, hnot⟩ | ⟨widths, front, hgreedy, hsome⟩
    · refine Or.inl ⟨by rw [hnone]; rfl, ?_⟩
      rintro ⟨widths, front, hspells, hprefix⟩
      obtain ⟨rest, rfl, hrest⟩ := spells_symbol_iff.mp hspells
      exact hnot ⟨widths, rest, hrest, (List.cons_prefix_cons.mp hprefix).2⟩
    · exact Or.inr ⟨widths, head :: front, hgreedy.symbol, by rw [hsome]; rfl⟩
  | case4 value nodes head text hne =>
    refine Or.inl ⟨rfl, ?_⟩
    rintro ⟨widths, front, hspells, hprefix⟩
    obtain ⟨rest, rfl, -⟩ := spells_symbol_iff.mp hspells
    exact hne (List.cons_prefix_cons.mp hprefix).1
  | case5 nodes text =>
    exact Or.inl ⟨rfl, fun hstarts => (startsWith_run_iff.mp hstarts).1 rfl⟩
  | case6 nodes head text hne ihOn ihEnd =>
    rcases ihOn with ⟨hnone, hstop⟩ | ⟨widths, front, hgreedy, hsome⟩
    · rcases ihEnd with ⟨hnone', hnot⟩ | ⟨widths, front, hgreedy, hsome⟩
      · refine Or.inl ⟨by rw [hnone, hnone']; rfl, fun hstarts => ?_⟩
        exact ((startsWith_run_iff.mp hstarts).2).elim hstop hnot
      · exact Or.inr ⟨_, head :: front, hgreedy.run_end hne hstop, by rw [hnone, hsome]; rfl⟩
    · obtain ⟨width, others, rfl⟩ : ∃ width others, widths = width :: others := by
        rcases spells_run_iff.mp hgreedy.spells with ⟨_, _, _, _, ⟨_, h, -⟩ | ⟨_, _, h, -⟩⟩ <;>
          exact ⟨_, _, h⟩
      exact Or.inr ⟨_, head :: front, hgreedy.run_on hne, by rw [hsome]; rfl⟩

/-- A match is the length of the instance with the longest runs. -/
theorem matchLength_eq_some_iff {nodes : List (Node α)} {text : List α} {n : ℕ} :
    matchLength sep nodes text = some n ↔
      ∃ widths front, Greedy sep nodes text widths front ∧ front.length = n := by
  rcases @matchLength_spec _ sep _ nodes text with ⟨hnone, hnot⟩ | ⟨widths, front, h, hsome⟩
  · rw [hnone]
    constructor
    · exact fun h => nomatch h
    · rintro ⟨widths, front, hgreedy, -⟩
      exact absurd ⟨widths, front, hgreedy.spells, hgreedy.isPrefix⟩ hnot
  · rw [hsome, Option.some.injEq]
    constructor
    · exact fun hlength => ⟨widths, front, h, hlength⟩
    · rintro ⟨widths', front', hgreedy, rfl⟩
      rw [h.unique hgreedy]

/-- There is no match exactly when the text starts with no instance. -/
theorem matchLength_eq_none_iff {nodes : List (Node α)} {text : List α} :
    matchLength sep nodes text = none ↔ ¬ StartsWith sep nodes text := by
  rcases @matchLength_spec _ sep _ nodes text with ⟨hnone, hnot⟩ | ⟨widths, front, h, hsome⟩
  · exact ⟨fun _ => hnot, fun _ => hnone⟩
  · rw [hsome]
    constructor
    · exact fun hnone => nomatch hnone
    · exact fun hnot => absurd ⟨widths, front, h.spells, h.isPrefix⟩ hnot

end Search

end RunPattern
