import RepoManager.Handler.BraceIndices
import RepoManager.Library.PercentCut
import RepoManager.Library.RunPattern
import RepoManager.Library.Utf8

/-!
# Stripping a path template from a URL

`StripPrefix` turns a path template into a regular expression, with `[^/]+` for every
placeholder, and removes its match from the path of a URL and, separately, from the encoded
path. The wrapped handler gets a new URL with both rests.

The two matches belong together only when they end at the same place. An encoded slash in a
placeholder ends the one and not the other, and an encoded letter of the template ends neither:
the encoded path then does not match. `stripsBoth_iff` gives the condition.

A string is matched character by character. The size limits of the regular expression package
are left out.
-/

open LexicalPath UrlPath RunPattern

namespace RepoManager

/-- `url.URL`, as far as it matters here. -/
structure URL where
  path : ByteString
  rawPath : ByteString
  deriving DecidableEq

/-- What serving a request came to; the wrapped handler gets a reference to a URL. -/
inductive Stripped where
  | next (url : ℕ)
  | notFound
  | panic
  deriving DecidableEq

/-- The URLs in memory after a request was served, and what that came to. -/
structure StripOutcome where
  heap : List URL
  served : Stripped
  deriving DecidableEq

/-! ## The regular expression -/

/-- A compiled pattern, over the values of characters. -/
abbrev Pattern := List (Node ℕ)

/-- The character that ends a placeholder. -/
def slashRune : ℕ := 0x2f

/-- The characters of a text, by their values. -/
def characters (text : ByteString) : List ℕ := (Utf8.runes text).map Utf8.Rune.value

/-- What `regexp.QuoteMeta(raw)` matches: the characters of the text themselves. -/
def quoteMeta (raw : ByteString) : Pattern := (characters raw).map .symbol

/-- The pattern of the raw pieces, with `defaultPattern` between them. -/
def pattern : List ByteString → Pattern
  | [] => []
  | [last] => quoteMeta last
  | raw :: next :: raws => quoteMeta raw ++ .run :: pattern (next :: raws)

/-- `regexp.Compile`: it returns nil with an error, which is ignored, when a piece is not UTF-8. -/
def compile (raws : List ByteString) : Option Pattern :=
  if ∀ raw ∈ raws, Utf8.Valid raw then some (pattern raws) else none

/-- The match at the start of a text, and what follows it. -/
def cut (re : Pattern) (text : ByteString) : Option (ByteString × ByteString) :=
  (matchLength slashRune re (characters text)).map fun n =>
    (((Utf8.runes text).take n).flatMap Utf8.Rune.bytes,
      ((Utf8.runes text).drop n).flatMap Utf8.Rune.bytes)

/-- `re.ReplaceAllString(text, "")`: the pattern is anchored, so there is at most one match. -/
def replaceAll (re : Pattern) (text : ByteString) : ByteString :=
  match cut re text with
  | some (_, rest) => rest
  | none => text

/-! ## The handler -/

/-- The handler that `StripPrefix` returns for a non-empty prefix. -/
def serveStripped (re : Option Pattern) (heap : List URL) (ref : ℕ) : StripOutcome :=
  match re, heap[ref]? with
  | some re, some url =>
    let p := replaceAll re url.path
    let rp := replaceAll re url.rawPath
    if p.length < url.path.length ∧ (url.rawPath = [] ∨ rp.length < url.rawPath.length) then
      ⟨heap ++ [{ url with path := p, rawPath := rp }], .next heap.length⟩
    else ⟨heap, .notFound⟩
  | _, _ => ⟨heap, .panic⟩

/-- `StripPrefix` and a request to its handler, with a reference to the URL of the request. -/
def stripPrefix (pre : ByteString) (heap : List URL) (ref : ℕ) : StripOutcome :=
  if pre = [] then ⟨heap, .next ref⟩
  else
    match rawPieces pre 0 (braceIndices pre) with
    | some raws => serveStripped (compile raws) heap ref
    | none => ⟨heap, .panic⟩

/-! ## Templates -/

/-- A text without braces. -/
def Braceless (text : ByteString) : Prop := openBrace ∉ text ∧ closeBrace ∉ text

instance (text : ByteString) : Decidable (Braceless text) :=
  inferInstanceAs (Decidable (_ ∧ _))

/-- Literal characters of a template. -/
structure Literal where
  bytes : ByteString
  braceless : Braceless bytes
  valid : Utf8.Valid bytes

/-- The name of a placeholder. -/
structure Placeholder where
  name : ByteString
  braceless : Braceless name

/-- Literal characters and placeholders: every placeholder after some literal characters. -/
structure PathTemplate where
  groups : List (Literal × Placeholder)
  last : Literal

/-- The text of a placeholder. -/
def Placeholder.text (placeholder : Placeholder) : ByteString :=
  openBrace :: placeholder.name ++ [closeBrace]

/-- The text of a template. -/
def PathTemplate.text (template : PathTemplate) : ByteString :=
  template.groups.flatMap (fun group => group.1.bytes ++ group.2.text) ++ template.last.bytes

/-- What the template stands for: its characters, and a run for every placeholder. -/
def PathTemplate.nodes (template : PathTemplate) : Pattern :=
  template.groups.flatMap (fun group => (characters group.1.bytes).map Node.symbol ++ [.run]) ++
    (characters template.last.bytes).map Node.symbol

/-- Some instance of the template is a prefix of the text. -/
def PathTemplate.Instance (template : PathTemplate) (text : ByteString) : Prop :=
  StartsWith slashRune template.nodes (characters text)

/-- The instance whose placeholders are longest, from left to right, is cut off from the text. -/
def PathTemplate.Cut (template : PathTemplate) (text matched rest : ByteString) : Prop :=
  ∃ widths front, Greedy slashRune template.nodes (characters text) widths front ∧
    matched = ((Utf8.runes text).take front.length).flatMap Utf8.Rune.bytes ∧
    rest = ((Utf8.runes text).drop front.length).flatMap Utf8.Rune.bytes

/-- The raw path is empty, or an encoding of the path. -/
def URL.Encoded (url : URL) : Prop := url.rawPath = [] ∨ decode url.rawPath = some url.path

/-- Both forms of the URL lose the same segments, or the answer is 404. -/
structure StripsBoth (template : PathTemplate) (url : URL) (ref : ℕ) (after : StripOutcome) :
    Prop where
  strips : template.Instance url.path → ∃ ref' url' matched, after.served = .next ref' ∧
    after.heap[ref']? = some url' ∧ template.Cut url.path matched url'.path ∧ url'.Encoded
  refuses : ¬ template.Instance url.path → after.served = .notFound
  unchanged : after.heap[ref]? = some url

/-! ## What is made of a template -/

/-- The indices of the placeholders of a template that starts at `start`. -/
def placeholderIndices (start : ℕ) : List (Literal × Placeholder) → List ℕ
  | [] => []
  | group :: rest =>
    let first := start + group.1.bytes.length
    let after := first + group.2.text.length
    first :: after :: placeholderIndices after rest

/-- The loop skips what has no braces. -/
theorem braceScan_braceless {raw : ByteString} (h : Braceless raw) (i : ℕ) (level : ℤ) (idx : ℕ)
    (idxs : List ℕ) (rest : ByteString) :
    braceScan i level idx idxs (raw ++ rest) = braceScan (i + raw.length) level idx idxs rest := by
  induction raw generalizing i with
  | nil => rfl
  | cons byte raw ih =>
    obtain ⟨hopen, hopens⟩ := not_or.mp (mt List.mem_cons.mpr h.1)
    obtain ⟨hclose, hcloses⟩ := not_or.mp (mt List.mem_cons.mpr h.2)
    rw [List.cons_append, braceScan, if_neg (Ne.symm hopen), if_neg (Ne.symm hclose),
      ih ⟨hopens, hcloses⟩, List.length_cons, Nat.add_right_comm, Nat.add_assoc]

/-- The loop finds a placeholder. -/
theorem braceScan_placeholder (placeholder : Placeholder) (i idx : ℕ) (idxs : List ℕ)
    (rest : ByteString) :
    braceScan i 0 idx idxs (placeholder.text ++ rest) =
      braceScan (i + placeholder.text.length) 0 i
        (idxs ++ [i, i + placeholder.text.length]) rest := by
  have hlength : placeholder.text.length = placeholder.name.length + 2 := by
    simp [Placeholder.text]
  have hend : i + 1 + placeholder.name.length + 1 = i + (placeholder.name.length + 2) := by omega
  change braceScan i 0 idx idxs (openBrace :: (placeholder.name ++ [closeBrace] ++ rest)) = _
  rw [braceScan, if_pos rfl, List.append_assoc, braceScan_braceless placeholder.braceless,
    List.singleton_append, braceScan, if_neg openBrace_ne.symm, if_pos rfl, hend, hlength]
  rfl

/-- The indices of a template are those of its placeholders. -/
theorem braceScan_template (groups : List (Literal × Placeholder)) (last : Literal) (i idx : ℕ)
    (idxs : List ℕ) :
    braceScan i 0 idx idxs (PathTemplate.text ⟨groups, last⟩) =
      idxs ++ placeholderIndices i groups := by
  induction groups generalizing i idx idxs with
  | nil =>
    have hscan := braceScan_braceless last.braceless i 0 idx idxs []
    rw [List.append_nil] at hscan
    change braceScan i 0 idx idxs last.bytes = idxs ++ []
    rw [hscan, List.append_nil]
    rfl
  | cons group rest ih =>
    have htext : PathTemplate.text ⟨group :: rest, last⟩ =
        group.1.bytes ++ (group.2.text ++ PathTemplate.text ⟨rest, last⟩) := by
      simp [PathTemplate.text]
    rw [htext, braceScan_braceless group.1.braceless, braceScan_placeholder, ih,
      placeholderIndices, List.append_assoc]
    rfl

/-- The bytes between two positions of a text. -/
theorem slice_middle (left middle right : ByteString) :
    slice (left ++ (middle ++ right)) left.length (left.length + middle.length) = some middle := by
  rw [slice_eq_some (Nat.le_add_right ..) (by simp)]
  rw [← List.append_assoc, ← List.length_append, List.take_left' rfl, List.drop_left' rfl]

/-- The raw pieces of a template are its literal characters. -/
theorem rawPieces_template (groups : List (Literal × Placeholder)) (last : Literal)
    (done : ByteString) :
    rawPieces (done ++ PathTemplate.text ⟨groups, last⟩) done.length
        (placeholderIndices done.length groups) =
      some (groups.map (fun group => group.1.bytes) ++ [last.bytes]) := by
  induction groups generalizing done with
  | nil =>
    have hslice := slice_middle done last.bytes []
    rw [List.append_nil, ← List.length_append] at hslice
    change (slice (done ++ last.bytes) done.length (done ++ last.bytes).length).map _ = _
    rw [hslice]
    rfl
  | cons group rest ih =>
    have htext : PathTemplate.text ⟨group :: rest, last⟩ =
        group.1.bytes ++ (group.2.text ++ PathTemplate.text ⟨rest, last⟩) := by
      simp [PathTemplate.text]
    have hrest := ih (done ++ (group.1.bytes ++ group.2.text))
    rw [List.append_assoc, List.append_assoc, ← htext, List.length_append, List.length_append,
      ← Nat.add_assoc] at hrest
    rw [placeholderIndices, rawPieces, hrest, htext, slice_middle]
    rfl

/-- The pattern of the pieces is what the template stands for. -/
theorem pattern_template (groups : List (Literal × Placeholder)) (last : Literal) :
    pattern (groups.map (fun group => group.1.bytes) ++ [last.bytes]) =
      PathTemplate.nodes ⟨groups, last⟩ := by
  induction groups with
  | nil => rfl
  | cons group rest ih =>
    have hnodes : PathTemplate.nodes ⟨group :: rest, last⟩ =
        quoteMeta group.1.bytes ++ .run :: PathTemplate.nodes ⟨rest, last⟩ := by
      simp [PathTemplate.nodes, quoteMeta]
    rw [hnodes, ← ih]
    cases rest <;> rfl

/-- The regular expression of a template compiles to what the template stands for. -/
theorem compile_template (template : PathTemplate) :
    ∃ raws, rawPieces template.text 0 (braceIndices template.text) = some raws ∧
      compile raws = some template.nodes := by
  obtain ⟨groups, last⟩ := template
  have hpieces := rawPieces_template groups last []
  refine ⟨groups.map (fun group => group.1.bytes) ++ [last.bytes], ?_, ?_⟩
  · rw [braceIndices, braceScan_template, List.nil_append]
    exact hpieces
  · rw [compile, if_pos, pattern_template]
    intro raw hraw
    rcases List.mem_append.mp hraw with hraw | hraw
    · obtain ⟨group, -, rfl⟩ := List.mem_map.mp hraw
      exact group.1.valid
    · rw [List.mem_singleton.mp hraw]
      exact last.valid

/-! ## What is cut off -/

section Cut

variable {template : PathTemplate} {text matched rest : ByteString}

/-- The regular expression cuts off the instance with the longest placeholders. -/
theorem cut_eq_some_iff :
    cut template.nodes text = some (matched, rest) ↔ template.Cut text matched rest := by
  rw [cut, Option.map_eq_some_iff]
  constructor
  · rintro ⟨n, hn, heq⟩
    obtain ⟨widths, front, hgreedy, rfl⟩ := matchLength_eq_some_iff.mp hn
    obtain ⟨rfl, rfl⟩ := Prod.mk.inj heq
    exact ⟨widths, front, hgreedy, rfl, rfl⟩
  · rintro ⟨widths, front, hgreedy, rfl, rfl⟩
    exact ⟨front.length, matchLength_eq_some_iff.mpr ⟨widths, front, hgreedy, rfl⟩, rfl⟩

/-- The regular expression matches nothing exactly when no instance is a prefix. -/
theorem cut_eq_none_iff : cut template.nodes text = none ↔ ¬ template.Instance text := by
  rw [cut, Option.map_eq_none_iff]
  exact matchLength_eq_none_iff

/-- An instance that is a prefix can be cut off. -/
theorem exists_cut (h : template.Instance text) :
    ∃ matched rest, template.Cut text matched rest := by
  cases hcut : cut template.nodes text with
  | none => exact absurd h (cut_eq_none_iff.mp hcut)
  | some parts => exact ⟨parts.1, parts.2, cut_eq_some_iff.mp hcut⟩

/-- What is cut off starts with an instance. -/
theorem PathTemplate.Cut.instance (h : template.Cut text matched rest) :
    template.Instance text := by
  obtain ⟨widths, front, hgreedy, -, -⟩ := h
  exact ⟨widths, front, hgreedy.spells, hgreedy.isPrefix⟩

/-- The two parts are the text. -/
theorem PathTemplate.Cut.append (h : template.Cut text matched rest) : text = matched ++ rest := by
  obtain ⟨widths, front, -, rfl, rfl⟩ := h
  rw [← List.flatMap_append, List.take_append_drop, Utf8.flatMap_runes]

/-- Only an empty template spells nothing. -/
theorem nodes_ne_nil (hne : template.text ≠ []) : template.nodes ≠ [] := by
  obtain ⟨groups, ⟨last, hbraces, hvalid⟩⟩ := template
  cases groups with
  | cons group groups => simp [PathTemplate.nodes]
  | nil =>
    cases last with
    | nil => exact absurd rfl hne
    | cons byte last => simp [PathTemplate.nodes, characters, Utf8.runes_cons]

/-- A non-empty template cuts something off. -/
theorem PathTemplate.Cut.ne_nil (hne : template.text ≠ []) (h : template.Cut text matched rest) :
    matched ≠ [] := by
  obtain ⟨widths, front, hgreedy, rfl, -⟩ := h
  have hfront : front ≠ [] := by
    rintro rfl
    have hspells := hgreedy.spells
    generalize hnodes : template.nodes = nodes at hspells
    match nodes, hspells with
    | [], _ => exact nodes_ne_nil hne hnodes
    | .symbol value :: _, hspells =>
      obtain ⟨_, heq, -⟩ := spells_symbol_iff.mp hspells
      cases heq
    | .run :: _, hspells =>
      obtain ⟨_, _, heq, -⟩ := spells_run_iff.mp hspells
      cases heq
  have hlength := hgreedy.isPrefix.length_le
  rw [characters, List.length_map] at hlength
  obtain ⟨n, hn⟩ := Nat.exists_eq_add_one.mpr (List.length_pos_iff.mpr hfront)
  match hrunes : Utf8.runes text with
  | [] =>
    rw [hrunes, List.length_nil, hn] at hlength
    omega
  | rune :: runes =>
    rw [hn, List.take_succ_cons, List.flatMap_cons]
    have hmem : rune ∈ Utf8.runes text := hrunes ▸ List.mem_cons_self
    have hbytes := Utf8.bytes_ne_nil hmem
    exact fun heq => hbytes (List.append_eq_nil_iff.mp heq).1

/-- Removing the match leaves what follows it. -/
theorem replaceAll_of_cut (h : template.Cut text matched rest) :
    replaceAll template.nodes text = rest := by
  rw [replaceAll, cut_eq_some_iff.mpr h]

/-- Without a match nothing is removed. -/
theorem replaceAll_of_not (h : ¬ template.Instance text) :
    replaceAll template.nodes text = text := by
  rw [replaceAll, cut_eq_none_iff.mpr h]

/-- Something is removed exactly when an instance is a prefix. -/
theorem replaceAll_lt_iff (hne : template.text ≠ []) :
    (replaceAll template.nodes text).length < text.length ↔ template.Instance text := by
  by_cases hinstance : template.Instance text
  · obtain ⟨matched, rest, hcut⟩ := exists_cut hinstance
    have hpos := List.length_pos_iff.mpr (hcut.ne_nil hne)
    have hlength := congrArg List.length hcut.append
    rw [List.length_append] at hlength
    rw [replaceAll_of_cut hcut]
    exact iff_of_true (by omega) hinstance
  · rw [replaceAll_of_not hinstance]
    exact iff_of_false (lt_irrefl _) hinstance

/-- A text is cut in one way only. -/
theorem PathTemplate.Cut.unique {matched' rest' : ByteString} (h : template.Cut text matched rest)
    (h' : template.Cut text matched' rest') : matched = matched' ∧ rest = rest' := by
  have heq := (cut_eq_some_iff.mpr h).symm.trans (cut_eq_some_iff.mpr h')
  exact Prod.mk.inj (Option.some.inj heq)

end Cut

/-! ## Serving a request -/

section Serve

variable {template : PathTemplate} {heap : List URL} {ref : ℕ} {url : URL}

/-- The test that the handler of a non-empty template makes. -/
def Accepts (template : PathTemplate) (url : URL) : Prop :=
  template.Instance url.path ∧ (url.rawPath = [] ∨ template.Instance url.rawPath)

/-- What the handler of a non-empty template does with a URL. -/
theorem stripPrefix_cases (hne : template.text ≠ []) (hurl : heap[ref]? = some url) :
    Accepts template url ∧ stripPrefix template.text heap ref =
        ⟨heap ++ [⟨replaceAll template.nodes url.path, replaceAll template.nodes url.rawPath⟩],
          .next heap.length⟩ ∨
      ¬ Accepts template url ∧ stripPrefix template.text heap ref = ⟨heap, .notFound⟩ := by
  obtain ⟨raws, hpieces, hcompile⟩ := compile_template template
  have hshorter : ((replaceAll template.nodes url.path).length < url.path.length ∧
      (url.rawPath = [] ∨
        (replaceAll template.nodes url.rawPath).length < url.rawPath.length)) ↔
      Accepts template url := by
    rw [replaceAll_lt_iff hne, replaceAll_lt_iff hne, Accepts]
  rw [stripPrefix, if_neg hne, hpieces]
  simp only [hcompile, serveStripped, hurl]
  split
  · next haccepts => exact Or.inl ⟨hshorter.mp haccepts, rfl⟩
  · next hrefuses => exact Or.inr ⟨fun haccepts => hrefuses (hshorter.mpr haccepts), rfl⟩

/-- The URL of the request stays in memory as it was. -/
theorem getElem?_heap_concat (hurl : heap[ref]? = some url) (new : URL) :
    (heap ++ [new])[ref]? = some url := by
  rw [List.getElem?_append_left (List.getElem?_eq_some_iff.mp hurl).1, hurl]

/-- Nothing is stripped by an empty template. -/
theorem stripsBoth_of_empty (hempty : template.text = []) (hurl : heap[ref]? = some url)
    (hencoded : url.Encoded) (text : ByteString) :
    template.Cut text [] text ∧
      StripsBoth template url ref (stripPrefix template.text heap ref) := by
  have hnodes : template.nodes = [] := by
    obtain ⟨groups, last⟩ := template
    cases groups with
    | cons group groups => simp [PathTemplate.text, Placeholder.text] at hempty
    | nil =>
      change last.bytes = [] at hempty
      simp [PathTemplate.nodes, hempty, characters]
  have hcut : ∀ text, template.Cut text [] text := by
    intro text
    refine ⟨[], [], ⟨?_, List.nil_prefix, ?_⟩, rfl, (Utf8.flatMap_runes text).symm⟩
    · rw [hnodes]
      exact .nil
    · rw [hnodes]
      rintro widths' front' ⟨⟩ -
      exact le_refl _
  refine ⟨hcut text, ?_⟩
  rw [stripPrefix, if_pos hempty]
  exact ⟨fun _ => ⟨ref, url, [], rfl, hurl, hcut url.path, hencoded⟩,
    fun hnot => absurd (hcut url.path).instance hnot, hurl⟩

/-- The stripped URL, when both forms are stripped, is what the property asks for. -/
theorem stripsBoth_of_cut {matched rest rawRest : ByteString}
    (hurl : heap[ref]? = some url) (hcut : template.Cut url.path matched rest)
    (hrest : rawRest = [] ∨ decode rawRest = some rest) :
    StripsBoth template url ref ⟨heap ++ [⟨rest, rawRest⟩], .next heap.length⟩ where
  strips _ := ⟨heap.length, ⟨rest, rawRest⟩, matched, rfl, by simp, hcut, hrest⟩
  refuses hnot := absurd hcut.instance hnot
  unchanged := getElem?_heap_concat hurl _

/-- The property asks no less of the stripped URL. -/
theorem StripsBoth.encoded {rest rawRest : ByteString} (hinstance : template.Instance url.path)
    (h : StripsBoth template url ref ⟨heap ++ [⟨rest, rawRest⟩], .next heap.length⟩) :
    rawRest = [] ∨ decode rawRest = some rest := by
  obtain ⟨ref', url', matched, hserved, hlookup, -, hencoded⟩ := h.strips hinstance
  obtain rfl := Stripped.next.inj hserved
  change (heap ++ [_])[heap.length]? = some url' at hlookup
  rw [List.getElem?_append_right (le_refl _), Nat.sub_self, List.getElem?_singleton, if_pos rfl,
    Option.some.injEq] at hlookup
  subst hlookup
  exact hencoded

/-- Both forms of a URL lose the same segments exactly when there is nothing to strip from the
encoded path, nothing to strip at all, or when both are cut at the same place. -/
theorem stripsBoth_iff (hurl : heap[ref]? = some url) (hencoded : url.Encoded) :
    StripsBoth template url ref (stripPrefix template.text heap ref) ↔
      url.rawPath = [] ∨ ¬ template.Instance url.path ∨
        ∃ matched rest rawMatched rawRest, template.Cut url.path matched rest ∧
          template.Cut url.rawPath rawMatched rawRest ∧ SameCut matched rawMatched rawRest := by
  by_cases hempty : template.text = []
  · obtain ⟨hrawCut, hstrips⟩ := stripsBoth_of_empty hempty hurl hencoded url.rawPath
    obtain ⟨hcut, -⟩ := stripsBoth_of_empty hempty hurl hencoded url.path
    exact iff_of_true hstrips
      (Or.inr (Or.inr ⟨[], url.path, [], url.rawPath, hcut, hrawCut, .decoded _ rfl⟩))
  by_cases hinstance : template.Instance url.path
  · obtain ⟨matched, rest, hcut⟩ := exists_cut hinstance
    by_cases hraw : url.rawPath = []
    · refine iff_of_true ?_ (Or.inl hraw)
      rcases stripPrefix_cases hempty hurl with ⟨-, heq⟩ | ⟨hrefuses, -⟩
      · rw [heq, replaceAll_of_cut hcut]
        refine stripsBoth_of_cut hurl hcut (Or.inl ?_)
        -- nothing longer than the empty raw path is left of it
        rw [hraw]
        by_cases hnil : template.Instance []
        · obtain ⟨rawMatched, rawRest, hrawCut⟩ := exists_cut hnil
          rw [replaceAll_of_cut hrawCut]
          exact (List.append_eq_nil_iff.mp hrawCut.append.symm).2
        · rw [replaceAll_of_not hnil]
      · exact absurd ⟨hinstance, Or.inl hraw⟩ hrefuses
    have hdecode := hencoded.resolve_left hraw
    rw [or_iff_right hraw, or_iff_right (not_not.mpr hinstance)]
    rcases stripPrefix_cases hempty hurl with ⟨haccepts, heq⟩ | ⟨hrefuses, heq⟩
    · obtain ⟨rawMatched, rawRest, hrawCut⟩ := exists_cut (haccepts.2.resolve_left hraw)
      rw [hrawCut.append, hcut.append] at hdecode
      have hsame := rest_iff_sameCut hdecode
      rw [heq, replaceAll_of_cut hcut, replaceAll_of_cut hrawCut]
      constructor
      · intro hstrips
        exact ⟨matched, rest, rawMatched, rawRest, hcut, hrawCut,
          hsame.mp (hstrips.encoded hinstance)⟩
      · rintro ⟨matched', rest', rawMatched', rawRest', hcut', hrawCut', hagree⟩
        obtain ⟨rfl, rfl⟩ := hcut.unique hcut'
        obtain ⟨rfl, rfl⟩ := hrawCut.unique hrawCut'
        exact stripsBoth_of_cut hurl hcut (hsame.mpr hagree)
    · rw [heq]
      constructor
      · intro hstrips
        obtain ⟨ref', url', matched', hserved, -⟩ := hstrips.strips hinstance
        cases hserved
      · rintro ⟨_, _, rawMatched, rawRest, -, hrawCut, -⟩
        exact absurd ⟨hinstance, Or.inr hrawCut.instance⟩ hrefuses
  · refine iff_of_true ?_ (Or.inr (Or.inl hinstance))
    rcases stripPrefix_cases hempty hurl with ⟨haccepts, -⟩ | ⟨-, heq⟩
    · exact absurd haccepts.1 hinstance
    · rw [heq]
      exact ⟨fun h => absurd h hinstance, fun _ => rfl, hurl⟩

end Serve

/-! ## The template of the router -/

/-- The template `/{repoName}`. -/
def sampleTemplate : PathTemplate :=
  ⟨[(⟨ascii "/", by decide +kernel, by decide +kernel⟩,
      ⟨ascii "repoName", by decide +kernel⟩)], ⟨[], by decide +kernel, by decide +kernel⟩⟩

/-- An encoded blank in the first element does no harm: both paths lose that element. -/
theorem sample_stripsBoth_iff :
    let url : URL := ⟨ascii "/a b/c", ascii "/a%20b/c"⟩
    StripsBoth sampleTemplate url 0 (stripPrefix sampleTemplate.text [url] 0) := by
  intro url
  apply (stripsBoth_iff rfl (Or.inr (by decide +kernel))).mpr
  have hcut : sampleTemplate.Cut url.path (ascii "/a b") (ascii "/c") :=
    cut_eq_some_iff.mp (by decide +kernel)
  have hrawCut : sampleTemplate.Cut url.rawPath (ascii "/a%20b") (ascii "/c") :=
    cut_eq_some_iff.mp (by decide +kernel)
  exact .inr (.inr ⟨_, _, _, _, hcut, hrawCut, .decoded _ (by decide +kernel)⟩)

/-- A URL with an encoded slash in its first element. -/
def sampleURL : URL := ⟨ascii "/a/b/c", ascii "/a%2Fb/c"⟩

/-- The path loses its first element there, and the encoded path two of them. -/
theorem sample_not_stripsBoth : sampleURL.Encoded ∧
    ¬ StripsBoth sampleTemplate sampleURL 0
      (stripPrefix sampleTemplate.text [sampleURL] 0) := by
  refine ⟨Or.inr (by decide +kernel), fun hstrips => ?_⟩
  have hserved : stripPrefix sampleTemplate.text [sampleURL] 0 =
      ⟨[sampleURL] ++ [⟨ascii "/b/c", ascii "/c"⟩], .next 1⟩ := by decide +kernel
  have hinstance : sampleTemplate.Instance sampleURL.path := by
    by_contra hnot
    exact absurd (cut_eq_none_iff.mpr hnot) (by decide +kernel)
  rw [hserved] at hstrips
  have hencoded := @StripsBoth.encoded _ [sampleURL] _ _ _ _ hinstance hstrips
  revert hencoded
  decide +kernel

end RepoManager
