import Mathlib.Data.List.Basic
import Mathlib.Data.List.Infix
import Mathlib.Data.List.TakeWhile

/-!
# Lexical processing of slash-separated paths

A path is a byte string. `clean`, `join` and `base` are the purely lexical functions of
that name on Unix: no file system is consulted and symbolic links do not exist.

The abstract side is a walk: an absolute path denotes a location, a list of path names
from the root, and every further path element moves the location. `clean_eq_render` and
`absolute_join` say that the lexical functions compute exactly this walk.
-/

/-- A sequence of bytes, with no assumption on the encoding. -/
abbrev ByteString := List UInt8

/-- Byte strings are compared byte by byte. -/
instance : LawfulBEq ByteString := inferInstance

/-- The bytes of a literal text. -/
def ascii (text : String) : ByteString := text.toUTF8.data.toList

namespace LexicalPath

/-- The path separator. -/
def slash : UInt8 := 0x2f

/-- The path name of the current directory. -/
def dot : ByteString := [0x2e]

/-- The path name of the parent directory. -/
def dotDot : ByteString := [0x2e, 0x2e]

/-- What one path name may be: non-empty, without separator, and neither `.` nor `..`. -/
def IsSegment (name : ByteString) : Prop :=
  name ≠ [] ∧ slash ∉ name ∧ name ≠ dot ∧ name ≠ dotDot

instance (name : ByteString) : Decidable (IsSegment name) :=
  inferInstanceAs (Decidable (_ ∧ _ ∧ _ ∧ _))

/-- A path name, with the proof that it names a child of a directory. -/
structure Segment where
  val : ByteString
  property : IsSegment val
  deriving DecidableEq

/-- A location: the path names from the root directory. -/
abbrev Location := List Segment

@[ext] theorem Segment.ext {left right : Segment} (h : left.val = right.val) : left = right := by
  cases left
  cases right
  simpa using h

/-- The byte string determines the segment. -/
theorem Segment.val_injective : Function.Injective Segment.val := fun _ _ => Segment.ext

/-! ## The lexical functions -/

/-- The elements of a path between its separators; empty ones are kept. -/
def components (path : ByteString) : List ByteString := path.splitOn slash

/-- One element against the stack of those kept so far, the last one first. -/
def push (rooted : Bool) (stack : List ByteString) (name : ByteString) : List ByteString :=
  if name = [] ∨ name = dot then stack
  else if name = dotDot then
    match stack with
    | [] => if rooted then [] else [dotDot]
    | top :: rest => if top = dotDot then dotDot :: top :: rest else rest
  else name :: stack

/-- Whether a path starts at the root. -/
def isAbs (path : ByteString) : Bool := path.head? = some slash

/-- The shortest path name equivalent to `path` by lexical processing. -/
def clean (path : ByteString) : ByteString :=
  let kept := ((components path).foldl (push (isAbs path)) []).reverse
  if isAbs path then slash :: [slash].intercalate kept
  else if kept = [] then dot
  else [slash].intercalate kept

/-- Join path elements with separators, ignoring leading empty ones, and clean the result. -/
def join (elems : List ByteString) : ByteString :=
  match elems.dropWhile (fun elem => decide (elem = [])) with
  | [] => []
  | elem :: rest => clean ([slash].intercalate (elem :: rest))

/-- The last element of a path: trailing separators are removed first, an empty path gives
`.` and a path of separators gives `/`. -/
def base (path : ByteString) : ByteString :=
  if path = [] then dot
  else
    let stripped := path.reverse.dropWhile (fun byte => decide (byte = slash))
    if stripped = [] then [slash]
    else (stripped.takeWhile (fun byte => decide (byte ≠ slash))).reverse

/-! ## Locations -/

/-- The absolute path of a location. -/
def render (loc : Location) : ByteString := slash :: [slash].intercalate (loc.map Segment.val)

/-- Follow one path element from a location; the parent of the root is the root. -/
def visit (loc : Location) (name : ByteString) : Location :=
  if h : IsSegment name then loc ++ [⟨name, h⟩]
  else if name = dotDot then loc.dropLast
  else loc

/-- Follow every element of a path from a location. -/
def walk (loc : Location) (path : ByteString) : Location := (components path).foldl visit loc

/-- The location an absolute path denotes. -/
def absolute (path : ByteString) : Location := walk [] path

/-! ## Elements -/

section Separators

variable {separator : UInt8} {left : ByteString}

/-- The text before the first separator. -/
theorem takeWhile_ne_append (h : separator ∉ left) (right : ByteString) :
    (left ++ separator :: right).takeWhile (· ≠ separator) = left := by
  have hleft : ∀ byte ∈ left, decide (byte ≠ separator) = true :=
    fun byte hmem => decide_eq_true fun heq => h (heq ▸ hmem)
  rw [List.takeWhile_append_of_pos hleft, List.takeWhile_cons_of_neg (by simp), List.append_nil]

/-- The text from the first separator on. -/
theorem dropWhile_ne_append (h : separator ∉ left) (right : ByteString) :
    (left ++ separator :: right).dropWhile (· ≠ separator) = separator :: right := by
  have hleft : ∀ byte ∈ left, decide (byte ≠ separator) = true :=
    fun byte hmem => decide_eq_true fun heq => h (heq ▸ hmem)
  rw [List.dropWhile_append_of_pos hleft, List.dropWhile_cons_of_neg (by simp)]

end Separators

/-- No element of a path contains the separator. -/
theorem slash_notMem_of_mem_components {path name : ByteString} (h : name ∈ components path) :
    slash ∉ name := by
  induction path generalizing name with
  | nil =>
    simp only [components, List.splitOn_nil, List.mem_singleton] at h
    simp [h]
  | cons byte rest ih =>
    simp only [components, List.splitOn_cons_eq_if_modifyHead] at h ih
    by_cases hbyte : byte = slash
    · simp only [hbyte, BEq.rfl, if_true, List.mem_cons] at h
      rcases h with rfl | h
      · exact List.not_mem_nil
      · exact ih h
    · rw [if_neg (by simpa using hbyte)] at h
      obtain ⟨first, others, hsplit⟩ := List.exists_cons_of_ne_nil (List.splitOn_ne_nil slash rest)
      rw [hsplit, List.modifyHead_cons, List.mem_cons] at h
      rcases h with rfl | h
      · have hfirst : slash ∉ first := ih (hsplit ▸ List.mem_cons_self)
        simp [hfirst, Ne.symm hbyte]
      · exact ih (hsplit ▸ List.mem_cons_of_mem _ h)

/-- A separator between two paths separates their elements. -/
theorem components_append (left right : ByteString) :
    components (left ++ slash :: right) = components left ++ components right :=
  List.splitOn_append_cons_self left right

/-- Every path has an element. -/
theorem components_ne_nil (path : ByteString) : components path ≠ [] :=
  List.splitOn_ne_nil slash path

/-- The elements of separated paths are those of each of them, in order. -/
theorem components_intercalate (elems : List ByteString) (h : elems ≠ []) :
    components ([slash].intercalate elems) = elems.flatMap components := by
  induction elems with
  | nil => exact absurd rfl h
  | cons elem rest ih =>
    cases rest with
    | nil => simp [List.intercalate_singleton]
    | cons next rest =>
      rw [List.intercalate_cons_cons, List.append_assoc, List.singleton_append,
        components_append, ih (List.cons_ne_nil _ _)]
      rfl

/-- A name without separator is its only element. -/
theorem components_of_slash_notMem {name : ByteString} (h : slash ∉ name) :
    components name = [name] :=
  List.splitOn_eq_singleton h

/-- The elements of a list of names without separators are these names. -/
theorem flatMap_components_of_slash_notMem (names : List ByteString)
    (h : ∀ name ∈ names, slash ∉ name) : names.flatMap components = names := by
  induction names with
  | nil => rfl
  | cons name rest ih =>
    rw [List.flatMap_cons, components_of_slash_notMem (h name List.mem_cons_self),
      ih fun other hother => h other (List.mem_cons_of_mem _ hother), List.singleton_append]

/-! ## Walking -/

/-- Walking a list of paths in turn. -/
theorem foldl_walk (loc : Location) (elems : List ByteString) :
    elems.foldl walk loc = (elems.flatMap components).foldl visit loc := by
  induction elems generalizing loc with
  | nil => rfl
  | cons elem rest ih => rw [List.foldl_cons, ih, List.flatMap_cons, List.foldl_append, walk]

/-- A segment leads to the child of that name. -/
@[simp] theorem walk_segment (loc : Location) (name : Segment) :
    walk loc name.val = loc ++ [name] := by
  simp [walk, components_of_slash_notMem name.property.2.1, visit, name.property]

/-- The parent name leads to the parent. -/
@[simp] theorem walk_dotDot (loc : Location) : walk loc dotDot = loc.dropLast := by
  rw [walk, components_of_slash_notMem (by decide), List.foldl_cons, List.foldl_nil, visit,
    dif_neg (by decide), if_pos rfl]

/-- Walking the names of a location below another appends it. -/
theorem foldl_visit_segments (loc below : Location) :
    (below.map Segment.val).foldl visit loc = loc ++ below := by
  induction below generalizing loc with
  | nil => simp
  | cons name rest ih =>
    have hname : visit loc name.val = loc ++ [name] := by simp [visit, name.property]
    rw [List.map_cons, List.foldl_cons, hname, ih, List.append_assoc, List.singleton_append]

/-! ## The lexical functions compute the walk -/

/-- On the stack of a location, an element without separator acts as a visit. -/
theorem push_eq_visit (loc : Location) {name : ByteString} (h : slash ∉ name) :
    push true (loc.map Segment.val).reverse name = ((visit loc name).map Segment.val).reverse := by
  unfold push visit
  by_cases hskip : name = [] ∨ name = dot
  · have hseg : ¬ IsSegment name := fun hs => hskip.elim hs.1 hs.2.2.1
    have hparent : name ≠ dotDot := by
      rcases hskip with rfl | rfl <;> decide
    rw [if_pos hskip, dif_neg hseg, if_neg hparent]
  · rw [if_neg hskip]
    by_cases hparent : name = dotDot
    · have hseg : ¬ IsSegment name := fun hs => hs.2.2.2 hparent
      rw [if_pos hparent, dif_neg hseg, if_pos hparent]
      rcases List.eq_nil_or_concat loc with rfl | ⟨init, last, rfl⟩
      · rfl
      · simp [last.property.2.2.2]
    · have hseg : IsSegment name :=
        ⟨fun hnil => hskip (Or.inl hnil), h, fun hdot => hskip (Or.inr hdot), hparent⟩
      rw [if_neg hparent, dif_pos hseg]
      simp

/-- Processing elements on the stack of a location is visiting them in turn. -/
theorem foldl_push_eq_visit (names : List ByteString) (loc : Location)
    (h : ∀ name ∈ names, slash ∉ name) :
    names.foldl (push true) (loc.map Segment.val).reverse =
      ((names.foldl visit loc).map Segment.val).reverse := by
  induction names generalizing loc with
  | nil => rfl
  | cons name rest ih =>
    rw [List.foldl_cons, push_eq_visit loc (h name List.mem_cons_self),
      ih _ fun other hother => h other (List.mem_cons_of_mem _ hother), List.foldl_cons]

/-- Cleaning an absolute path renders the location it denotes. -/
theorem clean_eq_render {path : ByteString} (h : isAbs path = true) :
    clean path = render (absolute path) := by
  have hwalk := foldl_push_eq_visit (components path) [] fun _ => slash_notMem_of_mem_components
  simp only [List.map_nil, List.reverse_nil] at hwalk
  simp only [clean, h, if_true, hwalk, List.reverse_reverse]
  rfl

/-- A rendered location is an absolute path. -/
@[simp] theorem isAbs_render (loc : Location) : isAbs (render loc) = true := rfl

/-- The elements of a rendered location: nothing before the first separator, then the names. -/
theorem components_render {loc : Location} (h : loc ≠ []) :
    components (render loc) = [] :: loc.map Segment.val := by
  have hnames : ∀ name ∈ loc.map Segment.val, slash ∉ name := by
    intro name hname
    obtain ⟨seg, _, rfl⟩ := List.mem_map.mp hname
    exact seg.property.2.1
  have helems : components (render loc) =
      components [] ++ components ([slash].intercalate (loc.map Segment.val)) :=
    components_append [] _
  rw [helems, components_intercalate _ (by simpa using h),
    flatMap_components_of_slash_notMem _ hnames]
  rfl

/-- Rendering loses nothing. -/
@[simp] theorem absolute_render (loc : Location) : absolute (render loc) = loc := by
  by_cases hloc : loc = []
  · subst hloc
    decide
  · have hempty : visit [] [] = [] := by decide
    rw [absolute, walk, components_render hloc, List.foldl_cons, hempty, foldl_visit_segments,
      List.nil_append]

/-- The non-empty elements of a rendered location are path names. -/
theorem isSegment_of_mem_components_render {loc : Location} {elem : ByteString}
    (helem : elem ∈ components (render loc)) (hne : elem ≠ []) : IsSegment elem := by
  by_cases hloc : loc = []
  · subst hloc
    have hroot : components (render []) = [[], []] := by decide
    simp [hroot, hne] at helem
  · rw [components_render hloc, List.mem_cons] at helem
    obtain ⟨seg, _, rfl⟩ := List.mem_map.mp (helem.resolve_left hne)
    exact seg.property

/-- A rooted path with the elements of a location is its rendering. -/
theorem eq_render_of_components {path : ByteString} {loc : Location} (hhead : isAbs path = true)
    (h : (components path).tail = loc.map Segment.val) : path = render loc := by
  cases path with
  | nil => exact absurd hhead (by decide)
  | cons byte rest =>
    obtain rfl : byte = slash := by simpa [isAbs] using hhead
    have helems : components (slash :: rest) = [] :: components rest := components_append [] rest
    have hrest : [slash].intercalate (components rest) = rest := List.intercalate_splitOn slash
    rw [helems, List.tail_cons] at h
    rw [render, ← h, hrest]

/-- Distinct locations have distinct paths. -/
theorem render_injective : Function.Injective render :=
  Function.LeftInverse.injective absolute_render

/-- Joining onto an absolute path renders the walk of all the elements. -/
theorem join_eq_render {root : ByteString} (h : isAbs root = true) (rest : List ByteString) :
    join (root :: rest) = render (rest.foldl walk (absolute root)) := by
  have hroot : root ≠ [] := by
    rintro rfl
    simp [isAbs] at h
  have habs : isAbs ([slash].intercalate (root :: rest)) = true := by
    cases root with
    | nil => exact absurd rfl hroot
    | cons byte tail => cases rest <;> simpa [isAbs, List.intercalate] using h
  have hjoin : join (root :: rest) = clean ([slash].intercalate (root :: rest)) := by
    simp [join, hroot]
  rw [hjoin, clean_eq_render habs, absolute, walk, components_intercalate _ (List.cons_ne_nil _ _),
    ← foldl_walk, List.foldl_cons]
  rfl

/-- A name starts with a byte that is no separator. -/
theorem Segment.exists_cons (name : Segment) :
    ∃ byte rest, name.val = byte :: rest ∧ byte ≠ slash := by
  obtain ⟨byte, rest, hname⟩ := List.exists_cons_of_ne_nil name.property.1
  refine ⟨byte, rest, hname, ?_⟩
  rintro rfl
  exact name.property.2.1 (hname ▸ List.mem_cons_self)

/-- A relative path that begins with a name. -/
theorem isAbs_segment_append (name : Segment) (rest : ByteString) :
    isAbs (name.val ++ rest) = false := by
  obtain ⟨byte, tail, hname, hbyte⟩ := name.exists_cons
  simpa [isAbs, hname] using hbyte

/-- The first name of a relative path is kept. -/
theorem push_segment (name : Segment) : push false [] name.val = [name.val] := by
  simp [push, name.property.1, name.property.2.2.1, name.property.2.2.2]

/-- Cleaning leaves a single segment as it is. -/
@[simp] theorem clean_segment (name : Segment) : clean name.val = name.val := by
  have habs : isAbs name.val = false := by simpa using isAbs_segment_append name []
  simp [clean, habs, components_of_slash_notMem name.property.2.1, push_segment]

/-! ## The last element -/

/-- The last element of a non-empty path is the separator alone or a non-empty name without it. -/
theorem base_cases {path : ByteString} (h : path ≠ []) :
    base path = [slash] ∨ base path ≠ [] ∧ slash ∉ base path := by
  unfold base
  rw [if_neg h]
  cases hstripped : path.reverse.dropWhile (fun byte => decide (byte = slash)) with
  | nil => exact Or.inl rfl
  | cons byte rest =>
    have hbyte : byte ≠ slash := by
      simpa [hstripped] using List.head_dropWhile_not (fun byte => decide (byte = slash))
        (l := path.reverse) (by simp [hstripped])
    refine Or.inr ⟨by simp [hbyte], ?_⟩
    simp only [reduceCtorEq, if_false, List.mem_reverse]
    intro hmem
    simpa using List.mem_takeWhile_imp hmem

/-- A name after the last separator is the last element. -/
theorem base_append {parent name : ByteString} (hne : name ≠ []) (hslash : slash ∉ name) :
    base (parent ++ slash :: name) = name := by
  have hmem : slash ∉ name.reverse := fun hmem => hslash (List.mem_reverse.mp hmem)
  have hrev : (parent ++ slash :: name).reverse = name.reverse ++ slash :: parent.reverse := by simp
  have hdrop : (parent ++ slash :: name).reverse.dropWhile (fun byte => decide (byte = slash)) =
      name.reverse ++ slash :: parent.reverse := by
    rw [hrev]
    obtain ⟨last, init, hname⟩ := List.exists_cons_of_ne_nil (List.reverse_ne_nil_iff.mpr hne)
    have hlast : last ≠ slash := fun heq => hmem (by rw [hname, heq]; exact List.mem_cons_self)
    rw [hname, List.cons_append, List.dropWhile_cons_of_neg (by simpa using hlast)]
  unfold base
  rw [if_neg (by simp), hdrop, if_neg (by simp), takeWhile_ne_append hmem, List.reverse_reverse]

/-- One more element is separated from those before it. -/
theorem intercalate_concat (elems : List ByteString) (elem : ByteString) (h : elems ≠ []) :
    [slash].intercalate (elems ++ [elem]) = [slash].intercalate elems ++ slash :: elem := by
  induction elems with
  | nil => exact absurd rfl h
  | cons first rest ih =>
    cases rest with
    | nil => simp [List.intercalate_cons_cons, List.intercalate_singleton]
    | cons next rest =>
      rw [List.cons_append, List.intercalate_cons_of_ne_nil (by simp), ih (List.cons_ne_nil _ _),
        List.intercalate_cons_of_ne_nil (List.cons_ne_nil _ _)]
      simp only [List.append_assoc]

/-- A rendered child ends with the name of the child. -/
theorem render_concat (loc : Location) (name : Segment) :
    ∃ parent, render (loc ++ [name]) = parent ++ slash :: name.val := by
  by_cases hloc : loc = []
  · exact ⟨[], by simp [hloc, render, List.intercalate_singleton]⟩
  · refine ⟨render loc, ?_⟩
    simp only [render, List.map_append, List.map_cons, List.map_nil]
    rw [intercalate_concat _ _ (by simpa using hloc), List.cons_append]

/-- The last element of a rendered child is the name of the child. -/
@[simp] theorem base_render_child (loc : Location) (name : Segment) :
    base (render (loc ++ [name])) = name.val := by
  obtain ⟨parent, hparent⟩ := render_concat loc name
  rw [hparent, base_append name.property.1 name.property.2.1]

/-- A name does not end with a separator. -/
theorem getLast?_append_segment (start : ByteString) (name : Segment) :
    (start ++ name.val).getLast? ≠ some slash := by
  obtain ⟨name, hne, hslash, -⟩ := name
  rw [List.getLast?_append_of_ne_nil start hne]
  exact fun h => hslash (List.mem_of_getLast? h)

example : clean (ascii "/srv//mirror/./kes/../x/") = ascii "/srv/mirror/x" := by decide

/-! ## The bytes of a path -/

/-- A byte of elements with separators between them. -/
theorem mem_intercalate {byte separator : UInt8} {elems : List ByteString}
    (h : byte ∈ [separator].intercalate elems) :
    byte = separator ∨ ∃ elem ∈ elems, byte ∈ elem := by
  induction elems with
  | nil => exact nomatch h
  | cons elem rest ih =>
    cases rest with
    | nil =>
      rw [List.intercalate_singleton] at h
      exact Or.inr ⟨elem, List.mem_singleton_self elem, h⟩
    | cons next rest =>
      rw [List.intercalate_cons_cons, List.append_assoc] at h
      rcases List.mem_append.mp h with helem | hrest
      · exact Or.inr ⟨elem, List.mem_cons_self, helem⟩
      · rcases List.mem_cons.mp hrest with heq | hrest
        · exact Or.inl heq
        · refine (ih hrest).imp_right ?_
          rintro ⟨other, hmem, hbyte⟩
          exact ⟨other, List.mem_cons_of_mem _ hmem, hbyte⟩

/-- The bytes of every element are among them. -/
theorem mem_intercalate_of_mem {elems : List ByteString} {elem : ByteString} (helem : elem ∈ elems)
    {byte : UInt8} (hbyte : byte ∈ elem) : byte ∈ [slash].intercalate elems := by
  induction elems with
  | nil => exact nomatch helem
  | cons first rest ih =>
    cases rest with
    | nil =>
      rw [List.intercalate_singleton]
      exact List.mem_singleton.mp helem ▸ hbyte
    | cons next rest =>
      rw [List.intercalate_cons_cons, List.append_assoc]
      rcases List.mem_cons.mp helem with rfl | hmem
      · exact List.mem_append_left _ hbyte
      · exact List.mem_append_right _ (List.mem_cons_of_mem _ (ih hmem))

/-- A byte of an element is one of the path. -/
theorem mem_of_mem_components {path name : ByteString} (hname : name ∈ components path)
    {byte : UInt8} (hbyte : byte ∈ name) : byte ∈ path := by
  have hpath : [slash].intercalate (components path) = path := List.intercalate_splitOn slash
  exact hpath ▸ mem_intercalate_of_mem hname hbyte

/-- An element puts nothing on the stack but itself, and `..` only over another one. -/
theorem mem_push {rooted : Bool} {stack : List ByteString} {elem name : ByteString}
    (h : name ∈ push rooted stack elem) : name ∈ stack ∨ name = elem ∨ name = dotDot := by
  unfold push at h
  split at h
  · exact Or.inl h
  · split at h
    · cases stack with
      | nil =>
        cases rooted with
        | true => exact nomatch h
        | false => exact Or.inr (Or.inr (List.mem_singleton.mp h))
      | cons top rest =>
        dsimp only at h
        split at h
        · exact (List.mem_cons.mp h).symm.imp_right Or.inr
        · exact Or.inl (List.mem_cons_of_mem _ h)
    · exact (List.mem_cons.mp h).symm.imp_right Or.inl

/-- Only names of the path and `..` are kept. -/
theorem mem_foldl_push {rooted : Bool} {names stack : List ByteString} {name : ByteString}
    (h : name ∈ names.foldl (push rooted) stack) :
    name ∈ stack ∨ name ∈ names ∨ name = dotDot := by
  induction names generalizing stack with
  | nil => exact Or.inl h
  | cons first names ih =>
    rcases ih h with hpushed | hrest | hdots
    · rcases mem_push hpushed with hstack | rfl | hdots
      · exact Or.inl hstack
      · exact Or.inr (Or.inl List.mem_cons_self)
      · exact Or.inr (Or.inr hdots)
    · exact Or.inr (Or.inl (List.mem_cons_of_mem _ hrest))
    · exact Or.inr (Or.inr hdots)

/-- A cleaned path has no bytes but those of the path, separators and dots. -/
theorem mem_clean {path : ByteString} {byte : UInt8} (h : byte ∈ clean path) :
    byte ∈ path ∨ byte = slash ∨ byte ∈ dot := by
  have hkept (h : byte ∈ [slash].intercalate
      ((components path).foldl (push (isAbs path)) []).reverse) :
      byte ∈ path ∨ byte = slash ∨ byte ∈ dot := by
    rcases mem_intercalate h with hslash | ⟨name, hname, hbyte⟩
    · exact Or.inr (Or.inl hslash)
    · rcases mem_foldl_push (List.mem_reverse.mp hname) with hnil | hmem | rfl
      · exact nomatch hnil
      · exact Or.inl (mem_of_mem_components hmem hbyte)
      · exact Or.inr (Or.inr (by simpa [dotDot, dot] using hbyte))
  unfold clean at h
  dsimp only at h
  split at h
  · exact (List.mem_cons.mp h).elim (fun hslash => Or.inr (Or.inl hslash)) hkept
  · split at h
    · exact Or.inr (Or.inr h)
    · exact hkept h

/-- A joined path has no bytes but those of its elements, separators and dots. -/
theorem mem_join {elems : List ByteString} {byte : UInt8} (h : byte ∈ join elems) :
    (∃ elem ∈ elems, byte ∈ elem) ∨ byte = slash ∨ byte ∈ dot := by
  unfold join at h
  split at h
  · exact nomatch h
  · next elem rest hdrop =>
    have hsuffix : elem :: rest <:+ elems := hdrop ▸ List.dropWhile_suffix _
    rcases mem_clean h with hpath | hother
    · rcases mem_intercalate hpath with hslash | ⟨name, hname, hbyte⟩
      · exact Or.inr (Or.inl hslash)
      · exact Or.inl ⟨name, hsuffix.subset hname, hbyte⟩
    · exact Or.inr hother

end LexicalPath
