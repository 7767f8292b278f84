import RepoManager.Library.LexicalPath

/-!
# A router of nested path templates

Routes are tried in the order of their registration. A route of a subrouter matches the
template of the subrouter followed by its own, and its handler runs inside the middlewares of
every subrouter around it. A variable of a template stands for one non-empty element of the
path.

`Guarded` is the static check that every occurrence of certain handlers lies inside a given
middleware; `dispatch_guarded` turns it into a fact about every dispatched request. The values
of the variables are elements of the path, so for a path in clean form they are path names.

That subrouters test their own template first saves tries and changes nothing: a router finds what
the flat list of its routes finds (`dispatchFirst_eq_flatten`).
-/

open LexicalPath

namespace Mux

/-- One element of a path template. -/
inductive Pattern where
  | literal (text : ByteString)
  | var (name : ByteString)
  deriving DecidableEq

/-- The elements of a path template, without the leading separator. -/
abbrev Template := List Pattern

/-- The values of the template variables. -/
abbrev Vars := List (ByteString × ByteString)

/-- The value of a template variable, empty when there is none. -/
def Vars.get (vars : Vars) (name : ByteString) : ByteString := (vars.lookup name).getD []

/-- Read a template element: braces around a name make it a variable. -/
def pattern (text : ByteString) : Pattern :=
  if text.head? = some 0x7b ∧ text.getLast? = some 0x7d then .var text.tail.dropLast
  else .literal text

/-- Read a template such as `/files/\x7bname\x7d`. -/
def template (text : String) : Template := (components (ascii text)).tail.map pattern

/-- One element of a path against one of the template. -/
def Pattern.matchElem : Pattern → ByteString → Option Vars
  | .literal text, elem => if text = elem then some [] else none
  | .var name, elem => if elem ≠ [] then some [(name, elem)] else none

/-- The last element of a prefix template needs to match only the start of a path element. -/
def Pattern.matchStart : Pattern → ByteString → Option Vars
  | .literal text, elem => if text <+: elem then some [] else none
  | .var name, elem => if elem ≠ [] then some [(name, elem)] else none

/-- A whole path against a template. -/
def matchFull : Template → List ByteString → Option Vars
  | [], [] => some []
  | head :: rest, elem :: elems => do
    let first ← head.matchElem elem
    let others ← matchFull rest elems
    some (first ++ others)
  | _, _ => none

/-- The start of a path against a template. -/
def matchPrefix : Template → List ByteString → Option Vars
  | [], _ => some []
  | [last], elem :: _ => last.matchStart elem
  | head :: next :: rest, elem :: elems => do
    let first ← head.matchElem elem
    let others ← matchPrefix (next :: rest) elems
    some (first ++ others)
  | _, _ => none

/-- A registered route; an empty list of methods allows every method. -/
inductive Route (H M : Type) where
  | handle (path : Template) (methods : List ByteString) (handler : H)
  | pathPrefix (path : Template) (handler : H)
  | subrouter (path : Template) (middlewares : List M) (routes : List (Route H M))

/-- What a request is dispatched to; the outermost middleware comes first. -/
structure Found (H M : Type) where
  handler : H
  middlewares : List M
  vars : Vars

variable {H M : Type}

mutual

/-- Try one route, below the template of the routers around it. -/
def dispatch (method : ByteString) (elems : List ByteString) (above : Template) :
    Route H M → Option (Found H M)
  | .handle path methods handler =>
    if methods = [] ∨ method ∈ methods then
      (matchFull (above ++ path) elems).map fun vars => ⟨handler, [], vars⟩
    else none
  | .pathPrefix path handler =>
    (matchPrefix (above ++ path) elems).map fun vars => ⟨handler, [], vars⟩
  | .subrouter path middlewares routes =>
    if (matchPrefix (above ++ path) elems).isSome then
      (dispatchFirst method elems (above ++ path) routes).map fun found =>
        { found with middlewares := middlewares ++ found.middlewares }
    else none

/-- Try routes in the order of their registration. -/
def dispatchFirst (method : ByteString) (elems : List ByteString) (above : Template) :
    List (Route H M) → Option (Found H M)
  | [] => none
  | route :: rest =>
    match dispatch method elems above route with
    | some found => some found
    | none => dispatchFirst method elems above rest

end

mutual

/-- Every occurrence of a handler in `special` lies inside the middleware `guard`. -/
def Guarded (guard : M) (special : H → Prop) : Route H M → Prop
  | .handle _ _ handler => ¬ special handler
  | .pathPrefix _ handler => ¬ special handler
  | .subrouter _ middlewares routes => guard ∈ middlewares ∨ GuardedAll guard special routes

/-- Every route of a list is guarded. -/
def GuardedAll (guard : M) (special : H → Prop) : List (Route H M) → Prop
  | [] => True
  | route :: rest => Guarded guard special route ∧ GuardedAll guard special rest

end

mutual

/-- Whatever its method and path, a request dispatched to a guarded handler runs inside the
guard. -/
theorem dispatch_guarded (guard : M) (special : H → Prop) (method : ByteString)
    (elems : List ByteString) (above : Template) (route : Route H M)
    (hguarded : Guarded guard special route) (found : Found H M)
    (hfound : dispatch method elems above route = some found) (hspecial : special found.handler) :
    guard ∈ found.middlewares := by
  match route with
  | .handle path methods handler =>
    simp only [dispatch] at hfound
    split at hfound
    · obtain ⟨vars, -, rfl⟩ := Option.map_eq_some_iff.mp hfound
      exact absurd hspecial hguarded
    · contradiction
  | .pathPrefix path handler =>
    simp only [dispatch] at hfound
    obtain ⟨vars, -, rfl⟩ := Option.map_eq_some_iff.mp hfound
    exact absurd hspecial hguarded
  | .subrouter path middlewares routes =>
    simp only [dispatch] at hfound
    split at hfound
    · obtain ⟨inner, hinner, rfl⟩ := Option.map_eq_some_iff.mp hfound
      rcases hguarded with hguard | hroutes
      · exact List.mem_append_left _ hguard
      · exact List.mem_append_right _
          (dispatchFirst_guarded guard special method elems _ routes hroutes inner hinner hspecial)
    · contradiction

/-- A request dispatched by a list of guarded routes runs inside the guard. -/
theorem dispatchFirst_guarded (guard : M) (special : H → Prop) (method : ByteString)
    (elems : List ByteString) (above : Template) (routes : List (Route H M))
    (hguarded : GuardedAll guard special routes) (found : Found H M)
    (hfound : dispatchFirst method elems above routes = some found)
    (hspecial : special found.handler) : guard ∈ found.middlewares := by
  match routes with
  | [] => simp [dispatchFirst] at hfound
  | route :: rest =>
    simp only [dispatchFirst] at hfound
    split at hfound
    · next inner hinner =>
      obtain rfl := Option.some.inj hfound
      exact dispatch_guarded guard special method elems above route hguarded.1 inner hinner hspecial
    · exact dispatchFirst_guarded guard special method elems above rest hguarded.2 found hfound
        hspecial

end

/-! ## The values of the variables -/

/-- The values a template element binds are its path element, and none of them is empty. -/
theorem matchElem_values {head : Pattern} {elem : ByteString} {vars : Vars}
    (h : head.matchElem elem = some vars) : ∀ bound ∈ vars, bound.2 = elem ∧ elem ≠ [] := by
  cases head with
  | literal text =>
    simp only [Pattern.matchElem] at h
    split at h
    · obtain rfl := Option.some.inj h
      simp
    · contradiction
  | var name =>
    simp only [Pattern.matchElem] at h
    split at h
    · next hne =>
      obtain rfl := Option.some.inj h
      simpa using hne
    · contradiction

/-- The start of a path element binds no other values. -/
theorem matchStart_values {head : Pattern} {elem : ByteString} {vars : Vars}
    (h : head.matchStart elem = some vars) : ∀ bound ∈ vars, bound.2 = elem ∧ elem ≠ [] := by
  cases head with
  | literal text =>
    simp only [Pattern.matchStart] at h
    split at h
    · obtain rfl := Option.some.inj h
      simp
    · contradiction
  | var name => exact @matchElem_values (.var name) _ _ h

/-- Every value a template binds is a non-empty element of the path. -/
theorem matchFull_values {path : Template} {elems : List ByteString} {vars : Vars}
    (h : matchFull path elems = some vars) :
    ∀ bound ∈ vars, bound.2 ∈ elems ∧ bound.2 ≠ [] := by
  induction path generalizing elems vars with
  | nil =>
    cases elems with
    | nil =>
      obtain rfl := Option.some.inj h
      simp
    | cons elem elems => simp [matchFull] at h
  | cons head rest ih =>
    cases elems with
    | nil => simp [matchFull] at h
    | cons elem elems =>
      simp only [matchFull, Option.bind_eq_bind, Option.bind_eq_some_iff, Option.some.injEq] at h
      obtain ⟨first, hfirst, others, hothers, rfl⟩ := h
      intro bound hbound
      rcases List.mem_append.mp hbound with hbound | hbound
      · obtain ⟨heq, hne⟩ := matchElem_values hfirst bound hbound
        exact ⟨heq ▸ List.mem_cons_self, heq ▸ hne⟩
      · obtain ⟨hmem, hne⟩ := ih hothers bound hbound
        exact ⟨List.mem_cons_of_mem _ hmem, hne⟩

/-- Every value a prefix template binds is a non-empty element of the path. -/
theorem matchPrefix_values {path : Template} {elems : List ByteString} {vars : Vars}
    (h : matchPrefix path elems = some vars) :
    ∀ bound ∈ vars, bound.2 ∈ elems ∧ bound.2 ≠ [] := by
  induction path generalizing elems vars with
  | nil =>
    simp only [matchPrefix, Option.some.injEq] at h
    simp [← h]
  | cons head rest ih =>
    cases elems with
    | nil => cases rest <;> simp [matchPrefix] at h
    | cons elem elems =>
      cases rest with
      | nil =>
        intro bound hbound
        obtain ⟨heq, hne⟩ := matchStart_values h bound hbound
        exact ⟨heq ▸ List.mem_cons_self, heq ▸ hne⟩
      | cons next rest =>
        simp only [matchPrefix, Option.bind_eq_bind, Option.bind_eq_some_iff, Option.some.injEq]
          at h
        obtain ⟨first, hfirst, others, hothers, rfl⟩ := h
        intro bound hbound
        rcases List.mem_append.mp hbound with hbound | hbound
        · obtain ⟨heq, hne⟩ := matchElem_values hfirst bound hbound
          exact ⟨heq ▸ List.mem_cons_self, heq ▸ hne⟩
        · obtain ⟨hmem, hne⟩ := ih hothers bound hbound
          exact ⟨List.mem_cons_of_mem _ hmem, hne⟩

mutual

/-- The templates under which a handler is registered, below the template of the routers around
it, and whether only the start of a path has to match. -/
def templates [DecidableEq H] (handler : H) (above : Template) : Route H M → List (Bool × Template)
  | .handle path _ other => if other = handler then [(false, above ++ path)] else []
  | .pathPrefix path other => if other = handler then [(true, above ++ path)] else []
  | .subrouter path _ routes => templatesAll handler (above ++ path) routes

/-- The templates under which a list of routes registers a handler. -/
def templatesAll [DecidableEq H] (handler : H) (above : Template) :
    List (Route H M) → List (Bool × Template)
  | [] => []
  | route :: rest => templates handler above route ++ templatesAll handler above rest

end

/-- Match a whole path or its start. -/
def matchTemplate (kind : Bool × Template) (elems : List ByteString) : Option Vars :=
  if kind.1 then matchPrefix kind.2 elems else matchFull kind.2 elems

mutual

/-- A dispatched request matches a template of its handler, with the variables it gets. -/
theorem dispatch_templates [DecidableEq H] (method : ByteString) (elems : List ByteString)
    (above : Template) (route : Route H M) (found : Found H M)
    (hfound : dispatch method elems above route = some found) :
    ∃ kind ∈ templates found.handler above route, matchTemplate kind elems = some found.vars := by
  match route with
  | .handle path methods handler =>
    simp only [dispatch] at hfound
    split at hfound
    · obtain ⟨vars, hvars, rfl⟩ := Option.map_eq_some_iff.mp hfound
      exact ⟨(false, above ++ path), by simp [templates], hvars⟩
    · contradiction
  | .pathPrefix path handler =>
    simp only [dispatch] at hfound
    obtain ⟨vars, hvars, rfl⟩ := Option.map_eq_some_iff.mp hfound
    exact ⟨(true, above ++ path), by simp [templates], hvars⟩
  | .subrouter path middlewares routes =>
    simp only [dispatch] at hfound
    split at hfound
    · obtain ⟨inner, hinner, rfl⟩ := Option.map_eq_some_iff.mp hfound
      exact dispatchFirst_templates method elems (above ++ path) routes inner hinner
    · contradiction

/-- The templates of the handler to which the first matching route of a list dispatches. -/
theorem dispatchFirst_templates [DecidableEq H] (method : ByteString) (elems : List ByteString)
    (above : Template) (routes : List (Route H M)) (found : Found H M)
    (hfound : dispatchFirst method elems above routes = some found) :
    ∃ kind ∈ templatesAll found.handler above routes, matchTemplate kind elems = some found.vars := by
  match routes with
  | [] => contradiction
  | route :: rest =>
    simp only [dispatchFirst] at hfound
    split at hfound
    · next other hother =>
      obtain rfl := Option.some.inj hfound
      obtain ⟨kind, hkind, hmatch⟩ := dispatch_templates method elems above route other hother
      exact ⟨kind, List.mem_append_left _ hkind, hmatch⟩
    · obtain ⟨kind, hkind, hmatch⟩ :=
        dispatchFirst_templates method elems above rest found hfound
      exact ⟨kind, List.mem_append_right _ hkind, hmatch⟩

end

/-- The variables of a dispatched request are non-empty elements of its path. -/
theorem dispatchFirst_values [DecidableEq H] (method : ByteString) (elems : List ByteString)
    (above : Template) (routes : List (Route H M)) (found : Found H M)
    (hfound : dispatchFirst method elems above routes = some found) :
    ∀ bound ∈ found.vars, bound.2 ∈ elems ∧ bound.2 ≠ [] := by
  obtain ⟨kind, -, hmatch⟩ := dispatchFirst_templates method elems above routes found hfound
  unfold matchTemplate at hmatch
  split at hmatch
  · exact matchPrefix_values hmatch
  · exact matchFull_values hmatch

/-- A template element matches the first element of a path, and the rest the others. -/
theorem matchFull_cons {head : Pattern} {rest : Template} {elems : List ByteString} {vars : Vars}
    (h : matchFull (head :: rest) elems = some vars) : ∃ elem others first later,
      elems = elem :: others ∧ head.matchElem elem = some first ∧
        matchFull rest others = some later ∧ vars = first ++ later := by
  cases elems with
  | nil => exact nomatch h
  | cons elem others =>
    simp only [matchFull, Option.bind_eq_bind, Option.bind_eq_some_iff, Option.some.injEq] at h
    obtain ⟨first, hfirst, later, hlater, hvars⟩ := h
    exact ⟨elem, others, first, later, rfl, hfirst, hlater, hvars.symm⟩

/-- A variable takes the element. -/
theorem matchElem_var {name elem : ByteString} {vars : Vars}
    (h : (Pattern.var name).matchElem elem = some vars) : vars = [(name, elem)] := by
  simp only [Pattern.matchElem] at h
  split at h
  · exact (Option.some.inj h).symm
  · exact nomatch h

/-- A literal takes itself. -/
theorem matchElem_literal {text elem : ByteString} {vars : Vars}
    (h : (Pattern.literal text).matchElem elem = some vars) : elem = text ∧ vars = [] := by
  simp only [Pattern.matchElem] at h
  split at h
  · next heq => exact ⟨heq.symm, (Option.some.inj h).symm⟩
  · exact nomatch h

/-- A matched template binds the variables it names. -/
theorem mem_of_matchFull {path : Template} {elems : List ByteString} {vars : Vars}
    (h : matchFull path elems = some vars) {name : ByteString} (hname : .var name ∈ path) :
    ∃ value, (name, value) ∈ vars := by
  induction path generalizing elems vars with
  | nil => exact absurd hname List.not_mem_nil
  | cons head rest ih =>
    obtain ⟨elem, others, first, later, -, hfirst, hlater, rfl⟩ := matchFull_cons h
    rcases List.mem_cons.mp hname with rfl | hrest
    · obtain rfl := matchElem_var hfirst
      exact ⟨elem, List.mem_append_left _ (List.mem_singleton_self _)⟩
    · obtain ⟨value, hvalue⟩ := ih hlater hrest
      exact ⟨value, List.mem_append_right _ hvalue⟩

/-- A variable that is bound has one of its values. -/
theorem Vars.get_mem {vars : Vars} {name value : ByteString} (h : (name, value) ∈ vars) :
    (name, vars.get name) ∈ vars := by
  unfold Vars.get
  cases hlookup : vars.lookup name with
  | none =>
    have hne := List.lookup_eq_none_iff.mp hlookup (name, value) h
    simp at hne
  | some found =>
    obtain ⟨before, after, rfl, -⟩ := List.lookup_eq_some_iff.mp hlookup
    exact List.mem_append_right _ List.mem_cons_self

/-- A dispatched request has a value for every variable that all templates of its handler name. -/
theorem dispatchFirst_get_mem [DecidableEq H] {method : ByteString} {elems : List ByteString}
    {above : Template} {routes : List (Route H M)} {found : Found H M}
    (hfound : dispatchFirst method elems above routes = some found) {name : ByteString}
    (hnamed : ∀ kind ∈ templatesAll found.handler above routes,
      kind.1 = false ∧ .var name ∈ kind.2) : (name, found.vars.get name) ∈ found.vars := by
  obtain ⟨kind, hkind, hmatch⟩ := dispatchFirst_templates method elems above routes found hfound
  obtain ⟨hfull, hvar⟩ := hnamed kind hkind
  rw [matchTemplate, hfull] at hmatch
  obtain ⟨value, hvalue⟩ := mem_of_matchFull hmatch hvar
  exact Vars.get_mem hvalue

/-- A variable at the head of a template takes the first element of the path. -/
theorem head?_of_matchTemplate {kind : Bool × Template} {elems : List ByteString} {vars : Vars}
    {name : ByteString} (hhead : kind.2.head? = some (.var name))
    (h : matchTemplate kind elems = some vars) : elems.head? = some (vars.get name) := by
  obtain ⟨rest, hrest⟩ := List.head?_eq_some_iff.mp hhead
  rw [matchTemplate, hrest] at h
  split at h
  · cases elems with
    | nil => cases rest <;> contradiction
    | cons elem elems =>
      cases rest with
      | nil =>
        obtain rfl := @matchElem_var name elem vars h
        simp [Vars.get]
      | cons next rest =>
        simp only [matchPrefix, Option.bind_eq_bind, Option.bind_eq_some_iff, Option.some.injEq]
          at h
        obtain ⟨first, hfirst, others, -, rfl⟩ := h
        obtain rfl := matchElem_var hfirst
        simp [Vars.get]
  · obtain ⟨elem, others, first, later, rfl, hfirst, -, rfl⟩ := matchFull_cons h
    obtain rfl := matchElem_var hfirst
    simp [Vars.get]

/-! ## Flat routes -/

/-- A route without the routers around it: their templates and middlewares are its own. -/
structure Flat (H M : Type) where
  methods : List ByteString
  kind : Bool × Template
  middlewares : List M
  handler : H

/-- Try a flat route. -/
def Flat.dispatch (method : ByteString) (elems : List ByteString) (flat : Flat H M) :
    Option (Found H M) :=
  if flat.methods = [] ∨ method ∈ flat.methods then
    (matchTemplate flat.kind elems).map fun vars => ⟨flat.handler, flat.middlewares, vars⟩
  else none

mutual

/-- The flat routes of a route, inside a template and middlewares. -/
def flatten (above : Template) (around : List M) : Route H M → List (Flat H M)
  | .handle path methods handler => [⟨methods, (false, above ++ path), around, handler⟩]
  | .pathPrefix path handler => [⟨[], (true, above ++ path), around, handler⟩]
  | .subrouter path middlewares routes => flattenAll (above ++ path) (around ++ middlewares) routes

/-- The flat routes of a list of routes. -/
def flattenAll (above : Template) (around : List M) : List (Route H M) → List (Flat H M)
  | [] => []
  | route :: rest => flatten above around route ++ flattenAll above around rest

end

/-- What matches an element matches its start. -/
theorem matchStart_of_matchElem {head : Pattern} {elem : ByteString}
    (h : (head.matchElem elem).isSome) : (head.matchStart elem).isSome := by
  cases head with
  | var name => exact h
  | literal text =>
    simp only [Pattern.matchElem, Pattern.matchStart] at h ⊢
    split at h
    · next heq =>
      rw [heq, if_pos (List.prefix_refl elem)]
      rfl
    · contradiction

/-- The first element of a longer template, and the others. -/
theorem matchPrefix_cons_isSome {head : Pattern} {rest : Template} {elem : ByteString}
    {elems : List ByteString} (hhead : (head.matchElem elem).isSome)
    (hrest : (matchPrefix rest elems).isSome) :
    (matchPrefix (head :: rest) (elem :: elems)).isSome := by
  cases rest with
  | nil => exact matchStart_of_matchElem hhead
  | cons next rest =>
    obtain ⟨first, hfirst⟩ := Option.isSome_iff_exists.mp hhead
    obtain ⟨others, hothers⟩ := Option.isSome_iff_exists.mp hrest
    simp [matchPrefix, hfirst, hothers]

/-- A path that matches a template starts with what its first part matches. -/
theorem matchPrefix_of_matchFull (above : Template) {path : Template} {elems : List ByteString}
    (h : (matchFull (above ++ path) elems).isSome) : (matchPrefix above elems).isSome := by
  induction above generalizing elems with
  | nil => rfl
  | cons head rest ih =>
    obtain ⟨vars, hvars⟩ := Option.isSome_iff_exists.mp h
    obtain ⟨elem, others, first, later, rfl, hfirst, hlater, -⟩ := matchFull_cons hvars
    apply matchPrefix_cons_isSome
    · rw [hfirst]
      rfl
    · exact ih (Option.isSome_iff_exists.mpr ⟨later, hlater⟩)

/-- So does a path whose start matches. -/
theorem matchPrefix_of_append (above : Template) {path : Template} {elems : List ByteString}
    (h : (matchPrefix (above ++ path) elems).isSome) : (matchPrefix above elems).isSome := by
  induction above generalizing elems with
  | nil => rfl
  | cons head rest ih =>
    cases elems with
    | nil => cases hrest : rest ++ path <;> simp [matchPrefix, hrest] at h
    | cons elem elems =>
      cases hrest : rest ++ path with
      | nil =>
        obtain ⟨rfl, rfl⟩ := List.append_eq_nil_iff.mp hrest
        exact h
      | cons next later =>
        rw [List.cons_append, hrest] at h
        simp only [matchPrefix, Option.bind_eq_bind, Option.isSome_bind] at h
        cases hfirst : head.matchElem elem with
        | none => simp [hfirst] at h
        | some first =>
          cases hothers : matchPrefix (next :: later) elems with
          | none => simp [hfirst, hothers] at h
          | some others =>
            apply matchPrefix_cons_isSome
            · rw [hfirst]
              rfl
            · apply ih
              rw [hrest, hothers]
              rfl

/-- The start of a matched template matches. -/
theorem matchPrefix_of_matchTemplate {above rest : Template} {kind : Bool × Template}
    {elems : List ByteString} (hkind : kind.2 = above ++ rest)
    (h : (matchTemplate kind elems).isSome) : (matchPrefix above elems).isSome := by
  rw [matchTemplate, hkind] at h
  split at h
  · exact matchPrefix_of_append above h
  · exact matchPrefix_of_matchFull above h

mutual

/-- Flat routes lie below the template around them. -/
theorem kind_of_mem_flatten {above : Template} {around : List M} {flat : Flat H M}
    (route : Route H M) (hflat : flat ∈ flatten above around route) :
    ∃ rest, flat.kind.2 = above ++ rest := by
  match route with
  | .handle path methods handler =>
    obtain rfl := List.mem_singleton.mp hflat
    exact ⟨path, rfl⟩
  | .pathPrefix path handler =>
    obtain rfl := List.mem_singleton.mp hflat
    exact ⟨path, rfl⟩
  | .subrouter path middlewares routes =>
    obtain ⟨rest, hrest⟩ := kind_of_mem_flattenAll routes hflat
    exact ⟨path ++ rest, by rw [hrest, List.append_assoc]⟩

/-- The flat routes of a list lie below the template around them. -/
theorem kind_of_mem_flattenAll {above : Template} {around : List M} {flat : Flat H M}
    (routes : List (Route H M)) (hflat : flat ∈ flattenAll above around routes) :
    ∃ rest, flat.kind.2 = above ++ rest := by
  match routes with
  | [] => exact absurd hflat List.not_mem_nil
  | route :: rest =>
    rcases List.mem_append.mp hflat with hroute | hrest
    · exact kind_of_mem_flatten route hroute
    · exact kind_of_mem_flattenAll rest hrest

end

/-- Without a match of the template around them, no flat route is found. -/
theorem findSome?_flattenAll_eq_none {method : ByteString} {elems : List ByteString}
    {above : Template} (around : List M) (routes : List (Route H M))
    (h : ¬ (matchPrefix above elems).isSome) :
    (flattenAll above around routes).findSome? (Flat.dispatch method elems) = none := by
  rw [List.findSome?_eq_none_iff]
  intro flat hflat
  obtain ⟨rest, hrest⟩ := kind_of_mem_flattenAll routes hflat
  cases hmatch : matchTemplate flat.kind elems with
  | none => simp [Flat.dispatch, hmatch]
  | some vars =>
    have hsome := matchPrefix_of_matchTemplate hrest (Option.isSome_iff_exists.mpr ⟨vars, hmatch⟩)
    exact absurd hsome h

/-- What is found inside middlewares. -/
def Found.inside (around : List M) (found : Found H M) : Found H M :=
  { found with middlewares := around ++ found.middlewares }

mutual

/-- A route finds what its flat routes find. -/
theorem dispatch_eq_flatten (method : ByteString) (elems : List ByteString) (above : Template)
    (around : List M) (route : Route H M) :
    (dispatch method elems above route).map (Found.inside around) =
      (flatten above around route).findSome? (Flat.dispatch method elems) := by
  match route with
  | .handle path methods handler =>
    simp only [dispatch, flatten, List.findSome?_cons, List.findSome?_nil, Flat.dispatch]
    split
    · cases hmatch : matchFull (above ++ path) elems <;>
        simp [matchTemplate, hmatch, Found.inside]
    · rfl
  | .pathPrefix path handler =>
    simp only [dispatch, flatten, List.findSome?_cons, List.findSome?_nil, Flat.dispatch]
    cases hmatch : matchPrefix (above ++ path) elems <;>
      simp [matchTemplate, hmatch, Found.inside]
  | .subrouter path middlewares routes =>
    have ih := dispatchFirst_eq_flatten method elems (above ++ path) (around ++ middlewares) routes
    simp only [dispatch, flatten]
    split
    · rw [← ih, Option.map_map]
      congr 1
      funext inner
      simp [Found.inside]
    · next hnone => rw [findSome?_flattenAll_eq_none _ _ hnone, Option.map_none]

/-- A list of routes finds what its flat routes find: the templates of subrouters only save
tries. -/
theorem dispatchFirst_eq_flatten (method : ByteString) (elems : List ByteString)
    (above : Template) (around : List M) (routes : List (Route H M)) :
    (dispatchFirst method elems above routes).map (Found.inside around) =
      (flattenAll above around routes).findSome? (Flat.dispatch method elems) := by
  match routes with
  | [] => rfl
  | route :: rest =>
    have hroute := dispatch_eq_flatten method elems above around route
    have hrest := dispatchFirst_eq_flatten method elems above around rest
    rw [flattenAll, List.findSome?_append, ← hroute, ← hrest, dispatchFirst]
    cases dispatch method elems above route <;> rfl

end

section Tries

variable {method elem text name : ByteString} {rest : Template} {elems : List ByteString}

/-- The first flat route that matches is found. -/
theorem findSome?_dispatch_cons (flat : Flat H M) (routes : List (Flat H M)) :
    (flat :: routes).findSome? (Flat.dispatch method elems) =
      (flat.dispatch method elems).or (routes.findSome? (Flat.dispatch method elems)) := by
  rw [List.findSome?_cons]
  cases flat.dispatch method elems <;> rfl

/-- A flat route for every method. -/
@[simp] theorem Flat.dispatch_nil (kind : Bool × Template) (middlewares : List M) (handler : H) :
    Flat.dispatch method elems ⟨[], kind, middlewares, handler⟩ =
      (matchTemplate kind elems).map fun vars => ⟨handler, middlewares, vars⟩ := by
  simp [Flat.dispatch]

/-- A flat route for one method. -/
@[simp] theorem Flat.dispatch_singleton (allowed : ByteString) (kind : Bool × Template)
    (middlewares : List M) (handler : H) :
    Flat.dispatch method elems ⟨[allowed], kind, middlewares, handler⟩ =
      if method = allowed then
        (matchTemplate kind elems).map fun vars => ⟨handler, middlewares, vars⟩
      else none := by
  simp [Flat.dispatch]

/-- A template and a path end together. -/
@[simp] theorem matchFull_nil_nil : matchFull [] [] = some [] := rfl

@[simp] theorem matchFull_nil_cons : matchFull [] (elem :: elems) = none := rfl

@[simp] theorem matchFull_cons_nil (head : Pattern) : matchFull (head :: rest) [] = none := rfl

/-- A literal is followed by what the rest matches. -/
@[simp] theorem matchFull_literal_cons : matchFull (.literal text :: rest) (elem :: elems) =
    if text = elem then matchFull rest elems else none := by
  simp only [matchFull, Pattern.matchElem]
  split
  · cases matchFull rest elems <;> rfl
  · rfl

/-- A variable takes an element that is not empty. -/
@[simp] theorem matchFull_var_cons : matchFull (.var name :: rest) (elem :: elems) =
    if elem = [] then none else (matchFull rest elems).map ((name, elem) :: ·) := by
  simp only [matchFull, Pattern.matchElem]
  by_cases hempty : elem = []
  · rw [if_pos hempty, if_neg (not_not.mpr hempty)]
    rfl
  · rw [if_neg hempty, if_pos hempty]
    cases matchFull rest elems <;> rfl

end Tries

/-! ## Clean paths -/

/-- The form of a path that the router answers itself with a redirect when it differs. -/
def cleanPath (path : ByteString) : ByteString :=
  if path = [] then [slash]
  else
    let rooted := if path.head? = some slash then path else slash :: path
    let cleaned := clean rooted
    if rooted.getLast? = some slash ∧ cleaned ≠ [slash] then cleaned ++ [slash] else cleaned

/-- The path of a location below the root is in clean form. -/
theorem cleanPath_render (loc : Location) (name : Segment) :
    cleanPath (render (loc ++ [name])) = render (loc ++ [name]) := by
  have hclean : clean (render (loc ++ [name])) = render (loc ++ [name]) := by
    rw [clean_eq_render rfl, absolute_render]
  have hlast : (render (loc ++ [name])).getLast? ≠ some slash := by
    obtain ⟨parent, hparent⟩ := render_concat loc name
    rw [hparent, List.append_cons]
    exact getLast?_append_segment _ name
  have hhead : (render (loc ++ [name])).head? = some slash := rfl
  have hne : render (loc ++ [name]) ≠ [] := List.cons_ne_nil _ _
  simp only [cleanPath, hne, hhead, hlast, hclean, if_true, if_false, false_and]

/-- So is the path of the directory there. -/
theorem cleanPath_render_slash (loc : Location) (name : Segment) :
    cleanPath (render (loc ++ [name]) ++ [slash]) = render (loc ++ [name]) ++ [slash] := by
  have habsolute : absolute (render (loc ++ [name]) ++ [slash]) = loc ++ [name] := by
    rw [absolute, walk, components_append, List.foldl_append]
    exact absolute_render (loc ++ [name])
  have hclean : clean (render (loc ++ [name]) ++ [slash]) = render (loc ++ [name]) := by
    rw [clean_eq_render rfl, habsolute]
  have hroot : render (loc ++ [name]) ≠ [slash] := by
    intro heq
    obtain ⟨parent, hparent⟩ := render_concat loc name
    rw [heq] at hparent
    apply getLast?_append_segment (parent ++ [slash]) name
    rw [List.append_assoc, List.singleton_append, ← hparent]
    rfl
  have hhead : (render (loc ++ [name]) ++ [slash]).head? = some slash := rfl
  have hne : render (loc ++ [name]) ++ [slash] ≠ [] := List.cons_ne_nil _ _
  simp only [cleanPath, hne, hhead, List.getLast?_concat, hclean, hroot, if_true, if_false,
    ne_eq, not_false_eq_true, and_self]

/-- A path in clean form starts with a separator. -/
theorem isAbs_of_cleanPath {path : ByteString} (h : cleanPath path = path) : isAbs path = true := by
  have hpath : path ≠ [] := by
    rintro rfl
    simp [cleanPath] at h
  by_contra habs
  have hhead : path.head? ≠ some slash := by simpa [isAbs] using habs
  have hstart : ∀ rest, (clean (slash :: path) ++ rest).head? = some slash := by
    intro rest
    rw [clean_eq_render rfl]
    rfl
  simp only [cleanPath, hpath, hhead, if_false] at h
  split at h
  · exact hhead (h ▸ hstart [slash])
  · exact hhead (h ▸ List.append_nil (clean (slash :: path)) ▸ hstart [])

/-- The elements of a path in clean form are path names, but for an empty last one. -/
theorem cleanPath_elements {path elem : ByteString} (h : cleanPath path = path)
    (helem : elem ∈ components path) (hne : elem ≠ []) : IsSegment elem := by
  have habs := isAbs_of_cleanPath h
  have hhead : path.head? = some slash := by simpa [isAbs] using habs
  have hpath : path ≠ [] := fun hnil => by simp [hnil] at hhead
  simp only [cleanPath, hpath, hhead, if_true, if_false, clean_eq_render habs] at h
  split at h
  · rw [← h, components_append, List.mem_append] at helem
    rcases helem with helem | helem
    · exact isSegment_of_mem_components_render helem hne
    · simp [components, hne] at helem
  · rw [← h] at helem
    exact isSegment_of_mem_components_render helem hne

example : template "/{folderId}/info" = [.var (ascii "folderId"), .literal (ascii "info")] := by
  decide

end Mux
