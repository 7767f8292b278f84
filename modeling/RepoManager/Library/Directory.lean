import RepoManager.Library.LdapFilter

/-!
# A directory and its searches

The evaluation of search filters in three-valued logic, `none` for Undefined, and a directory of
finitely many entries. The matching rules of the server are parameters: one for the equality of a
stored value with an asserted one, and one for all other tests.
-/

namespace LdapFilter

/-- The conjunction of truth values, `none` for Undefined. -/
def conj (values : List (Option Bool)) : Option Bool :=
  if some false ∈ values then some false else if none ∈ values then none else some true

/-- The disjunction of truth values. -/
def disj (values : List (Option Bool)) : Option Bool :=
  if some true ∈ values then some true else if none ∈ values then none else some false

mutual

/-- The truth value of a filter, from those of its tests. -/
def Filter.eval (holds : Item → Option Bool) : Filter → Option Bool
  | .and filters => conj (evalAll holds filters)
  | .or filters => disj (evalAll holds filters)
  | .not filter => (filter.eval holds).map (!·)
  | .item item => holds item

/-- The truth values of some filters. -/
def evalAll (holds : Item → Option Bool) : List Filter → List (Option Bool)
  | [] => []
  | filter :: filters => filter.eval holds :: evalAll holds filters

end

/-- A conjunction is true when all of it is. -/
theorem conj_eq_true_iff {values : List (Option Bool)} :
    conj values = some true ↔ ∀ value ∈ values, value = some true := by
  constructor
  · intro h value hvalue
    unfold conj at h
    split at h
    · simp at h
    · split at h
      · simp at h
      · match value with
        | some true => rfl
        | some false => exact absurd hvalue ‹_›
        | none => exact absurd hvalue ‹_›
  · intro h
    have hfalse : some false ∉ values := fun hmem => by simpa using h _ hmem
    have hnone : none ∉ values := fun hmem => by simpa using h _ hmem
    rw [conj, if_neg hfalse, if_neg hnone]

/-- A disjunction is true when some of it is. -/
theorem disj_eq_true_iff {values : List (Option Bool)} :
    disj values = some true ↔ some true ∈ values := by
  unfold disj
  split
  · simpa
  · split <;> simpa

/-- The values of a list of filters, one by one. -/
theorem evalAll_eq_map (holds : Item → Option Bool) (filters : List Filter) :
    evalAll holds filters = filters.map (Filter.eval holds) := by
  induction filters with
  | nil => rfl
  | cons filter filters ih => rw [evalAll, ih, List.map_cons]

/-- Two tests: one value of one attribute, and some of the values of another. -/
theorem eval_and_or_eq_true_iff (holds : Item → Option Bool) (attr value attrs : ByteString)
    (values : List ByteString) :
    (Filter.and [equality attr value, .or (values.map (equality attrs))]).eval holds = some true ↔
      holds (.simple attr .equal value) = some true ∧
        ∃ value ∈ values, holds (.simple attrs .equal value) = some true := by
  simp only [Filter.eval, evalAll, conj_eq_true_iff, List.forall_mem_cons, List.not_mem_nil,
    false_implies, implies_true, and_true, disj_eq_true_iff, evalAll_eq_map, List.map_map,
    List.mem_map, Function.comp_apply, equality]

/-- An entry, with the values of each attribute. -/
structure Entry where
  dn : ByteString
  attributes : ByteString → List ByteString

/-- The tests of a server. `rule` compares a stored value of an attribute with an asserted one. -/
structure Schema where
  rule : ByteString → ByteString → ByteString → Option Bool
  other : Entry → Item → Option Bool

namespace Schema

variable (schema : Schema) (entry : Entry) (attr value : ByteString)

/-- The truth value of a test of an entry. -/
def holds : Item → Option Bool
  | .simple attr .equal value =>
    disj ((entry.attributes attr).map fun stored => schema.rule attr stored value)
  | item => schema.other entry item

/-- The entry has this value of the attribute. -/
def has : Bool := (entry.attributes attr).any fun stored => schema.rule attr stored value = some true

/-- A test for equality is true of the entries that have the value. -/
theorem holds_equal_iff :
    schema.holds entry (.simple attr .equal value) = some true ↔ schema.has entry attr value := by
  simp [holds, has, disj_eq_true_iff]

end Schema

/-- Finitely many entries; `under` is the tree below a base. -/
structure Directory where
  schema : Schema
  entries : List Entry
  under : ByteString → Entry → Bool

/-- The entries under a base of which a filter is true. -/
def Directory.found (directory : Directory) (base : ByteString) (filter : Filter) : List Entry :=
  directory.entries.filter fun entry =>
    directory.under base entry && filter.eval (directory.schema.holds entry) = some true

/-- A search for one value of one attribute and some of the values of another. -/
theorem Directory.length_found (directory : Directory) (base attr value attrs : ByteString)
    (values : List ByteString) :
    (directory.found base (.and [equality attr value, .or (values.map (equality attrs))])).length =
      directory.entries.countP fun entry =>
        directory.under base entry && directory.schema.has entry attr value &&
          values.any (directory.schema.has entry attrs) := by
  rw [found, ← List.countP_eq_length_filter]
  congr 1
  funext entry
  rw [Bool.and_assoc, Bool.eq_iff_iff]
  simp only [Bool.and_eq_true, decide_eq_true_eq, eval_and_or_eq_true_iff, Schema.holds_equal_iff,
    List.any_eq_true]

end LdapFilter
