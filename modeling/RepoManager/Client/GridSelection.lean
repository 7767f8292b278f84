import RepoManager.Client.Actions
import RepoManager.Library.Transition

/-!
# The selected row of the grid

The flag `selected` lives on the row objects, the selected row in the slice, and every case of the
reducer has to keep the two in step. `GRID_INSERT_ROW` removes the flag and keeps the row.
`GRID_REFRESH_ROWS` sets the row to whatever the import `NormalModule` is, which is no row of the
grid; only where the import is `undefined` does this clear the selection.

`grid_throughout_iff` says for every sequence of actions when flag and row agree in all states.
-/

namespace RepoManager

/-- The flag `selected` of a row. -/
def Heap.rowSelected (heap : Heap) (row : Ref) : Bool :=
  (heap.rows[row]?).any GridRow.selected

namespace GridSelection

/-- The row objects and the grid slice. -/
structure State where
  heap : Heap
  grid : GridState

/-- How the client dispatches: rows are new and not selected, and a selected row is in the data. -/
def Dispatched (state : State) : GridAction → Prop
  | .dataLoad payload => ∀ object ∈ payload, object.selected = false
  | .insertRow payload => payload.selected = false
  | .selectRow row => row ∈ state.grid.data
  | .refreshRows | .filteredRows _ | .selectRowClean => True

instance (state : State) (action : GridAction) : Decidable (Dispatched state action) := by
  cases action <;> simp only [Dispatched] <;> infer_instance

/-- Dispatch an action of the grid. -/
def step (normalModule : Option Ref) (state : State) (action : GridAction) : Option State :=
  if Dispatched state action then
    let (heap, grid) := gridReducer normalModule state.heap state.grid action
    some ⟨heap, grid⟩
  else none

/-- The grid as a machine. -/
def machine (normalModule : Option Ref) : Machine State GridAction := ⟨step normalModule⟩

/-- The selected row is one of the data, and the rows of the data carry the flag accordingly. -/
structure Agrees (state : State) : Prop where
  row_mem : ∀ row, state.grid.row = some row → row ∈ state.grid.data
  selected_iff : ∀ row ∈ state.grid.data,
    state.heap.rowSelected row = true ↔ state.grid.row = some row

/-- The actions that keep flag and row in step: no row is inserted while one is selected, and the
grid is refreshed only where the import is `undefined`. -/
def Careful (normalModule : Option Ref) (state : State) : GridAction → Prop
  | .insertRow _ => state.grid.row = none
  | .refreshRows => normalModule = none
  | .dataLoad _ | .selectRow _ | .filteredRows _ | .selectRowClean => True

/-! ## The flags after an action -/

section Flags

variable (heap : Heap)

/-- The flag is removed from the row that was selected. -/
theorem rowSelected_unselectRow (held : Option Ref) (row : Ref) :
    (heap.unselectRow held).rowSelected row =
      if held = some row then false else heap.rowSelected row := by
  cases held with
  | none => rfl
  | some held =>
    simp only [Heap.unselectRow, Heap.rowSelected, List.getElem?_modify, Option.some.injEq]
    by_cases heq : held = row
    · simp only [if_pos heq]
      cases heap.rows[row]? <;> rfl
    · simp only [if_neg heq]
      cases heap.rows[row]? <;> rfl

/-- The flag is set on the row that is selected. -/
theorem rowSelected_selectRow {held : Ref} (hheld : held < heap.rows.length) (row : Ref) :
    (heap.selectRow held).rowSelected row = if held = row then true else heap.rowSelected row := by
  simp only [Heap.selectRow, Heap.rowSelected, List.getElem?_modify]
  by_cases heq : held = row
  · obtain rfl := heq
    simp only [if_pos]
    rw [List.getElem?_eq_getElem hheld]
    rfl
  · simp only [if_neg heq]
    cases heap.rows[row]? <;> rfl

/-- A row that does not exist carries no flag. -/
theorem rowSelected_of_le {row : Ref} (h : heap.rows.length ≤ row) :
    heap.rowSelected row = false := by
  rw [Heap.rowSelected, List.getElem?_eq_none h, Option.any_none]

/-- New rows without the flag leave the flags as they are. -/
theorem rowSelected_newRows {payload : List GridRow}
    (hfresh : ∀ object ∈ payload, object.selected = false) (row : Ref) :
    (heap.newRows payload).rowSelected row = heap.rowSelected row := by
  rw [Heap.rowSelected, Heap.newRows]
  by_cases hold : row < heap.rows.length
  · rw [List.getElem?_append_left hold, Heap.rowSelected]
  · rw [rowSelected_of_le heap (Nat.le_of_not_lt hold),
      List.getElem?_append_right (Nat.le_of_not_lt hold)]
    cases hobject : payload[row - heap.rows.length]? with
    | none => rfl
    | some object => exact hfresh object (List.mem_of_getElem? hobject)

/-- New rows are at the end of the heap. -/
theorem le_of_mem_newRefs {payload : List GridRow} {row : Ref} (h : row ∈ heap.newRefs payload) :
    heap.rows.length ≤ row ∧ row < (heap.newRows payload).rows.length := by
  rw [Heap.newRefs, List.mem_range'_1] at h
  rw [Heap.newRows, List.length_append]
  exact h

end Flags

/-! ## Runs -/

/-- What every step keeps: the data are rows on the heap, and the import is none of them. -/
structure Inv (normalModule : Option Ref) (state : State) : Prop where
  data_lt : ∀ row ∈ state.grid.data, row < state.heap.rows.length
  module_lt : ∀ row, normalModule = some row → row < state.heap.rows.length
  module_notMem : ∀ row, normalModule = some row → row ∉ state.grid.data

section Runs

variable {normalModule : Option Ref} {state next : State} {action : GridAction}

/-- The state after a step. -/
theorem step_eq_some_iff : step normalModule state action = some next ↔
    Dispatched state action ∧
      next = ⟨(gridReducer normalModule state.heap state.grid action).1,
        (gridReducer normalModule state.heap state.grid action).2⟩ := by
  unfold step
  split
  · next h => exact ⟨fun heq => ⟨h, (Option.some.inj heq).symm⟩, fun heq => heq.2 ▸ rfl⟩
  · next h => exact ⟨nofun, fun heq => absurd heq.1 h⟩

/-- The invariant for data that only lost rows or gained new ones. -/
theorem Inv.of_data (h : Inv normalModule state) {heap : Heap} {grid : GridState}
    (hlength : state.heap.rows.length ≤ heap.rows.length)
    (hdata : ∀ row ∈ grid.data, row ∈ state.grid.data ∨
      state.heap.rows.length ≤ row ∧ row < heap.rows.length) :
    Inv normalModule ⟨heap, grid⟩ where
  data_lt row hrow := by
    rcases hdata row hrow with hold | hnew
    · exact (h.data_lt row hold).trans_le hlength
    · exact hnew.2
  module_lt row hrow := (h.module_lt row hrow).trans_le hlength
  module_notMem row hrow hmem := by
    have hlt := h.module_lt row hrow
    rcases hdata row hmem with hold | hnew
    · exact h.module_notMem row hrow hold
    · exact absurd hlt (Nat.not_lt.mpr hnew.1)

/-- Every step keeps the invariant. -/
theorem inv_step (h : Inv normalModule state) (hstep : step normalModule state action = some next) :
    Inv normalModule next := by
  obtain ⟨-, rfl⟩ := step_eq_some_iff.mp hstep
  have hlength := (state.heap.length_unselectRow state.grid.row).ge
  have hnew (payload : List GridRow) : state.heap.rows.length ≤
      ((state.heap.unselectRow state.grid.row).newRows payload).rows.length := by
    rw [Heap.newRows, List.length_append]
    omega
  have hrefs (payload : List GridRow) : ∀ row,
      row ∈ (state.heap.unselectRow state.grid.row).newRefs payload → state.heap.rows.length ≤ row ∧
        row < ((state.heap.unselectRow state.grid.row).newRows payload).rows.length := by
    intro row hrow
    obtain ⟨hle, hlt⟩ := le_of_mem_newRefs _ hrow
    exact ⟨hlength.trans hle, hlt⟩
  cases action with
  | dataLoad payload => exact h.of_data (hnew payload) fun row hrow => .inr (hrefs payload row hrow)
  | insertRow payload =>
    apply h.of_data (hnew [payload])
    intro row hrow
    rcases List.mem_append.mp hrow with hold | hadded
    · exact .inl hold
    · exact .inr (hrefs [payload] row hadded)
  | selectRow payload =>
    refine h.of_data ?_ fun row hrow => .inl hrow
    exact hlength.trans (List.length_modify ..).ge
  | refreshRows | selectRowClean => exact h.of_data hlength fun row hrow => .inl hrow
  | filteredRows payload => exact h.of_data le_rfl fun row hrow => .inl hrow

/-- Once the flag of the selected row is removed, no row of the data carries it. -/
theorem Agrees.unselected (h : Agrees state) {row : Ref} (hrow : row ∈ state.grid.data) :
    (state.heap.unselectRow state.grid.row).rowSelected row = false := by
  rw [rowSelected_unselectRow]
  split
  · rfl
  · next hother => rwa [← Bool.not_eq_true, h.selected_iff row hrow]

/-- Rows without flags agree exactly with an empty selection. -/
theorem agrees_iff_of_unselected {heap : Heap} {grid : GridState}
    (hdata : ∀ row ∈ grid.data, heap.rowSelected row = false) :
    Agrees ⟨heap, grid⟩ ↔ grid.row = none := by
  constructor
  · intro h
    by_contra hsome
    obtain ⟨row, hrow⟩ := Option.ne_none_iff_exists'.mp hsome
    have hmem := h.row_mem row hrow
    have hflag := (h.selected_iff row hmem).mpr hrow
    rw [hdata row hmem] at hflag
    exact nomatch hflag
  · intro hnone
    refine ⟨fun row hrow => ?_, fun row hrow => ?_⟩
    · change grid.row = some row at hrow
      rw [hnone] at hrow
      exact nomatch hrow
    · change heap.rowSelected row = true ↔ grid.row = some row
      rw [hdata row hrow, hnone]
      exact ⟨nofun, nofun⟩

/-- Flag and row stay in step exactly in a careful action. -/
theorem agrees_step (hinv : Inv normalModule state) (h : Agrees state)
    (hstep : step normalModule state action = some next) :
    Agrees next ↔ Careful normalModule state action := by
  obtain ⟨hdispatched, rfl⟩ := step_eq_some_iff.mp hstep
  have hlength := state.heap.length_unselectRow state.grid.row
  -- an added row is beyond the heap as it was, and carries no flag
  have hadded {payload : List GridRow} (hfresh : ∀ object ∈ payload, object.selected = false)
      {row : Ref} (hrow : row ∈ (state.heap.unselectRow state.grid.row).newRefs payload) :
      ((state.heap.unselectRow state.grid.row).newRows payload).rowSelected row = false := by
    rw [rowSelected_newRows _ hfresh, rowSelected_of_le _ (le_of_mem_newRefs _ hrow).1]
  cases action with
  | dataLoad payload =>
    refine (agrees_iff_of_unselected fun row hrow => hadded hdispatched hrow).trans ?_
    exact ⟨fun _ => trivial, fun _ => rfl⟩
  | insertRow payload =>
    have hfresh : ∀ object ∈ [payload], object.selected = false := by
      intro object hobject
      rw [List.mem_singleton.mp hobject]
      exact hdispatched
    apply agrees_iff_of_unselected
    intro row hrow
    rcases List.mem_append.mp hrow with hold | hnew
    · exact (rowSelected_newRows _ hfresh row).trans (h.unselected hold)
    · exact hadded hfresh hnew
  | refreshRows => exact agrees_iff_of_unselected fun row hrow => h.unselected hrow
  | selectRowClean =>
    have hclean := @agrees_iff_of_unselected (state.heap.unselectRow state.grid.row)
      { state.grid with row := none } fun row hrow => h.unselected hrow
    exact hclean.trans ⟨fun _ => trivial, fun _ => rfl⟩
  | filteredRows payload => exact ⟨fun _ => trivial, fun _ => ⟨h.row_mem, h.selected_iff⟩⟩
  | selectRow payload =>
    refine ⟨fun _ => trivial, fun _ => ⟨fun row hrow => ?_, fun row hrow => ?_⟩⟩
    · rw [← Option.some.inj hrow]
      exact hdispatched
    · have hlt : payload < (state.heap.unselectRow state.grid.row).rows.length := by
        rw [hlength]
        exact hinv.data_lt payload hdispatched
      change ((state.heap.unselectRow state.grid.row).selectRow payload).rowSelected row = true ↔
        some payload = some row
      rw [rowSelected_selectRow _ hlt, h.unselected hrow, Option.some.injEq]
      split
      · next heq => exact ⟨fun _ => heq, fun _ => rfl⟩
      · next hne => exact ⟨nofun, fun heq => absurd heq hne⟩

end Runs

/-- In a run of the grid from its initial state, row and flags agree in every state exactly when no
row is inserted while one is selected and, unless the import is `undefined`, the grid is never
refreshed. -/
theorem grid_throughout_iff (normalModule : Option Ref) (heap : Heap) (actions : List GridAction)
    (last : State) (hmodule : ∀ row, normalModule = some row → row < heap.rows.length)
    (hrun : (machine normalModule).run ⟨heap, .initial⟩ actions = some last) :
    (machine normalModule).Throughout Agrees ⟨heap, .initial⟩ actions ↔
      (machine normalModule).Along (Careful normalModule) ⟨heap, .initial⟩ actions := by
  apply (machine normalModule).throughout_iff_along (I := Inv normalModule) ?_ ?_ ?_ ?_ hrun
  · exact fun _ _ _ => inv_step
  · exact fun _ _ _ => agrees_step
  · exact ⟨fun row hrow => absurd hrow List.not_mem_nil, hmodule, fun _ _ => List.not_mem_nil⟩
  · exact (agrees_iff_of_unselected fun row hrow => absurd hrow List.not_mem_nil).mpr rfl

/-- A row is selected and another one inserted, as an upload does. -/
def sampleActions : List GridAction :=
  [.dataLoad [freshRow (ascii "a.rpm")], .selectRow 0, .insertRow (freshRow (ascii "b.rpm"))]

/-- The row stays selected without its flag; and a refresh selects what is no row. -/
theorem sample_grid_not_agrees :
    (∃ last, (machine none).run ⟨⟨[], []⟩, .initial⟩ sampleActions = some last ∧
      last.grid.row = some 0 ∧ last.heap.rowSelected 0 = false ∧ ¬ Agrees last) ∧
    ∃ last, (machine (some 0)).run ⟨⟨[⟨ascii "NormalModule", false⟩], []⟩, .initial⟩ [.refreshRows] =
      some last ∧ last.grid.row = some 0 ∧ 0 ∉ last.grid.data ∧ ¬ Agrees last := by
  refine ⟨⟨_, rfl, rfl, rfl, ?_⟩, ⟨_, rfl, rfl, List.not_mem_nil, ?_⟩⟩
  · intro h
    exact nomatch (h.selected_iff 0 (by decide)).mpr rfl
  · intro h
    exact absurd (h.row_mem 0 rfl) List.not_mem_nil

/-- A row that is inserted before another one is selected leaves row and flags in step. -/
theorem sample_grid_throughout_iff :
    (machine none).Throughout Agrees ⟨⟨[], []⟩, .initial⟩
      [.dataLoad [freshRow (ascii "a.rpm")], .insertRow (freshRow (ascii "b.rpm")),
        .selectRow 1] := by
  apply (grid_throughout_iff none ⟨[], []⟩ _ _ nofun rfl).mpr
  exact .cons rfl trivial (.cons rfl rfl (.cons rfl trivial trivial))

end GridSelection

end RepoManager
