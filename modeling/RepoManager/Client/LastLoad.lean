import RepoManager.Client.TreeView
import RepoManager.Library.Transition

/-!
# Concurrent loads of file lists

Nodes are selected, the list is refreshed, and the responses to the loads this starts arrive in
any order. Neither `GRID_DATA_LOAD` nor the reducer knows which load a list belongs to.

The rows on display are therefore those of the response that arrived last, whichever load was
issued last. `lastRequestWins_iff` says for every run when the two are the same list.
-/

namespace RepoManager

namespace LastLoad

/-- A load that was issued, and how it ended. -/
structure Load where
  folder : ByteString
  outcome : Option (Except ByteString (List ByteString))

/-- The client and its loads, in the order in which they were issued. -/
structure State where
  client : Client
  loads : List Load

/-- What happens next. -/
inductive Label where
  | select (node : Ref)
  | refresh
  | arrive (load : ℕ) (outcome : Except ByteString (List ByteString))

/-- A load is issued; what it dispatches first has been dispatched. -/
def State.issue (state : State) (folder : ByteString) : State :=
  { state with loads := state.loads ++ [⟨folder, none⟩] }

/-- One step of the client. -/
def step (bundle : Bundle) (state : State) : Label → Option State
  | .select node =>
    let (client, load) := state.client.onSelecRow bundle node
    match load with
    | some folder => some (({ state with client } : State).issue folder)
    | none => some { state with client }
  | .refresh =>
    match state.client.selectedNode with
    | some node =>
      if state.client.folderEnabled then
        let before := (actionDataLoad node.name).before
        let client := state.client.dispatchAll bundle.normalModule before
        some (({ state with client } : State).issue node.name)
      else none
    | none => none
  | .arrive load outcome =>
    match state.loads[load]? with
    | some ⟨folder, none⟩ =>
      let actions := (actionDataLoad folder).settle outcome
      some
        { client := state.client.dispatchAll bundle.normalModule actions
          loads := state.loads.set load ⟨folder, some outcome⟩ }
    | _ => none

/-- The client as a machine. -/
def machine (bundle : Bundle) : Machine State Label := ⟨step bundle⟩

/-- No load is in flight. -/
def State.Quiet (state : State) : Prop := ∀ load ∈ state.loads, load.outcome.isSome

/-- How the load that was issued last ended. -/
def State.lastOutcome (state : State) : Option (Except ByteString (List ByteString)) :=
  state.loads.getLast?.bind Load.outcome

/-- When no load is in flight and the load issued last succeeded, its list is on display. -/
def LastRequestWins (state : State) : Prop :=
  state.Quiet → ∀ names, state.lastOutcome = some (.ok names) → state.client.names = names

/-- The file list that arrives with a step. -/
def Label.list : Label → Option (List ByteString)
  | .arrive _ (.ok names) => some names
  | _ => none

/-- The file list that arrived last. -/
def lastArrived (labels : List Label) : Option (List ByteString) :=
  (labels.filterMap Label.list).getLast?

/-! ## What is on display after a run -/

section Names

variable (bundle : Bundle) (client : Client)

/-- Selecting a node leaves the rows on display. -/
theorem names_onSelecRow (node : Ref) : (client.onSelecRow bundle node).1.names = client.names := by
  rcases client.onSelecRow_cases bundle node with heq | ⟨after, load, heq, hgrid, hrows⟩
  · rw [heq]
  · rw [heq, Client.names, hgrid, hrows]
    rfl

/-- A settled load displays the list that arrived, or leaves the rows. -/
theorem names_settle (folder : ByteString) (outcome : Except ByteString (List ByteString)) :
    (client.dispatchAll bundle.normalModule ((actionDataLoad folder).settle outcome)).names =
      match outcome with
      | .ok names => names
      | .error _ => client.names := by
  cases outcome with
  | error message => rfl
  | ok names =>
    let heap := client.heap.unselectRow client.gridReduser.row
    have hnames : (heap.newRefs (names.map freshRow)).filterMap
        (heap.newRows (names.map freshRow)).rowName = (((heap.newRefs (names.map freshRow)).map
          (heap.newRows (names.map freshRow)).rowName).filterMap id) := by
      rw [List.filterMap_map, Function.id_comp]
    change (heap.newRefs (names.map freshRow)).filterMap
      (heap.newRows (names.map freshRow)).rowName = names
    rw [hnames, heap.rowName_newRefs, List.map_map, List.filterMap_map]
    exact List.filterMap_some

end Names

section Runs

variable {bundle : Bundle} {state next : State} {label : Label}

/-- One step displays the list that arrives with it, and leaves the rows otherwise. -/
theorem names_step (hstep : step bundle state label = some next) :
    next.client.names = label.list.getD state.client.names := by
  cases label with
  | select node =>
    have hnames := names_onSelecRow bundle state.client node
    simp only [step] at hstep
    split at hstep
    · obtain rfl := Option.some.inj hstep
      exact hnames
    · obtain rfl := Option.some.inj hstep
      exact hnames
  | refresh =>
    simp only [step] at hstep
    split at hstep
    · split at hstep
      · obtain rfl := Option.some.inj hstep
        rfl
      · exact nomatch hstep
    · exact nomatch hstep
  | arrive load outcome =>
    simp only [step] at hstep
    split at hstep
    · next folder hload =>
      obtain rfl := Option.some.inj hstep
      rw [names_settle]
      cases outcome <;> rfl
    · exact nomatch hstep

/-- The last list of a run that is continued in front. -/
theorem lastArrived_cons (label : Label) (rest : List Label) :
    lastArrived (label :: rest) = (lastArrived rest).or label.list := by
  unfold lastArrived
  cases hlist : label.list with
  | none => rw [List.filterMap_cons_none hlist, Option.or_none]
  | some names =>
    rw [List.filterMap_cons_some hlist, List.getLast?_cons]
    cases (rest.filterMap Label.list).getLast? <;> rfl

/-- After a run the rows on display are the list that arrived last, or those of the start. -/
theorem names_run {start last : State} {labels : List Label}
    (hrun : (machine bundle).run start labels = some last) :
    last.client.names = (lastArrived labels).getD start.client.names := by
  induction labels generalizing start with
  | nil =>
    obtain rfl := Option.some.inj hrun
    rfl
  | cons label rest ih =>
    obtain ⟨next, hnext, hrest⟩ := ((machine bundle).run_cons_eq_some_iff ..).mp hrun
    rw [ih hrest, names_step hnext, lastArrived_cons]
    cases lastArrived rest <;> rfl

/-- Some load ended with a list. -/
def Succeeded (state : State) : Prop :=
  ∃ load ∈ state.loads, ∃ names, load.outcome = some (.ok names)

/-- A load ends with a list only in a step in which a list arrives. -/
theorem succeeded_of_step (hstep : step bundle state label = some next) (h : Succeeded next) :
    Succeeded state ∨ label.list ≠ none := by
  -- a load that was just issued has not ended
  have hissue : ∀ (other : State) (folder : ByteString), Succeeded (other.issue folder) →
      Succeeded other := by
    rintro other folder ⟨load, hload, names, hnames⟩
    rcases List.mem_append.mp hload with hload | hload
    · exact ⟨load, hload, names, hnames⟩
    · rw [List.mem_singleton.mp hload] at hnames
      exact nomatch hnames
  cases label with
  | select node =>
    simp only [step] at hstep
    split at hstep
    · obtain rfl := Option.some.inj hstep
      exact .inl (hissue _ _ h)
    · obtain rfl := Option.some.inj hstep
      exact .inl h
  | refresh =>
    simp only [step] at hstep
    split at hstep
    · split at hstep
      · obtain rfl := Option.some.inj hstep
        exact .inl (hissue _ _ h)
      · exact nomatch hstep
    · exact nomatch hstep
  | arrive index outcome =>
    cases outcome with
    | ok names => exact .inr nofun
    | error message =>
      simp only [step] at hstep
      split at hstep
      · obtain rfl := Option.some.inj hstep
        obtain ⟨load, hload, names, hnames⟩ := h
        rcases List.mem_or_eq_of_mem_set hload with hload | rfl
        · exact .inl ⟨load, hload, names, hnames⟩
        · exact nomatch hnames
      · exact nomatch hstep

/-- A list that a load ended with has arrived in the run. -/
theorem lastArrived_of_succeeded {start last : State} {labels : List Label}
    (hrun : (machine bundle).run start labels = some last) (h : Succeeded last) :
    Succeeded start ∨ lastArrived labels ≠ none := by
  induction labels generalizing start with
  | nil =>
    obtain rfl := Option.some.inj hrun
    exact .inl h
  | cons label rest ih =>
    obtain ⟨next, hnext, hrest⟩ := ((machine bundle).run_cons_eq_some_iff ..).mp hrun
    rw [lastArrived_cons, Ne, Option.or_eq_none_iff, not_and_or]
    rcases ih hrest with hbefore | hlater
    · rcases succeeded_of_step hnext hbefore with hstart | hlabel
      · exact .inl hstart
      · exact .inr (.inr hlabel)
    · exact .inr (.inl hlater)

end Runs

/-- The list of the load issued last is on display, at the end of any run and once no load is in
flight, exactly when it is the list that arrived last. -/
theorem lastRequestWins_iff (bundle : Bundle) (start last : State) (labels : List Label)
    (hstart : start.loads = []) (hrun : (machine bundle).run start labels = some last) :
    LastRequestWins last ↔
      (last.Quiet → ∀ names, last.lastOutcome = some (.ok names) →
        lastArrived labels = some names) := by
  have hnames := names_run hrun
  apply forall_congr'
  intro hquiet
  apply forall_congr'
  intro names
  apply forall_congr'
  intro hlast
  have hsucceeded : Succeeded last := by
    obtain ⟨load, hload, houtcome⟩ := Option.bind_eq_some_iff.mp hlast
    exact ⟨load, List.mem_of_getLast? hload, names, houtcome⟩
  have hfresh : ¬ Succeeded start := by
    rintro ⟨load, hload, -⟩
    rw [hstart] at hload
    exact absurd hload List.not_mem_nil
  obtain ⟨arrived, harrived⟩ := Option.ne_none_iff_exists'.mp
    ((lastArrived_of_succeeded hrun hsucceeded).resolve_left hfresh)
  rw [hnames, harrived, Option.getD_some, Option.some.injEq]

/-- Two folders are selected in turn, and the list of the first arrives after that of the second. -/
def sampleLabels : List Label :=
  [.select 1, .select 2, .arrive 1 (.ok [ascii "b.rpm"]), .arrive 0 (.ok [ascii "a.rpm"])]

/-- The rows of the first folder stay on display, although the second one was chosen last. -/
theorem sample_not_lastRequestWins :
    ∃ last, (machine ⟨none, id⟩).run ⟨Client.sample, []⟩ sampleLabels = some last ∧
      last.client.folderId = some (ascii "x86_64") ∧ last.client.names = [ascii "a.rpm"] ∧
      last.lastOutcome = some (.ok [ascii "b.rpm"]) ∧ ¬ LastRequestWins last := by
  refine ⟨_, rfl, rfl, rfl, rfl, ?_⟩
  intro hwins
  have hquiet : ∀ load ∈ [Load.mk (ascii "noarch") (some (.ok [ascii "a.rpm"])),
      Load.mk (ascii "x86_64") (some (.ok [ascii "b.rpm"]))], load.outcome.isSome := by decide
  exact absurd (hwins hquiet _ rfl) (by decide)

/-- When the lists of two folders arrive in the order in which the folders were selected, the rows
are those of the second one. -/
theorem sample_lastRequestWins_iff :
    ∃ last, (machine ⟨none, id⟩).run ⟨Client.sample, []⟩
        [.select 1, .select 2, .arrive 0 (.ok [ascii "a.rpm"]), .arrive 1 (.ok [ascii "b.rpm"])] =
          some last ∧
      last.lastOutcome = some (.ok [ascii "b.rpm"]) ∧ LastRequestWins last := by
  refine ⟨_, rfl, rfl, ?_⟩
  apply (lastRequestWins_iff ⟨none, id⟩ ⟨Client.sample, []⟩ _ [.select 1, .select 2,
    .arrive 0 (.ok [ascii "a.rpm"]), .arrive 1 (.ok [ascii "b.rpm"])] rfl rfl).mpr
  intro _ names hlast
  obtain rfl : [ascii "b.rpm"] = names := Except.ok.inj (Option.some.inj hlast)
  rfl

end LastLoad

end RepoManager
