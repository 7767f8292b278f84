import RepoManager.Client.Webclient
import RepoManager.Library.Transition

/-!
# The details of a file

`FileInfo` requests the metadata of the file it is given, and again whenever its props change.
Every response writes the same state, whichever request it answers: no request is cancelled, and
no callback looks at the props.

What is on display is therefore what the last response brought. `details_throughout_iff` says for
every run when this is never the metadata of another file once no request is in flight.
-/

namespace RepoManager

namespace Details

/-- A prop of type `string | undefined | null`. -/
inductive Identifier where
  | undefined
  | null
  | text (value : ByteString)
  deriving DecidableEq

/-- An identifier in a template literal. -/
def Identifier.interpolated : Identifier → ByteString
  | .undefined => ascii "undefined"
  | .null => ascii "null"
  | .text value => value

/-- `Props` -/
structure Props where
  folderId : Identifier
  fileId : Identifier
  deriving DecidableEq

/-- The test of the effect. -/
def Props.Missing (props : Props) : Prop :=
  props.folderId = .undefined ∨ props.fileId = .undefined

instance (props : Props) : Decidable props.Missing := inferInstanceAs (Decidable (_ ∨ _))

/-- The request of `getFileInfo`. -/
def Props.request (props : Props) : ClientRequest :=
  .info props.folderId.interpolated props.fileId.interpolated

/-- How a request ended: with the bytes of a response, or not. -/
inductive Reply where
  | response (data : ByteString)
  | failure
  deriving DecidableEq

/-- A request that was sent for some props, and how it ended. -/
structure Info where
  props : Props
  request : ClientRequest
  reply : Option Reply
  deriving DecidableEq

section Component

variable {Metadata : Type}

/-- The component: its props, its state `data` of which `null` is `none`, and its requests. -/
structure State (Metadata : Type) where
  props : Props
  data : Option Metadata
  requests : List Info

/-- The effect. -/
def State.effect (state : State Metadata) : State Metadata :=
  if state.props.Missing then { state with data := none }
  else { state with requests := state.requests ++ [⟨state.props, state.props.request, none⟩] }

/-- The component when it is mounted. -/
def mount (props : Props) : State Metadata := State.effect ⟨props, none, []⟩

/-- What happens next. -/
inductive Label where
  | render (props : Props)
  | settle (request : ℕ) (reply : Reply)

/-- What a reply sets `data` to; bytes that cannot be deserialized end up in the `catch`. -/
def Reply.metadata (deserializeBinary : ByteString → Option Metadata) : Reply → Option Metadata
  | .response data => deserializeBinary data
  | .failure => none

variable (deserializeBinary : ByteString → Option Metadata)

/-- One step of the component. The effect runs when its dependencies have changed. -/
def step (state : State Metadata) : Label → Option (State Metadata)
  | .render props =>
    if props = state.props then some state else some ({ state with props } : State Metadata).effect
  | .settle request reply =>
    match state.requests[request]? with
    | some ⟨props, sent, none⟩ =>
      some
        { state with
          data := reply.metadata deserializeBinary
          requests := state.requests.set request ⟨props, sent, some reply⟩ }
    | _ => none

/-- The component as a machine. -/
def machine : Machine (State Metadata) Label := ⟨step deserializeBinary⟩

/-- A request for these props returned this metadata. -/
def State.Returned (state : State Metadata) (props : Props) (metadata : Metadata) : Prop :=
  ∃ info ∈ state.requests, info.props = props ∧
    info.reply.bind (Reply.metadata deserializeBinary) = some metadata

instance [DecidableEq Metadata] (state : State Metadata) (props : Props) (metadata : Metadata) :
    Decidable (state.Returned deserializeBinary props metadata) :=
  inferInstanceAs (Decidable (∃ info ∈ state.requests, _ ∧ _))

/-- No request is in flight. -/
def State.Quiet (state : State Metadata) : Prop := ∀ info ∈ state.requests, info.reply.isSome

instance (state : State Metadata) : Decidable state.Quiet :=
  inferInstanceAs (Decidable (∀ info ∈ state.requests, _))

/-- When no request is in flight, nothing is on display, or the metadata that a request for the
current props returned; nothing is when one of these is `undefined`. -/
def ShowsCurrent (state : State Metadata) : Prop :=
  state.Quiet → (∀ metadata, state.data = some metadata →
    state.Returned deserializeBinary state.props metadata) ∧ (state.props.Missing → state.data = none)

/-- A response that brings metadata and leaves no request in flight is one for the current props, or
brings what a request for these has returned before. -/
def Fitting (state : State Metadata) : Label → Prop
  | .render _ => True
  | .settle request reply =>
    (∀ other info, state.requests[other]? = some info → info.reply = none → other = request) →
      ∀ metadata, reply.metadata deserializeBinary = some metadata →
        (∃ info, state.requests[request]? = some info ∧ info.props = state.props) ∨
          state.Returned deserializeBinary state.props metadata

end Component

/-! ## Steps -/

section Steps

variable {Metadata : Type} {deserializeBinary : ByteString → Option Metadata}
  {state next : State Metadata} {label : Label}

/-- Requests are sent for props that are both there. -/
def Inv (state : State Metadata) : Prop := ∀ info ∈ state.requests, ¬ info.props.Missing

/-- The effect clears the display, or sends a request. -/
theorem effect_cases (state : State Metadata) :
    state.props.Missing ∧ state.effect = { state with data := none } ∨
      ¬ state.props.Missing ∧ state.effect =
        { state with requests := state.requests ++ [⟨state.props, state.props.request, none⟩] } := by
  by_cases hmissing : state.props.Missing
  · exact .inl ⟨hmissing, if_pos hmissing⟩
  · exact .inr ⟨hmissing, if_neg hmissing⟩

/-- The effect sends requests for props that are both there. -/
theorem Inv.effect (h : Inv state) : Inv state.effect := by
  rcases effect_cases state with ⟨-, heq⟩ | ⟨hpresent, heq⟩
  · rw [heq]
    exact h
  · rw [heq]
    exact List.forall_mem_append.mpr ⟨h, List.forall_mem_singleton.mpr hpresent⟩

/-- The effect leaves a request in flight, or nothing on display. -/
theorem showsCurrent_effect (state : State Metadata) :
    ShowsCurrent deserializeBinary state.effect := by
  rcases effect_cases state with ⟨-, heq⟩ | ⟨-, heq⟩
  · rw [heq]
    exact fun _ => ⟨nofun, fun _ => rfl⟩
  · rw [heq]
    intro hquiet
    exact nomatch hquiet _ (List.mem_append_right _ (List.mem_singleton_self _))

/-- A request settles: its reply is on display. -/
theorem step_settle {request : ℕ} {reply : Reply}
    (hstep : step deserializeBinary state (.settle request reply) = some next) :
    ∃ props sent, state.requests[request]? = some ⟨props, sent, none⟩ ∧ next =
      { state with
        data := reply.metadata deserializeBinary
        requests := state.requests.set request ⟨props, sent, some reply⟩ } := by
  simp only [step] at hstep
  split at hstep
  · next props sent hsent => exact ⟨props, sent, hsent, (Option.some.inj hstep).symm⟩
  · exact nomatch hstep

/-- Every step sends requests for props that are both there. -/
theorem inv_step (h : Inv state) (hstep : step deserializeBinary state label = some next) :
    Inv next := by
  cases label with
  | render props =>
    simp only [step] at hstep
    split at hstep
    · obtain rfl := Option.some.inj hstep
      exact h
    · obtain rfl := Option.some.inj hstep
      have hrendered : Inv { state with props } := h
      exact hrendered.effect
  | settle request reply =>
    obtain ⟨props, sent, hsent, rfl⟩ := step_settle hstep
    intro info hinfo
    rcases List.mem_or_eq_of_mem_set hinfo with hinfo | rfl
    · exact h info hinfo
    · exact h ⟨props, sent, none⟩ (List.mem_of_getElem? hsent)

/-- What requests have returned once another one has settled. -/
theorem returned_settle_iff {request : ℕ} {reply : Reply} {props : Props} {sent : ClientRequest}
    {data : Option Metadata} (hsent : state.requests[request]? = some ⟨props, sent, none⟩)
    (current : Props) (metadata : Metadata) :
    State.Returned deserializeBinary { state with
      data
      requests := state.requests.set request ⟨props, sent, some reply⟩ } current metadata ↔
      state.Returned deserializeBinary current metadata ∨
        props = current ∧ reply.metadata deserializeBinary = some metadata := by
  have hindex := (List.getElem?_eq_some_iff.mp hsent).1
  constructor
  · rintro ⟨info, hinfo, hprops, hmetadata⟩
    rcases List.mem_or_eq_of_mem_set hinfo with hinfo | rfl
    · exact .inl ⟨info, hinfo, hprops, hmetadata⟩
    · exact .inr ⟨hprops, hmetadata⟩
  · rintro (⟨info, hinfo, hprops, hmetadata⟩ | ⟨hprops, hmetadata⟩)
    · obtain ⟨other, hother⟩ := List.mem_iff_getElem?.mp hinfo
      -- a request that was answered is not the one that settles now
      have hne : request ≠ other := by
        rintro rfl
        obtain rfl := Option.some.inj (hsent.symm.trans hother)
        exact nomatch hmetadata
      refine ⟨info, List.mem_iff_getElem?.mpr ⟨other, ?_⟩, hprops, hmetadata⟩
      rw [List.getElem?_set_ne hne, hother]
    · exact ⟨_, List.mem_set hindex _, hprops, hmetadata⟩

/-- The display stays right in a step exactly when the step is fitting. -/
theorem showsCurrent_step (hinv : Inv state) (h : ShowsCurrent deserializeBinary state)
    (hstep : step deserializeBinary state label = some next) :
    ShowsCurrent deserializeBinary next ↔ Fitting deserializeBinary state label := by
  cases label with
  | render props =>
    refine ⟨fun _ => trivial, fun _ => ?_⟩
    simp only [step] at hstep
    split at hstep
    · obtain rfl := Option.some.inj hstep
      exact h
    · obtain rfl := Option.some.inj hstep
      exact showsCurrent_effect _
  | settle request reply =>
    obtain ⟨props, sent, hsent, rfl⟩ := step_settle hstep
    have hindex := (List.getElem?_eq_some_iff.mp hsent).1
    have hquiet := @Machine.forall_mem_set_iff Info (fun info => info.reply.isSome) _ _
      ⟨props, sent, some reply⟩ hindex rfl
    have hown (metadata : Metadata) : reply.metadata deserializeBinary = some metadata →
        ((state.Returned deserializeBinary state.props metadata ∨
            props = state.props ∧ reply.metadata deserializeBinary = some metadata) ↔
          (∃ info, state.requests[request]? = some info ∧ info.props = state.props) ∨
            state.Returned deserializeBinary state.props metadata) := by
      intro hmetadata
      simp only [hsent, Option.some.injEq, exists_eq_left', hmetadata, and_true]
      exact or_comm
    -- where one of the props is missing, no request was sent for them
    have hmissing : (∀ metadata, reply.metadata deserializeBinary = some metadata →
        state.Returned deserializeBinary state.props metadata ∨
          props = state.props ∧ reply.metadata deserializeBinary = some metadata) →
        state.props.Missing → reply.metadata deserializeBinary = none := by
      intro hall hmiss
      cases hmetadata : reply.metadata deserializeBinary with
      | none => rfl
      | some metadata =>
        rcases hall metadata hmetadata with ⟨info, hinfo, hprops, -⟩ | ⟨hprops, -⟩
        · exact absurd (hprops ▸ hmiss) (hinv info hinfo)
        · exact absurd (hprops ▸ hmiss) (hinv _ (List.mem_of_getElem? hsent))
    simp only [ShowsCurrent, Fitting, State.Quiet, hquiet, returned_settle_iff hsent,
      Option.not_isSome_iff_eq_none]
    apply imp_congr_right
    intro _
    constructor
    · rintro ⟨hall, -⟩ metadata hmetadata
      exact (hown metadata hmetadata).mp (hall metadata hmetadata)
    · intro hall
      have hcurrent := fun metadata hmetadata => (hown metadata hmetadata).mpr (hall metadata hmetadata)
      exact ⟨hcurrent, hmissing hcurrent⟩

end Steps

/-- In every run of a component, nothing but the metadata of the current file is on display whenever
no request is in flight, exactly when all steps of the run are fitting. -/
theorem details_throughout_iff {Metadata : Type} (deserializeBinary : ByteString → Option Metadata)
    (props : Props) (labels : List Label) (last : State Metadata)
    (hrun : (machine deserializeBinary).run (mount props) labels = some last) :
    (machine deserializeBinary).Throughout (ShowsCurrent deserializeBinary) (mount props) labels ↔
      (machine deserializeBinary).Along (Fitting deserializeBinary) (mount props) labels := by
  apply (machine deserializeBinary).throughout_iff_along (I := Inv) ?_ ?_ ?_ ?_ hrun
  · exact fun _ _ _ => inv_step
  · exact fun _ _ _ => showsCurrent_step
  · have hempty : Inv (⟨props, none, []⟩ : State Metadata) := fun _ h => absurd h List.not_mem_nil
    exact hempty.effect
  · exact showsCurrent_effect _

/-- A file of the folder `noarch`. -/
def sampleProps (name : String) : Props := ⟨.text (ascii "noarch"), .text (ascii name)⟩

/-- Another file is selected, and the response for the first one comes last. -/
def sampleLabels : List Label :=
  [.render (sampleProps "b.rpm"), .settle 1 (.response (ascii "b")), .settle 0 (.response (ascii "a"))]

/-- The metadata of the first file stays on display. -/
theorem sample_not_showsCurrent :
    ∃ last, (machine some).run (mount (sampleProps "a.rpm")) sampleLabels = some last ∧
      last.Quiet ∧ last.props = sampleProps "b.rpm" ∧ last.data = some (ascii "a") ∧
      ¬ last.Returned some last.props (ascii "a") ∧ ¬ ShowsCurrent some last := by
  refine ⟨_, rfl, by decide, rfl, rfl, by decide, fun hshows => ?_⟩
  exact absurd ((hshows (by decide)).1 _ rfl) (by decide)

/-- When each response comes before the next file is chosen, its metadata is on display. -/
theorem sample_details_throughout_iff :
    (machine some).Throughout (ShowsCurrent some) (mount (sampleProps "a.rpm"))
      [.settle 0 (.response (ascii "a")), .render (sampleProps "b.rpm"),
        .settle 1 (.response (ascii "b"))] := by
  apply (details_throughout_iff some (sampleProps "a.rpm") _ _ rfl).mpr
  refine .cons rfl ?_ (.cons rfl trivial (.cons rfl ?_ trivial))
  · exact fun _ _ _ => Or.inl ⟨_, rfl, rfl⟩
  · exact fun _ _ _ => Or.inl ⟨_, rfl, rfl⟩

end Details

end RepoManager
