import RepoManager.Client.Actions
import RepoManager.Library.Transition

/-!
# The loading indicator

Five action creators share the flag `loading`: each sets it before its request and clears it once
the request has settled. The flag does not count, so a request that completes clears it for the
others.

`loading_throughout_iff` says for every interleaving when the flag is right in all states: no
request completes while another one is outstanding.
-/

namespace RepoManager

namespace Loading

/-- An asynchronous action, as it is dispatched. -/
inductive AsyncAction where
  | dataLoad (folder : ByteString)
  | uploadingFile (folder : ByteString) (file : Option ByteString)
  | downloadingFile (folder filename : ByteString)
  | repoReindexes
  | foldersLoad
  deriving DecidableEq

/-- What the response to its request is decoded to. -/
def AsyncAction.Reply : AsyncAction → Type
  | .dataLoad _ => List ByteString
  | .uploadingFile _ _ => ByteString
  | .downloadingFile _ _ => Unit
  | .repoReindexes => ByteString
  | .foldersLoad => List TreeNode × List Ref

/-- Its creator: actions without a request, or a thunk. -/
def AsyncAction.creator : (action : AsyncAction) → List Action ⊕ Thunk action.Reply
  | .dataLoad folder => .inr (actionDataLoad folder)
  | .uploadingFile folder file => actionUploadingFile folder file
  | .downloadingFile folder filename => actionDownloadingFile folder filename
  | .repoReindexes => .inr actionRepoReindexes
  | .foldersLoad => .inr actionFoldersLoad

/-- A request that was sent. -/
structure Request where
  action : AsyncAction
  completed : Bool
  deriving DecidableEq

/-- The client and the requests, in the order in which they were sent. -/
structure State where
  client : Client
  requests : List Request

/-- An action is dispatched, or a request completes with its reply or an error. -/
inductive Label where
  | start (action : AsyncAction)
  | complete (request : ℕ) (action : AsyncAction) (outcome : Except ByteString action.Reply)

/-- One step of the client. -/
def step (normalModule : Option Ref) (state : State) : Label → Option State
  | .start action =>
    match action.creator with
    | .inl actions => some { state with client := state.client.dispatchAll normalModule actions }
    | .inr thunk =>
      some
        { client := state.client.dispatchAll normalModule thunk.before
          requests := state.requests ++ [⟨action, false⟩] }
  | .complete request action outcome =>
    if state.requests[request]? = some ⟨action, false⟩ then
      match action.creator with
      | .inl _ => none
      | .inr thunk =>
        some
          { client := state.client.dispatchAll normalModule (thunk.settle outcome)
            requests := state.requests.set request ⟨action, true⟩ }
    else none

/-- The client as a machine. -/
def machine (normalModule : Option Ref) : Machine State Label := ⟨step normalModule⟩

/-- Some request has not completed yet. -/
def State.Outstanding (state : State) : Prop :=
  ∃ request ∈ state.requests, request.completed = false

/-- The flag is set exactly when some request is outstanding. -/
def Reflects (state : State) : Prop := state.client.loading = true ↔ state.Outstanding

/-- A request completes when no other one is outstanding. -/
def CompletesLast (state : State) : Label → Prop
  | .start _ => True
  | .complete request _ _ =>
    ∀ other held, state.requests[other]? = some held → held.completed = false → other = request

/-! ## What the actions do to the flag -/

section Flag

variable (normalModule : Option Ref) (client : Client)

/-- A creator without a request leaves the flag. A thunk sets it before its request, and clears
it afterwards, whatever the outcome. -/
theorem loading_creator (action : AsyncAction) :
    match action.creator with
    | .inl actions => (client.dispatchAll normalModule actions).loading = client.loading
    | .inr thunk => (client.dispatchAll normalModule thunk.before).loading = true ∧
        ∀ outcome, (client.dispatchAll normalModule (thunk.settle outcome)).loading = false := by
  cases action with
  | dataLoad | repoReindexes | foldersLoad =>
    refine ⟨rfl, fun outcome => ?_⟩
    cases outcome <;> rfl
  | uploadingFile folder file =>
    cases file with
    | none => rfl
    | some file =>
      refine ⟨rfl, fun outcome => ?_⟩
      cases outcome <;> rfl
  | downloadingFile folder filename =>
    by_cases hempty : folder = [] ∨ filename = []
    · simp only [AsyncAction.creator, actionDownloadingFile, if_pos hempty]
      rfl
    · simp only [AsyncAction.creator, actionDownloadingFile, if_neg hempty]
      refine ⟨rfl, fun outcome => ?_⟩
      cases outcome <;> rfl

end Flag

/-! ## Interleavings -/

/-- Nothing is outstanding after a completion exactly when the request was the last one. -/
theorem not_outstanding_set_iff {requests : List Request} {request : ℕ} {action : AsyncAction}
    (hsent : requests[request]? = some ⟨action, false⟩) :
    (¬ ∃ held ∈ requests.set request ⟨action, true⟩, held.completed = false) ↔
      ∀ other held, requests[other]? = some held → held.completed = false → other = request := by
  have hindex := (List.getElem?_eq_some_iff.mp hsent).1
  have hset := @Machine.forall_mem_set_iff Request (fun held => held.completed = true) _ _
    ⟨action, true⟩ hindex rfl
  simp only [not_exists, not_and, Bool.not_eq_false]
  rw [hset]
  simp only [Bool.not_eq_true]

/-- The flag stays right in a step exactly when no request completes before another one. -/
theorem reflects_step {normalModule : Option Ref} {state next : State} {label : Label}
    (h : Reflects state) (hstep : step normalModule state label = some next) :
    Reflects next ↔ CompletesLast state label := by
  cases label with
  | start action =>
    have hflag := loading_creator normalModule state.client action
    simp only [step] at hstep
    split at hstep
    · next actions hcreator =>
      obtain rfl := Option.some.inj hstep
      rw [hcreator] at hflag
      rw [Reflects, hflag]
      exact ⟨fun _ => trivial, fun _ => h⟩
    · next thunk hcreator =>
      obtain rfl := Option.some.inj hstep
      rw [hcreator] at hflag
      rw [Reflects, hflag.1]
      refine ⟨fun _ => trivial, fun _ => ⟨fun _ => ?_, fun _ => rfl⟩⟩
      exact ⟨⟨action, false⟩, List.mem_append_right _ (List.mem_singleton_self _), rfl⟩
  | complete request action outcome =>
    have hflag := loading_creator normalModule state.client action
    simp only [step] at hstep
    split at hstep
    · next hsent =>
      split at hstep
      · exact nomatch hstep
      · next thunk hcreator =>
        obtain rfl := Option.some.inj hstep
        rw [hcreator] at hflag
        rw [Reflects, hflag.2 outcome, CompletesLast, ← not_outstanding_set_iff hsent]
        simp only [Bool.false_eq_true, false_iff, State.Outstanding]
    · exact nomatch hstep

/-- In a run of the five actions from a client at rest, the flag reflects outstanding requests in
every state exactly when no request completes while another one is outstanding. -/
theorem loading_throughout_iff (normalModule : Option Ref) (client : Client) (labels : List Label)
    (last : State) (hoff : client.loading = false)
    (hrun : (machine normalModule).run ⟨client, []⟩ labels = some last) :
    (machine normalModule).Throughout Reflects ⟨client, []⟩ labels ↔
      (machine normalModule).Along CompletesLast ⟨client, []⟩ labels := by
  apply (machine normalModule).throughout_iff_along (I := fun _ => True) ?_ ?_ trivial ?_ hrun
  · exact fun _ _ _ _ _ => trivial
  · exact fun _ _ _ _ => reflects_step
  · rw [Reflects, hoff]
    refine ⟨nofun, ?_⟩
    rintro ⟨request, hrequest, -⟩
    exact absurd hrequest List.not_mem_nil

/-- Two loads are started and the first one completes. -/
def sampleLabels : List Label :=
  [.start (.dataLoad (ascii "noarch")), .start .foldersLoad,
    .complete 0 (.dataLoad (ascii "noarch")) (.ok [])]

/-- The flag is off while the load of the folders is outstanding. -/
theorem sample_not_reflects :
    ∃ last, (machine none).run ⟨.initial ⟨[], []⟩, []⟩ sampleLabels = some last ∧
      last.client.loading = false ∧ last.Outstanding ∧ ¬ Reflects last := by
  have houtstanding : ∃ request ∈ [Request.mk (.dataLoad (ascii "noarch")) true,
      ⟨.foldersLoad, false⟩], request.completed = false := by decide
  refine ⟨_, rfl, rfl, houtstanding, ?_⟩
  intro hreflects
  exact nomatch hreflects.mpr houtstanding

/-- When one request completes before the next one is sent, the flag reflects them. -/
theorem sample_loading_throughout_iff :
    (machine none).Throughout Reflects ⟨.initial ⟨[], []⟩, []⟩
      [.start .repoReindexes, .complete 0 .repoReindexes (.error (ascii "Network Error")),
        .start .foldersLoad] := by
  apply (loading_throughout_iff none (.initial ⟨[], []⟩) _ _ rfl rfl).mpr
  refine .cons rfl trivial (.cons rfl ?_ (.cons rfl trivial trivial))
  intro other held hother _
  exact Nat.lt_one_iff.mp (List.getElem?_eq_some_iff.mp hother).1

end Loading

end RepoManager
