import RepoManager.Library.LexicalPath
import RepoManager.Library.Transition

/-!
# The slice of the toasts

`toastsReducer`, the actions that reach it and `ToastsList`, which shows what the slice holds. The
messages are an object, keyed by the UUID of each toast; `clearToasts` leaves `undefined` in its
place, of which the reducer can neither set nor delete a property.

`toasts_refine_iff` compares the slice with what it stands for: the toasts that were added and
neither deleted nor cleared since.
-/

namespace RepoManager

namespace Toasts

/-- The form of a UUID. It is no array index, so that properties keep the order of creation. -/
def IsUuid (text : ByteString) : Prop :=
  text.length = 36 ∧ ∀ byte ∈ text, byte = 0x2d ∨ (0x30 ≤ byte ∧ byte ≤ 0x39) ∨
    (0x61 ≤ byte ∧ byte ≤ 0x66)

instance (text : ByteString) : Decidable (IsUuid text) := inferInstanceAs (Decidable (_ ∧ _))

/-- What `uuidv1` returns. -/
structure Uuid where
  val : ByteString
  property : IsUuid val
  deriving DecidableEq

/-- What a toast is made from. -/
structure Content where
  message : ByteString
  type : Option ByteString
  sticky : Option Bool
  deriving DecidableEq

/-- A toast with its key. -/
structure Message extends Content where
  key : ByteString
  deriving DecidableEq

/-- The own properties of an object, in the order of their creation. -/
abbrev Messages := List (ByteString × Message)

/-- `messages[ key ] = message` -/
def Messages.set (messages : Messages) (key : ByteString) (message : Message) : Messages :=
  if messages.any (·.1 = key) then
    messages.map fun entry => if entry.1 = key then (key, message) else entry
  else messages ++ [(key, message)]

/-- `delete messages[ key ]` -/
def Messages.delete (messages : Messages) (key : ByteString) : Messages :=
  messages.filter (·.1 ≠ key)

/-- `TMessages`; the object of the messages may be `undefined`. -/
structure State where
  messages : Option Messages
  deriving DecidableEq

/-- `initialState` -/
def initialState : State := ⟨some []⟩

/-- The actions of the slice. -/
inductive Action where
  | toastsAdd (key : ByteString) (message : Message)
  | toastsDelete (key : ByteString)
  | toastsClear

/-- `toastsReducer`; `none` where a property of `undefined` is set or deleted, which throws. The
deep copy of `undefined` is `undefined`. -/
def toastsReducer (state : State) : Action → Option State
  | .toastsAdd key message => state.messages.map fun messages => ⟨some (messages.set key message)⟩
  | .toastsDelete key => state.messages.map fun messages => ⟨some (messages.delete key)⟩
  | .toastsClear => some ⟨none⟩

/-- An error as a rejected promise passes it on: one of axios with a response, or any other one with
the text of its `toString`. -/
inductive Rejection where
  | response (data : ByteString)
  | other (text : ByteString)

/-- A call of an action creator, with the key that `uuidv1` returns in it. -/
inductive Call where
  | addToast (key : Uuid) (toast : Content)
  | addToastError (key : Uuid) (error : Rejection)
  | deleteToast (key : ByteString)
  | clearToasts

/-- The toast of an error. -/
def errorToast : Rejection → Content
  | .response data => ⟨data, some (ascii "danger"), none⟩
  | .other text => ⟨text, some (ascii "danger"), none⟩

/-- `addToast` -/
def addToast (key : Uuid) (toast : Content) : Action := .toastsAdd key.val ⟨toast, key.val⟩

/-- `addToastError` -/
def addToastError (key : Uuid) (error : Rejection) : Action := addToast key (errorToast error)

/-- `deleteToast` -/
def deleteToast (key : ByteString) : Action := .toastsDelete key

/-- `clearToasts` -/
def clearToasts : Action := .toastsClear

/-- The action that a creator returns. -/
def Call.action : Call → Action
  | .addToast key toast => Toasts.addToast key toast
  | .addToastError key error => Toasts.addToastError key error
  | .deleteToast key => Toasts.deleteToast key
  | .clearToasts => Toasts.clearToasts

/-- The slice as a machine. -/
def machine : Machine State Call := ⟨fun state call => toastsReducer state call.action⟩

/-- An alert on the screen. -/
structure Alert where
  key : ByteString
  title : ByteString
  variant : Option ByteString
  timeout : Option ℕ
  deriving DecidableEq

/-- The enumeration `AlertVariant`. -/
def alertVariants : List ByteString :=
  [ascii "success", ascii "danger", ascii "warning", ascii "info", ascii "custom"]

/-- The alert of a toast. -/
def Message.alert (message : Message) : Alert where
  key := message.key
  title := message.message
  variant := message.type.filter (· ∈ alertVariants)
  timeout := if message.sticky.getD false then none else some 16000

/-- `ToastsList` -/
def toastsList (state : State) : List Alert :=
  match state.messages with
  | none => []
  | some messages => messages.map fun entry => entry.2.alert

/-! ## What the slice stands for -/

/-- The toast that a call adds. -/
def Call.added : Call → Option Message
  | .addToast key toast => some ⟨toast, key.val⟩
  | .addToastError key error => some ⟨errorToast error, key.val⟩
  | _ => none

/-- A toast was added and neither deleted by its key nor cleared since. -/
def Live (calls : List Call) (message : Message) : Prop :=
  ∃ before call after, calls = before ++ call :: after ∧ call.added = some message ∧
    .clearToasts ∉ after ∧ .deleteToast message.key ∉ after

/-- The keys of the toasts that are added. -/
def keys (calls : List Call) : List ByteString := (calls.filterMap Call.added).map Message.key

/-- Nothing is thrown, and exactly the live toasts are shown, each of them once. -/
def Refines (calls : List Call) : Prop :=
  ∃ last, machine.run initialState calls = some last ∧
    ((toastsList last).map Alert.key).Nodup ∧
      ∀ alert, alert ∈ toastsList last ↔ ∃ message, Live calls message ∧ alert = message.alert

/-- After a clear there is nothing but clears. -/
def ClearsLast (calls : List Call) : Prop :=
  ∀ before after, calls = before ++ .clearToasts :: after → ∀ call ∈ after, call = .clearToasts

/-! ## Properties of the object -/

section Objects

variable {messages : Messages} {key : ByteString} {message : Message}

/-- The properties after one was set. -/
theorem mem_set_iff {entry : ByteString × Message} :
    entry ∈ messages.set key message ↔
      entry = (key, message) ∨ entry ∈ messages ∧ entry.1 ≠ key := by
  unfold Messages.set
  split
  · next hany =>
    obtain ⟨old, hold, hkey⟩ := List.any_eq_true.mp hany
    rw [List.mem_map]
    constructor
    · rintro ⟨found, hfound, rfl⟩
      split
      · exact .inl rfl
      · next hne => exact .inr ⟨hfound, hne⟩
    · rintro (rfl | ⟨hmem, hne⟩)
      · exact ⟨old, hold, if_pos (by simpa using hkey)⟩
      · exact ⟨entry, hmem, if_neg hne⟩
  · next hnone =>
    have habsent : entry ∈ messages → entry.1 ≠ key := by
      intro hmem heq
      exact hnone (List.any_eq_true.mpr ⟨entry, hmem, by simpa using heq⟩)
    rw [List.mem_append, List.mem_singleton, or_comm]
    exact or_congr_right ⟨fun hmem => ⟨hmem, habsent hmem⟩, And.left⟩

/-- Setting a property gives no key twice. -/
theorem nodup_set (h : (messages.map Prod.fst).Nodup) :
    ((messages.set key message).map Prod.fst).Nodup := by
  unfold Messages.set
  split
  · have hkeys : (messages.map fun entry => if entry.1 = key then (key, message) else entry).map
        Prod.fst = messages.map Prod.fst := by
      rw [List.map_map]
      apply List.map_congr_left
      intro entry _
      by_cases heq : entry.1 = key
      · simp [heq]
      · simp [heq]
    rwa [hkeys]
  · next hnone =>
    rw [List.map_append, List.nodup_append]
    refine ⟨h, by simp, ?_⟩
    rintro left hleft right hright rfl
    obtain ⟨entry, hentry, rfl⟩ := List.mem_map.mp hleft
    exact hnone (List.any_eq_true.mpr ⟨entry, hentry, by simpa using hright⟩)

end Objects

/-! ## Runs -/

section Runs

variable {calls : List Call} {call : Call} {message : Message}

/-- What a further call does to the live toasts. -/
theorem live_concat : Live (calls ++ [call]) message ↔
    call.added = some message ∨
      Live calls message ∧ call ≠ .clearToasts ∧ call ≠ .deleteToast message.key := by
  constructor
  · rintro ⟨before, adding, after, heq, hadded, hclear, hdelete⟩
    rcases List.eq_nil_or_concat' after with rfl | ⟨after, last, rfl⟩
    · obtain ⟨-, hcall⟩ := List.append_inj' heq rfl
      obtain rfl := List.singleton_inj.mp hcall
      exact .inl hadded
    · rw [← List.cons_append, ← List.append_assoc] at heq
      obtain ⟨rfl, hcall⟩ := List.append_inj' heq rfl
      obtain rfl := List.singleton_inj.mp hcall
      rw [List.mem_append, not_or, List.mem_singleton] at hclear hdelete
      exact .inr ⟨⟨before, adding, after, rfl, hadded, hclear.1, hdelete.1⟩,
        Ne.symm hclear.2, Ne.symm hdelete.2⟩
  · rintro (hadded | ⟨⟨before, adding, after, rfl, hadded, hclear, hdelete⟩, hneClear, hneDelete⟩)
    · exact ⟨calls, call, [], rfl, hadded, List.not_mem_nil, List.not_mem_nil⟩
    · refine ⟨before, adding, after ++ [call], by simp, hadded, ?_, ?_⟩
      · simp [hclear, Ne.symm hneClear]
      · simp [hdelete, Ne.symm hneDelete]

/-- After a clear no toast is live. -/
theorem not_live_clear {after : List Call} (hafter : ∀ call ∈ after, call = .clearToasts) :
    ¬ Live (calls ++ .clearToasts :: after) message := by
  have hlast : ∃ init, calls ++ .clearToasts :: after = init ++ [.clearToasts] := by
    rcases List.eq_nil_or_concat' after with rfl | ⟨after, last, rfl⟩
    · exact ⟨calls, rfl⟩
    · obtain rfl := hafter last (by simp)
      exact ⟨calls ++ .clearToasts :: after, by simp⟩
  obtain ⟨init, hinit⟩ := hlast
  rw [hinit, live_concat]
  rintro (hadded | ⟨-, hclear, -⟩)
  · exact nomatch hadded
  · exact hclear rfl

/-- A live toast was added. -/
theorem mem_keys_of_live (h : Live calls message) : message.key ∈ keys calls := by
  obtain ⟨before, adding, after, rfl, hadded, -⟩ := h
  apply List.mem_map_of_mem
  exact List.mem_filterMap.mpr ⟨adding, by simp, hadded⟩

/-- The slice holds the live toasts, each under its key. -/
structure Holds (calls : List Call) (messages : Messages) : Prop where
  nodup : (messages.map Prod.fst).Nodup
  own : ∀ entry ∈ messages, entry.1 = entry.2.key
  live : ∀ message, (message.key, message) ∈ messages ↔ Live calls message

/-- Adding a toast under a new key. -/
theorem Holds.add {messages : Messages} (h : Holds calls messages)
    (hadded : call.added = some message) (hfresh : message.key ∉ keys calls) :
    Holds (calls ++ [call]) (messages.set message.key message) where
  nodup := nodup_set h.nodup
  own entry hentry := by
    rcases mem_set_iff.mp hentry with rfl | ⟨hold, -⟩
    · rfl
    · exact h.own entry hold
  live other := by
    have hcall : call ≠ .clearToasts ∧ call ≠ .deleteToast other.key := by
      constructor
      · rintro rfl
        exact nomatch hadded
      · rintro rfl
        exact nomatch hadded
    rw [mem_set_iff, live_concat, h.live, hadded, Option.some.injEq, Prod.mk.injEq]
    constructor
    · rintro (⟨-, rfl⟩ | ⟨hlive, -⟩)
      · exact .inl rfl
      · exact .inr ⟨hlive, hcall⟩
    · rintro (rfl | ⟨hlive, -⟩)
      · exact .inl ⟨rfl, rfl⟩
      · exact .inr ⟨hlive, fun heq => hfresh (heq ▸ mem_keys_of_live hlive)⟩

/-- Deleting a toast. -/
theorem Holds.delete {messages : Messages} (h : Holds calls messages) (key : ByteString) :
    Holds (calls ++ [.deleteToast key]) (messages.delete key) where
  nodup := h.nodup.sublist (List.filter_sublist.map _)
  own entry hentry := h.own entry (List.mem_of_mem_filter hentry)
  live other := by
    have hkey : other.key ≠ key ↔ Call.deleteToast key ≠ .deleteToast other.key := by
      rw [Ne, Ne, Call.deleteToast.injEq, eq_comm]
    rw [Messages.delete, List.mem_filter, h.live, live_concat, decide_eq_true_eq, hkey]
    exact ⟨fun ⟨hlive, hne⟩ => .inr ⟨hlive, nofun, hne⟩,
      fun hor => (hor.resolve_left nofun).imp_right And.right⟩

/-- Without a clear, nothing is thrown and the slice holds the live toasts. -/
theorem run_holds (hkeys : (keys calls).Nodup) (hclear : .clearToasts ∉ calls) :
    ∃ messages, machine.run initialState calls = some ⟨some messages⟩ ∧ Holds calls messages := by
  induction calls using List.reverseRecOn with
  | nil =>
    refine ⟨[], rfl, List.nodup_nil, nofun, fun message => ⟨nofun, ?_⟩⟩
    rintro ⟨before, adding, after, heq, -⟩
    simp at heq
  | append_singleton calls call ih =>
    rw [List.mem_append, not_or, List.mem_singleton] at hclear
    have hsplit : keys (calls ++ [call]) = keys calls ++ keys [call] := by
      rw [keys, List.filterMap_append, List.map_append, keys, keys]
    rw [hsplit, List.nodup_append] at hkeys
    obtain ⟨messages, hrun, hholds⟩ := ih hkeys.1 hclear.1
    have hnext : machine.run initialState (calls ++ [call]) =
        toastsReducer ⟨some messages⟩ call.action := by
      rw [machine.run_append, hrun, Option.bind_some, Machine.run]
      exact Option.bind_fun_some _
    rw [hnext]
    have hfresh : ∀ message, call.added = some message → message.key ∉ keys calls := by
      intro message hadded hmem
      refine hkeys.2.2 message.key hmem message.key ?_ rfl
      rw [keys, List.filterMap_cons_some hadded]
      exact List.mem_cons_self
    cases call with
    | addToast key toast => exact ⟨_, rfl, hholds.add rfl (hfresh _ rfl)⟩
    | addToastError key error => exact ⟨_, rfl, hholds.add rfl (hfresh _ rfl)⟩
    | deleteToast key => exact ⟨_, rfl, hholds.delete key⟩
    | clearToasts => exact absurd rfl hclear.2

/-- From `undefined` only a clear does not throw. -/
theorem run_undefined_iff {last : State} :
    machine.run ⟨none⟩ calls = some last ↔ last = ⟨none⟩ ∧ ∀ call ∈ calls, call = .clearToasts := by
  induction calls with
  | nil => exact ⟨fun h => ⟨(Option.some.inj h).symm, nofun⟩, fun h => congrArg some h.1.symm⟩
  | cons call calls ih =>
    rw [machine.run_cons_eq_some_iff, List.forall_mem_cons]
    cases call with
    | addToast key toast => simp [machine, toastsReducer, Call.action, addToast]
    | addToastError key error => simp [machine, toastsReducer, Call.action, addToastError, addToast]
    | deleteToast key => simp [machine, toastsReducer, Call.action, deleteToast]
    | clearToasts =>
      have hclear : machine.step ⟨none⟩ .clearToasts = some ⟨none⟩ := rfl
      simp only [hclear, Option.some.injEq, exists_eq_left', true_and, ih]

/-- A run with a clear in it is one to the clear, followed by more clears. -/
theorem run_clear_iff {before after : List Call} {last : State} :
    machine.run initialState (before ++ .clearToasts :: after) = some last ↔
      (machine.run initialState before).isSome ∧ last = ⟨none⟩ ∧
        ∀ call ∈ after, call = .clearToasts := by
  rw [machine.run_append]
  cases machine.run initialState before with
  | none => simp
  | some state =>
    have hclear : machine.run state (.clearToasts :: after) = machine.run ⟨none⟩ after := rfl
    rw [Option.bind_some, hclear, run_undefined_iff]
    simp

end Runs

/-- For toasts with different keys, the slice shows the live ones in every state exactly when
nothing is added or deleted after a clear. -/
theorem toasts_refine_iff (calls : List Call) (hkeys : (keys calls).Nodup) :
    Refines calls ↔ ClearsLast calls := by
  constructor
  · rintro ⟨last, hrun, -⟩ before after rfl
    exact (run_clear_iff.mp hrun).2.2
  · intro hlast
    by_cases hclear : .clearToasts ∈ calls
    · obtain ⟨before, after, rfl, hbefore⟩ := List.eq_append_cons_of_mem hclear
      have hafter := hlast before after rfl
      have hkeysBefore : (keys before).Nodup := by
        refine hkeys.sublist (List.Sublist.map _ (List.Sublist.filterMap _ ?_))
        exact List.sublist_append_left before _
      obtain ⟨messages, hrun, -⟩ := run_holds hkeysBefore hbefore
      refine ⟨⟨none⟩, run_clear_iff.mpr ⟨by rw [hrun]; rfl, rfl, hafter⟩, List.nodup_nil, ?_⟩
      intro alert
      refine ⟨fun hmem => absurd hmem List.not_mem_nil, ?_⟩
      rintro ⟨message, hlive, -⟩
      exact absurd hlive (not_live_clear hafter)
    · obtain ⟨messages, hrun, hholds⟩ := run_holds hkeys hclear
      refine ⟨_, hrun, ?_, ?_⟩
      · have hkey : (toastsList ⟨some messages⟩).map Alert.key = messages.map Prod.fst := by
          rw [toastsList, List.map_map]
          exact List.map_congr_left fun entry hentry => (hholds.own entry hentry).symm
        rw [hkey]
        exact hholds.nodup
      · intro alert
        rw [toastsList, List.mem_map]
        constructor
        · rintro ⟨⟨key, message⟩, hentry, rfl⟩
          obtain rfl : key = message.key := hholds.own _ hentry
          exact ⟨message, (hholds.live message).mp hentry, rfl⟩
        · rintro ⟨message, hlive, rfl⟩
          exact ⟨_, (hholds.live message).mpr hlive, rfl⟩

/-- The key of a toast. -/
def sampleKey : Uuid := ⟨ascii "2c5ea4c0-4067-11e9-8bad-9b1deb4d3b7d", by decide +kernel⟩

/-- A toast. -/
def sampleToast : Content := ⟨ascii "Success file uploading: kes.rpm", none, none⟩

/-- The first toast after a clear makes the reducer throw. -/
theorem sample_not_refines :
    (keys [.clearToasts, .addToast sampleKey sampleToast]).Nodup ∧
      machine.run initialState [.clearToasts, .addToast sampleKey sampleToast] = none ∧
      ¬ Refines [.clearToasts, .addToast sampleKey sampleToast] := by
  refine ⟨List.nodup_cons.mpr ⟨List.not_mem_nil, List.nodup_nil⟩, rfl, ?_⟩
  rintro ⟨last, hrun, -⟩
  exact nomatch hrun

/-- A toast that is added, deleted late and cleared is shown while it is live. -/
theorem sample_toasts_refine_iff :
    Refines [.addToast sampleKey sampleToast, .deleteToast sampleKey.val, .clearToasts] := by
  have hkeys : (keys [.addToast sampleKey sampleToast, .deleteToast sampleKey.val,
      .clearToasts]).Nodup := List.nodup_cons.mpr ⟨List.not_mem_nil, List.nodup_nil⟩
  apply (toasts_refine_iff _ hkeys).mpr
  intro before after hcalls call hcall
  rcases before with _ | ⟨_, _ | ⟨_, before⟩⟩
  · simp at hcalls
  · simp at hcalls
  · obtain ⟨-, -, -, rfl⟩ := by simpa [List.singleton_eq_append_iff] using hcalls
    exact absurd hcall List.not_mem_nil

end Toasts

end RepoManager
