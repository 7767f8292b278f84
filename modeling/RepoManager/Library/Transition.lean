import Mathlib.Data.List.Basic

/-!
# Labelled transitions

A deterministic machine with partial steps: a label that is not enabled in a state has no step
there. A run is a list of labels, all of them enabled in turn.

Two invariant rules: for what every step preserves, and for what is preserved by the steps that
meet a condition, in the runs all of whose steps meet it. A third rule is exact: where the property
survives a step just when the step meets the condition, it holds throughout a run just when all
steps of the run meet it.
-/

/-- A machine takes a state and a label to the next state, if the label is enabled. -/
structure Machine (State Label : Type*) where
  step : State → Label → Option State

namespace Machine

variable {State Label : Type*} (machine : Machine State Label)

/-- Run a list of labels. -/
def run : State → List Label → Option State
  | state, [] => some state
  | state, label :: rest => (machine.step state label).bind fun next => run next rest

/-- Every step of a run meets a condition on its label and on the state before it. -/
def Along (C : State → Label → Prop) : State → List Label → Prop
  | _, [] => True
  | state, label :: rest =>
    C state label ∧ ∀ next, machine.step state label = some next → Along C next rest

/-- The first step of a run. -/
theorem run_cons_eq_some_iff (state : State) (label : Label) (rest : List Label) (last : State) :
    machine.run state (label :: rest) = some last ↔
      ∃ next, machine.step state label = some next ∧ machine.run next rest = some last :=
  Option.bind_eq_some_iff

/-- A run continued by another. -/
theorem run_append (state : State) (first second : List Label) :
    machine.run state (first ++ second) =
      (machine.run state first).bind fun middle => machine.run middle second := by
  induction first generalizing state with
  | nil => rfl
  | cons label rest ih =>
    rw [List.cons_append, run, run, Option.bind_assoc]
    congr
    funext next
    exact ih next

/-- What the steps that meet a condition preserve holds after the runs that meet it. -/
theorem run_invariant_along {P : State → Prop} {C : State → Label → Prop}
    (hstep : ∀ state label next, P state → C state label → machine.step state label = some next →
      P next)
    {start last : State} {labels : List Label} (hstart : P start)
    (hrun : machine.run start labels = some last) (halong : machine.Along C start labels) :
    P last := by
  induction labels generalizing start with
  | nil =>
    obtain rfl := Option.some.inj hrun
    exact hstart
  | cons label rest ih =>
    obtain ⟨next, hnext, hrest⟩ := (machine.run_cons_eq_some_iff ..).mp hrun
    obtain ⟨hlabel, hlater⟩ := halong
    exact ih (hstep start label next hstart hlabel hnext) hrest (hlater next hnext)

variable {machine} in
/-- A run meets a condition when its first step does and the rest of it after that. -/
theorem Along.cons {C : State → Label → Prop} {state next : State} {label : Label}
    {rest : List Label} (hstep : machine.step state label = some next) (hlabel : C state label)
    (hrest : machine.Along C next rest) : machine.Along C state (label :: rest) := by
  refine ⟨hlabel, fun other hother => ?_⟩
  obtain rfl := Option.some.inj (hstep.symm.trans hother)
  exact hrest

/-- Every run meets the condition that is always true. -/
theorem along_true (state : State) (labels : List Label) :
    machine.Along (fun _ _ => True) state labels := by
  induction labels generalizing state with
  | nil => exact trivial
  | cons label rest ih => exact ⟨trivial, fun next _ => ih next⟩

/-- What every step preserves holds after every run. -/
theorem run_invariant {P : State → Prop}
    (hstep : ∀ state label next, P state → machine.step state label = some next → P next)
    {start last : State} {labels : List Label} (hstart : P start)
    (hrun : machine.run start labels = some last) : P last := by
  refine machine.run_invariant_along (C := fun _ _ => True) ?_ hstart hrun ?_
  · intro state label next hstate _ hnext
    exact hstep state label next hstate hnext
  · exact machine.along_true start labels

/-- A property holds in every state of a run. -/
def Throughout (P : State → Prop) : State → List Label → Prop
  | state, [] => P state
  | state, label :: rest =>
    P state ∧ ∀ next, machine.step state label = some next → Throughout P next rest

/-- Where a property survives a step just when the step meets a condition, it holds throughout the
runs that meet the condition and no others. The invariant is what every step preserves. -/
theorem throughout_iff_along {P I : State → Prop} {C : State → Label → Prop}
    (hinv : ∀ state label next, I state → machine.step state label = some next → I next)
    (hexact : ∀ state label next, I state → P state → machine.step state label = some next →
      (P next ↔ C state label))
    {start last : State} {labels : List Label} (hI : I start) (hP : P start)
    (hrun : machine.run start labels = some last) :
    machine.Throughout P start labels ↔ machine.Along C start labels := by
  induction labels generalizing start with
  | nil => exact ⟨fun _ => trivial, fun _ => hP⟩
  | cons label labels ih =>
    obtain ⟨next, hnext, hrest⟩ := (machine.run_cons_eq_some_iff ..).mp hrun
    have hsurvives := hexact start label next hI hP hnext
    have hbegins : machine.Throughout P next labels → P next := by
      intro hlater
      cases labels with
      | nil => exact hlater
      | cons => exact hlater.1
    constructor
    · rintro ⟨-, hlater⟩
      have hP' := hbegins (hlater next hnext)
      refine ⟨hsurvives.mp hP', fun other hother => ?_⟩
      obtain rfl := Option.some.inj (hnext.symm.trans hother)
      exact (ih (hinv _ _ _ hI hnext) hP' hrest).mp (hlater next hnext)
    · rintro ⟨hC, hlater⟩
      have hP' := hsurvives.mpr hC
      refine ⟨hP, fun other hother => ?_⟩
      obtain rfl := Option.some.inj (hnext.symm.trans hother)
      exact (ih (hinv _ _ _ hI hnext) hP' hrest).mpr (hlater next hnext)

/-! ## Requests in a state -/

/-- Once one request of a list meets a condition, all of them do exactly when it was the only one
that did not. -/
theorem forall_mem_set_iff {Request : Type*} {P : Request → Prop} {requests : List Request}
    {index : ℕ} {request : Request} (hindex : index < requests.length) (h : P request) :
    (∀ held ∈ requests.set index request, P held) ↔
      ∀ other held, requests[other]? = some held → ¬ P held → other = index := by
  constructor
  · intro hall other held hother hheld
    by_contra hne
    apply hheld
    refine hall held (List.mem_iff_getElem?.mpr ⟨other, ?_⟩)
    rw [List.getElem?_set_ne (Ne.symm hne), hother]
  · intro honly held hmem
    obtain ⟨other, hother⟩ := List.mem_iff_getElem?.mp hmem
    rw [List.getElem?_set] at hother
    by_cases heq : index = other
    · rw [if_pos heq, if_pos hindex] at hother
      exact Option.some.inj hother ▸ h
    · rw [if_neg heq] at hother
      by_contra hheld
      exact heq (honly other held hother hheld).symm

end Machine
