import Mathlib.Data.List.Basic

/-!
# Interleavings of threads over shared memory

A finite number of threads take turns. One step of a thread reads and writes the shared memory
and its own local state, or is not enabled. A schedule is the list of the threads that are given
a turn; the turn of a thread that is not enabled is lost, so every schedule is a run.

The one proof rule is the invariant rule: what every enabled step preserves holds after every
schedule.
-/

namespace Interleaving

variable {Shared Local : Type*}

/-- The shared memory and the local state of every thread. -/
structure System (Shared Local : Type*) where
  shared : Shared
  threads : List Local

/-- What a thread does, by its number: the new memory and local state, if it is enabled. -/
abbrev Step (Shared Local : Type*) := ℕ → Shared → Local → Option (Shared × Local)

variable (step : Step Shared Local)

/-- Give one thread a turn. -/
def turn (sys : System Shared Local) (thread : ℕ) : System Shared Local :=
  match sys.threads[thread]? with
  | none => sys
  | some held =>
    match step thread sys.shared held with
    | none => sys
    | some (shared, next) => ⟨shared, sys.threads.set thread next⟩

/-- Run a schedule. -/
def run (sys : System Shared Local) (schedule : List ℕ) : System Shared Local :=
  schedule.foldl (turn step) sys

/-- Turns taken after a schedule. -/
theorem run_append (sys : System Shared Local) (first second : List ℕ) :
    run step sys (first ++ second) = run step (run step sys first) second :=
  List.foldl_append ..

/-- What a turn can do: nothing, or one enabled step of its thread. -/
theorem turn_cases (sys : System Shared Local) (thread : ℕ) :
    turn step sys thread = sys ∨
      ∃ held shared next, sys.threads[thread]? = some held ∧
        step thread sys.shared held = some (shared, next) ∧
        turn step sys thread = ⟨shared, sys.threads.set thread next⟩ := by
  unfold turn
  split
  · exact Or.inl rfl
  · next held hheld =>
    split
    · exact Or.inl rfl
    · next shared next hnext => exact Or.inr ⟨held, shared, next, hheld, hnext, rfl⟩

/-- A property of systems is preserved when every enabled step preserves it. -/
def Preserved (P : System Shared Local → Prop) : Prop :=
  ∀ shared threads thread held shared' next, P ⟨shared, threads⟩ →
    threads[thread]? = some held → step thread shared held = some (shared', next) →
    P ⟨shared', threads.set thread next⟩

/-- A preserved property holds after every schedule. -/
theorem run_invariant {P : System Shared Local → Prop} (hstep : Preserved step P)
    {sys : System Shared Local} (hstart : P sys) (schedule : List ℕ) :
    P (run step sys schedule) := by
  induction schedule generalizing sys with
  | nil => exact hstart
  | cons thread rest ih =>
    apply ih
    rcases turn_cases step sys thread with hsame | ⟨held, shared, next, hheld, hnext, hturn⟩
    · rw [hsame]
      exact hstart
    · rw [hturn]
      exact hstep sys.shared sys.threads thread held shared next hstart hheld hnext

/-- A property that is preserved where another one holds, which is itself preserved. -/
theorem Preserved.and {P Q : System Shared Local → Prop} (hP : Preserved step P)
    (hQ : ∀ shared threads thread held shared' next, P ⟨shared, threads⟩ → Q ⟨shared, threads⟩ →
      threads[thread]? = some held → step thread shared held = some (shared', next) →
      Q ⟨shared', threads.set thread next⟩) :
    Preserved step fun sys => P sys ∧ Q sys := by
  intro shared threads thread held shared' next hboth hheld hnext
  refine ⟨?_, ?_⟩
  · exact hP shared threads thread held shared' next hboth.1 hheld hnext
  · exact hQ shared threads thread held shared' next hboth.1 hboth.2 hheld hnext

/-- After a step of one thread, that thread has its new local state and the others their old. -/
theorem getElem?_set_of_some {threads : List Local} {thread : ℕ} {held : Local}
    (h : threads[thread]? = some held) (next : Local) (other : ℕ) :
    (threads.set thread next)[other]? = if other = thread then some next else threads[other]? := by
  have hlength : thread < threads.length := (List.getElem?_eq_some_iff.mp h).1
  rw [List.getElem?_set]
  by_cases hother : other = thread
  · rw [if_pos hother.symm, if_pos hlength, if_pos hother]
  · rw [if_neg (Ne.symm hother), if_neg hother]

end Interleaving
