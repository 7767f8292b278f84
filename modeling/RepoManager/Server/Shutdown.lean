import RepoManager.Library.Transition

/-!
# Starting and stopping the process

`main` of `cmd/main.go` from its wait for a signal, the goroutine that runs `srv.Run`, and the
requests, in any interleaving. `Server.Shutdown` loads the field `httpServer` and then calls
`Shutdown` on what it loaded; `Server.Run` assigns the field and then listens.

The process ends when `main` returns, when the goroutine reports the error of `srv.Run` with
`logrus.Fatalf`, and with a panic when `Shutdown` is called on `nil`. `srv.Run` always returns an
error: once the server shuts down, this is `http.ErrServerClosed`.
-/

namespace RepoManager

namespace Process

/-- Where `main` is. -/
inductive MainStage where
  | waiting
  | signalled
  | loaded (assigned : Bool)
  | draining
  | done
  deriving DecidableEq

/-- Why `ListenAndServe` returned. -/
inductive RunError where
  | listen
  | serverClosed
  deriving DecidableEq

/-- Where the goroutine of `srv.Run` is. -/
inductive RunStage where
  | starting
  | assigned
  | serving
  | returned (err : RunError)
  deriving DecidableEq

/-- How the process ended. -/
inductive End where
  | exit (code : ℕ)
  | panic
  deriving DecidableEq

/-- The process: its two goroutines, the field `httpServer`, the server behind it, the number of
requests being served, and the end of the process. -/
structure State where
  main : MainStage
  runner : RunStage
  httpServer : Bool
  shuttingDown : Bool
  active : ℕ
  ended : Option End
  deriving DecidableEq

/-- What happens next. -/
inductive Label where
  | signal
  | main
  | runner
  | listenFails
  | accept
  | finish
  deriving DecidableEq

/-- A step of `main`; `Shutdown` returns when no request is active. -/
def mainStep (state : State) : Option State :=
  match state.main with
  | .waiting => none
  | .signalled => some { state with main := .loaded state.httpServer }
  | .loaded false => some { state with main := .done, ended := some .panic }
  | .loaded true => some { state with main := .draining, shuttingDown := true }
  | .draining =>
    if state.active = 0 then some { state with main := .done, ended := some (.exit 0) } else none
  | .done => none

/-- A step of the goroutine of `srv.Run`; every returned error is fatal. -/
def runnerStep (state : State) : Option State :=
  match state.runner with
  | .starting => some { state with runner := .assigned, httpServer := true }
  | .assigned =>
    if state.shuttingDown then some { state with runner := .returned .serverClosed }
    else some { state with runner := .serving }
  | .serving =>
    if state.shuttingDown then some { state with runner := .returned .serverClosed } else none
  | .returned _ => some { state with ended := some (.exit 1) }

/-- A step of the process, as long as it has not ended. -/
def step (state : State) (label : Label) : Option State :=
  if state.ended.isSome then none
  else
    match label with
    | .signal => if state.main = .waiting then some { state with main := .signalled } else some state
    | .main => mainStep state
    | .runner => runnerStep state
    | .listenFails =>
      if state.runner = .assigned then some { state with runner := .returned .listen } else none
    | .accept =>
      if state.runner = .serving ∧ ¬ state.shuttingDown then
        some { state with active := state.active + 1 }
      else none
    | .finish => if 0 < state.active then some { state with active := state.active - 1 } else none

/-- The process as a machine. -/
def machine : Machine State Label := ⟨step⟩

/-- `main` has just started the goroutine and waits on the quit channel. -/
def start : State where
  main := .waiting
  runner := .starting
  httpServer := false
  shuttingDown := false
  active := 0
  ended := none

/-- The process has not ended while a request is being served. -/
def Graceful (state : State) : Prop := state.ended ≠ none → state.active = 0

/-- The step in which `main` calls `Shutdown` is taken when no request is active. -/
def ShutdownIdle (state : State) (label : Label) : Prop :=
  ∀ assigned, state.main = .loaded assigned → label = .main → state.active = 0

/-- Requests are active only while the server serves. -/
def ActiveServing (state : State) : Prop :=
  state.active ≠ 0 →
    state.runner = .serving ∧ state.shuttingDown = false ∧ state.ended = none

/-- A process with requests only while it serves has not ended with one. -/
theorem ActiveServing.graceful {state : State} (h : ActiveServing state) : Graceful state := by
  intro hended
  by_contra hactive
  exact hended (h hactive).2.2

/-! ## Steps -/

section Steps

variable {state next : State}

/-- A step of `main` that does not call `Shutdown` on active requests. -/
theorem activeServing_mainStep (h : ActiveServing state)
    (hidle : ∀ assigned, state.main = .loaded assigned → state.active = 0)
    (hstep : mainStep state = some next) : ActiveServing next := by
  unfold mainStep at hstep
  split at hstep
  · exact nomatch hstep
  · obtain rfl := Option.some.inj hstep
    exact h
  · next hmain =>
    obtain rfl := Option.some.inj hstep
    exact fun hactive => absurd (hidle false hmain) hactive
  · next hmain =>
    obtain rfl := Option.some.inj hstep
    exact fun hactive => absurd (hidle true hmain) hactive
  · split at hstep
    · next hdrained =>
      obtain rfl := Option.some.inj hstep
      exact fun hactive => absurd hdrained hactive
    · exact nomatch hstep
  · exact nomatch hstep

/-- A step of the goroutine. -/
theorem activeServing_runnerStep (h : ActiveServing state) (hstep : runnerStep state = some next) :
    ActiveServing next := by
  -- outside of serving there is no active request
  have hidle : ∀ stage, state.runner = stage → stage ≠ .serving → state.active = 0 := by
    intro stage hstage hne
    by_contra hactive
    exact hne (hstage.symm.trans (h hactive).1)
  unfold runnerStep at hstep
  split at hstep
  · next hrunner =>
    obtain rfl := Option.some.inj hstep
    exact fun hactive => absurd (hidle _ hrunner nofun) hactive
  · next hrunner =>
    have hzero := hidle _ hrunner nofun
    split at hstep
    · obtain rfl := Option.some.inj hstep
      exact fun hactive => absurd hzero hactive
    · obtain rfl := Option.some.inj hstep
      exact fun hactive => absurd hzero hactive
  · split at hstep
    · next hshutting =>
      obtain rfl := Option.some.inj hstep
      intro hactive
      exact absurd (hshutting.symm.trans (h hactive).2.1) nofun
    · exact nomatch hstep
  · next hrunner =>
    obtain rfl := Option.some.inj hstep
    exact fun hactive => absurd (hidle _ hrunner nofun) hactive

/-- A step of the process that does not call `Shutdown` on active requests. -/
theorem activeServing_step {label : Label} (h : ActiveServing state)
    (hidle : ShutdownIdle state label) (hstep : step state label = some next) :
    ActiveServing next := by
  unfold step at hstep
  split at hstep
  · exact nomatch hstep
  · next hended =>
    have hrunning : state.ended = none := by simpa using hended
    cases label with
    | signal =>
      simp only at hstep
      split at hstep
      · obtain rfl := Option.some.inj hstep
        exact h
      · obtain rfl := Option.some.inj hstep
        exact h
    | main => exact activeServing_mainStep h (fun assigned hmain => hidle assigned hmain rfl) hstep
    | runner => exact activeServing_runnerStep h hstep
    | listenFails =>
      simp only at hstep
      split at hstep
      · next hassigned =>
        obtain rfl := Option.some.inj hstep
        intro hactive
        exact absurd (hassigned.symm.trans (h hactive).1) nofun
      · exact nomatch hstep
    | accept =>
      simp only at hstep
      split at hstep
      · next hserving =>
        obtain rfl := Option.some.inj hstep
        exact fun _ => ⟨hserving.1, by simpa using hserving.2, hrunning⟩
      · exact nomatch hstep
    | finish =>
      simp only at hstep
      split at hstep
      · next hpositive =>
        obtain rfl := Option.some.inj hstep
        exact fun _ => h (by omega)
      · exact nomatch hstep

/-- `main` has called `Shutdown`. -/
def MainStage.Called : MainStage → Prop
  | .waiting => False
  | .signalled => False
  | .loaded _ => False
  | .draining => True
  | .done => True

/-- The goroutine does not touch `main`. -/
theorem main_runnerStep (hstep : runnerStep state = some next) : next.main = state.main := by
  unfold runnerStep at hstep
  split at hstep
  · obtain rfl := Option.some.inj hstep
    rfl
  · split at hstep
    · obtain rfl := Option.some.inj hstep
      rfl
    · obtain rfl := Option.some.inj hstep
      rfl
  · split at hstep
    · obtain rfl := Option.some.inj hstep
      rfl
    · exact nomatch hstep
  · obtain rfl := Option.some.inj hstep
    rfl

/-- `main` calls `Shutdown` in the step after the load, and never goes back. -/
theorem called_mainStep (hcalled : state.main.Called ∨ ∃ assigned, state.main = .loaded assigned)
    (hstep : mainStep state = some next) : next.main.Called := by
  unfold mainStep at hstep
  split at hstep
  · exact nomatch hstep
  · next hmain =>
    rw [hmain] at hcalled
    rcases hcalled with hcalled | ⟨assigned, hloaded⟩
    · exact absurd hcalled id
    · exact nomatch hloaded
  · obtain rfl := Option.some.inj hstep
    exact trivial
  · obtain rfl := Option.some.inj hstep
    exact trivial
  · split at hstep
    · obtain rfl := Option.some.inj hstep
      exact trivial
    · exact nomatch hstep
  · exact nomatch hstep

/-- The call of `Shutdown` is never taken back. -/
theorem called_step {label : Label}
    (hcalled : state.main.Called ∨ (label = .main ∧ ∃ assigned, state.main = .loaded assigned))
    (hstep : step state label = some next) : next.main.Called := by
  unfold step at hstep
  split at hstep
  · exact nomatch hstep
  · by_cases hlabel : label = .main
    · subst hlabel
      exact called_mainStep (hcalled.imp_right And.right) hstep
    · have hstill := hcalled.resolve_right fun h => hlabel h.1
      cases label with
      | main => exact absurd rfl hlabel
      | runner => rwa [main_runnerStep hstep]
      | signal =>
        simp only at hstep
        split at hstep
        · next hwaiting =>
          rw [hwaiting] at hstill
          exact absurd hstill id
        · obtain rfl := Option.some.inj hstep
          exact hstill
      | listenFails =>
        simp only at hstep
        split at hstep
        · obtain rfl := Option.some.inj hstep
          exact hstill
        · exact nomatch hstep
      | accept =>
        simp only at hstep
        split at hstep
        · obtain rfl := Option.some.inj hstep
          exact hstill
        · exact nomatch hstep
      | finish =>
        simp only at hstep
        split at hstep
        · obtain rfl := Option.some.inj hstep
          exact hstill
        · exact nomatch hstep

end Steps

/-! ## Runs -/

/-- Before the call of `Shutdown`, requests are active only while the server serves. -/
theorem activeServing_of_run {labels : List Label} {state : State}
    (hrun : machine.run start labels = some state) (hcall : ¬ state.main.Called) :
    ActiveServing state := by
  refine machine.run_invariant (P := fun state => ¬ state.main.Called → ActiveServing state)
    ?_ ?_ hrun hcall
  · intro state label next hstate hstep hnext
    have hbefore : ¬ state.main.Called := fun hcalled => hnext (called_step (Or.inl hcalled) hstep)
    apply activeServing_step (hstate hbefore) _ hstep
    intro assigned hloaded hlabel
    exact absurd (called_step (Or.inr ⟨hlabel, assigned, hloaded⟩) hstep) hnext
  · exact fun _ hactive => absurd rfl hactive

/-- A call of `Shutdown` on active requests can end the process before they are served: with a
panic when `nil` was loaded, otherwise by the fatal error of the goroutine. -/
theorem not_graceful_of_call {state : State} {assigned : Bool} (h : ActiveServing state)
    (hloaded : state.main = .loaded assigned) (hactive : state.active ≠ 0) :
    ∃ labels last, machine.run state labels = some last ∧ ¬ Graceful last := by
  obtain ⟨hserving, hshutting, hended⟩ := h hactive
  obtain ⟨main, runner, httpServer, shuttingDown, active, ended⟩ := state
  simp only at hloaded hserving hshutting hended hactive
  subst hloaded hserving hshutting hended
  cases assigned with
  | false =>
    refine ⟨[.main], _, rfl, ?_⟩
    exact fun hgraceful => hactive (hgraceful (Option.some_ne_none _))
  | true =>
    refine ⟨[.main, .runner, .runner], _, rfl, ?_⟩
    exact fun hgraceful => hactive (hgraceful (Option.some_ne_none _))

/-- The process ends gracefully in every run that calls `Shutdown` when no request is active; from
every reached call of `Shutdown` on active requests, some continuation does not. -/
theorem graceful_along_idle (labels : List Label) (state : State)
    (hrun : machine.run start labels = some state) :
    (machine.Along ShutdownIdle start labels → Graceful state) ∧
    ∀ assigned, state.main = .loaded assigned → state.active ≠ 0 →
      ∃ more last, machine.run start (labels ++ more) = some last ∧ ¬ Graceful last := by
  refine ⟨?_, ?_⟩
  · intro halong
    apply ActiveServing.graceful
    refine machine.run_invariant_along ?_ ?_ hrun halong
    · intro before label next hbefore hidle hstep
      exact activeServing_step hbefore hidle hstep
    · exact fun hactive => absurd rfl hactive
  · intro assigned hloaded hactive
    have hcall : ¬ state.main.Called := by
      rw [hloaded]
      exact id
    obtain ⟨more, last, hmore, hlast⟩ :=
      not_graceful_of_call (activeServing_of_run hrun hcall) hloaded hactive
    refine ⟨more, last, ?_, hlast⟩
    rw [machine.run_append, hrun]
    exact hmore

/-- A run that serves a request, finishes it and is then stopped. -/
theorem graceful_after_finish :
    Graceful
      { main := .done
        runner := .serving
        httpServer := true
        shuttingDown := true
        active := 0
        ended := some (.exit 0) } := by
  refine (graceful_along_idle
    [.runner, .runner, .accept, .finish, .signal, .main, .main, .main] _ rfl).1 ?_
  simp [Machine.Along, ShutdownIdle, machine, step, mainStep, runnerStep, start]

/-- A signal during a request: the fatal error of the goroutine ends the process. -/
theorem not_graceful_during_request :
    ¬ ∀ labels state, machine.run start labels = some state → Graceful state := by
  intro hgraceful
  have hended := hgraceful
    [.runner, .runner, .accept, .signal, .main, .main, .runner, .runner]
    { main := .draining
      runner := .returned .serverClosed
      httpServer := true
      shuttingDown := true
      active := 1
      ended := some (.exit 1) } rfl
  exact absurd (hended (Option.some_ne_none _)) (by decide)

end Process

end RepoManager
