import CommonGo.Program.Fair
import CommonGo.Runner.Shutdown

/-!
# The goroutines that `run` leaves behind

`run` counts its goroutines in a `WaitGroup`, and a third goroutine closes `doneCh` when the count
is zero.  So `run` returns with the application ended unless it has said why not, and once there is
a reason to stop nothing that the application does or fails to do keeps it from returning: its own
steps and the deadline of the shutdown context are enough.
-/

namespace CommonGo.Runner

open Program

variable {ε : Type}

/-- What the goroutine counts for in the `WaitGroup`. -/
def Routine.pending : Routine ε → Nat
  | absent => 0
  | started => 1
  | running => 1
  | returned _ _ => 1
  | done _ _ => 0

/-- The goroutine has called the method. -/
def Routine.called : Routine ε → Bool
  | absent => false
  | started => false
  | _ => true

/-- The goroutine has ended. -/
def Routine.ended : Routine ε → Bool
  | done _ _ => true
  | _ => false

/-- The goroutines of the shutdown have been started. -/
def Main.stopped : Main ε → Bool
  | selecting => false
  | stopping _ => false
  | waiting _ => true
  | returned _ => true

/-- The step that calls `Stop`. -/
def Action.stops : Action ε → Bool
  | callStop => true
  | _ => false

/-- A step of `run` itself, or the deadline of the shutdown context. -/
def Action.unaided : Action ε → Bool
  | timeout => true
  | action => action.ofMain

theorem Routine.called_of_ended {routine : Routine ε} (ended : routine.ended = true) :
    routine.called = true := by
  cases routine with
  | done _ _ => rfl
  | _ => cases ended

namespace State

/-- The `WaitGroup`, the channels and the goroutines fit together. -/
structure Joined (state : State ε) : Prop where
  /-- The `WaitGroup` counts the goroutines that have not ended. -/
  counted : state.wg = state.run.pending + state.stop.pending
  /-- The goroutine of the application is there from the start. -/
  present : state.run ≠ .absent
  /-- The goroutine that calls `Stop` is there from the beginning of the shutdown on. -/
  stopping : state.main.stopped = false ↔ state.stop = .absent
  /-- `doneCh` is closed after the end of both goroutines. -/
  closed : state.doneCh = true → state.run.ended = true ∧ state.stop.ended = true
  /-- As long as nobody has read `errCh`, the result of `Run` is in it. -/
  offered : state.main = .selecting → state.errCh = state.run.result
  /-- An error of `Stop` comes from a call. -/
  failed : state.stopCh.isSome = true → state.stop.called = true

theorem joined_start : (start : State ε).Joined where
  counted := rfl
  present := by simp [start]
  stopping := ⟨fun _ => rfl, fun _ => rfl⟩
  closed := by simp [start]
  offered := fun _ => rfl
  failed := by simp [start]

/-- A goroutine that counts for nothing has ended, if it was started. -/
theorem ended_of_pending {routine : Routine ε} (present : routine ≠ .absent)
    (zero : routine.pending = 0) : routine.ended = true := by
  cases routine with
  | absent => exact absurd rfl present
  | started => cases zero
  | running => cases zero
  | returned _ _ => cases zero
  | done _ _ => rfl

section Groups

variable {state next : State ε}

/-- A step of the world around the goroutines. -/
theorem Joined.congr (joined : state.Joined) (run : next.run = state.run)
    (stop : next.stop = state.stop) (main : next.main = state.main) (wg : next.wg = state.wg)
    (errCh : next.errCh = state.errCh) (stopCh : next.stopCh = state.stopCh)
    (doneCh : next.doneCh = state.doneCh) : next.Joined := by
  constructor
  · rw [wg, run, stop]
    exact joined.counted
  · rw [run]
    exact joined.present
  · rw [main, stop]
    exact joined.stopping
  · rw [doneCh, run, stop]
    exact joined.closed
  · rw [main, errCh, run]
    exact joined.offered
  · rw [stopCh, stop]
    exact joined.failed

/-- `run` goes on to where it does not look at `errCh`, on the same side of the start of its
goroutines. -/
theorem Joined.select (joined : state.Joined) (run : next.run = state.run)
    (stop : next.stop = state.stop) (wg : next.wg = state.wg) (doneCh : next.doneCh = state.doneCh)
    (stopCh : next.stopCh.isSome = true → state.stopCh.isSome = true)
    (stopped : next.main.stopped = state.main.stopped) (elsewhere : next.main ≠ .selecting) :
    next.Joined := by
  constructor
  · rw [wg, run, stop]
    exact joined.counted
  · rw [run]
    exact joined.present
  · rw [stopped, stop]
    exact joined.stopping
  · rw [doneCh, run, stop]
    exact joined.closed
  · exact fun selecting => absurd selecting elsewhere
  · rw [stop]
    exact fun failed => joined.failed (stopCh failed)

/-- The goroutine of the application goes on, and has not ended before. -/
theorem Joined.run_moves (joined : state.Joined) {routine : Routine ε} {wg : Nat}
    {errCh : Option (Option (Error (Cause ε)))} (alive : state.run.ended = false)
    (present : routine ≠ .absent) (counted : wg = routine.pending + state.stop.pending)
    (offered : state.main = .selecting → errCh = routine.result) :
    Joined { state with run := routine, wg := wg, errCh := errCh } where
  counted := counted
  present := present
  stopping := joined.stopping
  closed done := by
    have ended := (joined.closed done).1
    rw [alive] at ended
    cases ended
  offered := offered
  failed := joined.failed

/-- The goroutine that calls `Stop` goes on, and has not ended before. -/
theorem Joined.stop_moves (joined : state.Joined) {routine : Routine ε} {wg : Nat}
    {stopCh : Option (Error (Cause ε))} (alive : state.stop.ended = false)
    (there : state.stop ≠ .absent) (present : routine ≠ .absent)
    (counted : wg = state.run.pending + routine.pending) (called : routine.called = true) :
    Joined { state with stop := routine, wg := wg, stopCh := stopCh } where
  counted := counted
  present := joined.present
  stopping :=
    ⟨fun early => absurd (joined.stopping.mp early) there, fun absent => absurd absent present⟩
  closed done := by
    have ended := (joined.closed done).2
    rw [alive] at ended
    cases ended
  offered := joined.offered
  failed _ := called

/-- The goroutine that calls `Stop` is started. -/
theorem Joined.shutdown (joined : state.Joined) {err : Option (Error (Cause ε))}
    (stopping : state.main = .stopping err) (shutdownCtx : Option ContextEnd) :
    Joined { state with
      main := .waiting err, stop := .started, wg := state.wg + 1
      shutdownCtx := shutdownCtx } := by
  have absent : state.stop = .absent := joined.stopping.mp (by rw [stopping]; rfl)
  have counted := joined.counted
  rw [absent] at counted
  refine ⟨?_, joined.present, by simp [Main.stopped], fun done => ?_, by simp, fun failed => ?_⟩
  · rw [counted]
    rfl
  · have ended := (joined.closed done).2
    rw [absent] at ended
    cases ended
  · have called := joined.failed failed
    rw [absent] at called
    cases called

/-- `wg.Wait` returns. -/
theorem Joined.all_done (joined : state.Joined) (present : state.stop ≠ .absent)
    (zero : state.wg = 0) : Joined { state with doneCh := true } where
  counted := joined.counted
  present := joined.present
  stopping := joined.stopping
  closed _ := by
    have counted := joined.counted
    have both : state.run.pending = 0 ∧ state.stop.pending = 0 := by omega
    exact ⟨ended_of_pending joined.present both.1, ended_of_pending present both.2⟩
  offered := joined.offered
  failed := joined.failed

end Groups

variable [DecidableEq ε] {setting : Setting ε} {state next : State ε} {action : Action ε}
  {actions : List (Action ε)}

theorem Joined.step (joined : state.Joined) (stepped : state.step setting action = some next) :
    next.Joined := by
  have counted := joined.counted
  cases step_effect stepped with
  | signal => exact joined.congr rfl rfl rfl rfl rfl rfl rfl
  | cancel reason shutdownCtx _ => exact joined.congr rfl rfl rfl rfl rfl rfl rfl
  | timeout _ _ => exact joined.congr rfl rfl rfl rfl rfl rfl rfl
  | callRun started =>
      rw [started] at counted
      refine joined.run_moves (by rw [started]; rfl) (by simp) counted fun selecting => ?_
      rw [joined.offered selecting, started]
      rfl
  | runReturns result running =>
      rw [running] at counted
      exact joined.run_moves (by rw [running]; rfl) (by simp) counted fun _ => rfl
  | runDone returned =>
      rw [returned] at counted
      refine joined.run_moves (by rw [returned]; rfl) (by simp) ?_ fun selecting => ?_
      · simp only [Routine.pending] at counted ⊢
        omega
      · rw [joined.offered selecting, returned]
        rfl
  | callStop started =>
      rw [started] at counted
      exact joined.stop_moves (by rw [started]; rfl) (by simp [started]) (by simp) counted rfl
  | stopReturns result running =>
      rw [running] at counted
      exact joined.stop_moves (by rw [running]; rfl) (by simp [running]) (by simp) counted rfl
  | stopDone returned =>
      rw [returned] at counted
      refine joined.stop_moves (by rw [returned]; rfl) (by simp [returned]) (by simp) ?_ rfl
      simp only [Routine.pending] at counted ⊢
      omega
  | allDone present zero => exact joined.all_done present zero
  | shutdown stopping => exact joined.shutdown stopping _
  | takeSignal selecting =>
      exact joined.select rfl rfl rfl rfl id (by rw [selecting]; rfl) (by simp)
  | takeResult selecting _ =>
      exact joined.select rfl rfl rfl rfl id (by rw [selecting]; rfl) (by simp)
  | takeStopError waiting _ =>
      exact joined.select rfl rfl rfl rfl (by simp) (by rw [waiting]; rfl) (by simp)
  | takeContext waiting _ =>
      exact joined.select rfl rfl rfl rfl id (by rw [waiting]; rfl) (by simp)
  | takeDone waiting _ =>
      exact joined.select rfl rfl rfl rfl id (by rw [waiting]; rfl) (by simp)

theorem joined_of_run (ran : runFrom (step setting) start actions = some state) : state.Joined :=
  runFrom_invariant Joined.step joined_start ran

/-! ## How `run` returns -/

/-- `run` returned because of an error of `Stop`. -/
def StopRefused (setting : Setting ε) (actions : List (Action ε)) : Prop :=
  ∃ middle, Takes (step setting) start actions middle .takeStopError

/-- A goroutine that has ended does not come back. -/
theorem ended_step (stepped : state.step setting action = some next) (joined : state.Joined) :
    (state.run.ended = true → next.run.ended = true) ∧
      (state.stop.ended = true → next.stop.ended = true) := by
  cases step_effect stepped with
  | callRun started => simp [started, Routine.ended]
  | runReturns result running => simp [running, Routine.ended]
  | runDone returned => simp [returned, Routine.ended]
  | callStop started => simp [started, Routine.ended]
  | stopReturns result running => simp [running, Routine.ended]
  | stopDone returned => simp [returned, Routine.ended]
  | shutdown stopping =>
      have absent : state.stop = .absent := joined.stopping.mp (by rw [stopping]; rfl)
      simp [absent, Routine.ended]
  | _ => exact ⟨id, id⟩

/-- `Stop` is called by one step, and at most once. -/
theorem called_step (stepped : state.step setting action = some next) (joined : state.Joined) :
    (if next.stop.called then 1 else 0) =
      (if state.stop.called then 1 else 0) + if action.stops then 1 else 0 := by
  cases step_effect stepped with
  | callStop started => simp [started, Routine.called, Action.stops]
  | stopReturns result running => simp [running, Routine.called, Action.stops]
  | stopDone returned => simp [returned, Routine.called, Action.stops]
  | shutdown stopping =>
      have absent : state.stop = .absent := joined.stopping.mp (by rw [stopping]; rfl)
      simp [absent, Routine.called, Action.stops]
  | _ => simp [Action.stops]

/-- How often `Stop` was called, and why `run` has returned. -/
structure Explained (setting : Setting ε) (actions : List (Action ε)) (state : State ε) :
    Prop where
  /-- The calls of `Stop` are those of its goroutine. -/
  calls : actions.countP Action.stops = if state.stop.called then 1 else 0
  /-- `run` returns for one of three reasons. -/
  reason : ∀ result, state.main = .returned result →
    Abandoned setting actions ∨ state.stop.called = true ∧
      (StopRefused setting actions ∨ state.run.ended = true ∧ state.stop.ended = true)

theorem explained_start : Explained setting [] (start : State ε) :=
  ⟨rfl, by simp [start]⟩

/-- A reason for which `run` has returned stays one. -/
theorem reason_step (ran : runFrom (step setting) start actions = some state)
    (stepped : state.step setting action = some next)
    (reason : Abandoned setting actions ∨ state.stop.called = true ∧
      (StopRefused setting actions ∨ state.run.ended = true ∧ state.stop.ended = true)) :
    Abandoned setting (actions ++ [action]) ∨ next.stop.called = true ∧
      (StopRefused setting (actions ++ [action]) ∨
        next.run.ended = true ∧ next.stop.ended = true) := by
  have joined := joined_of_run ran
  have longer : ∀ {middle taken}, Takes (State.step setting) start actions middle taken →
      Takes (State.step setting) start (actions ++ [action]) middle taken :=
    fun takes => takes.longer (List.prefix_append _ _)
  rcases reason with ⟨middle, takes⟩ | ⟨called, reason⟩
  · exact Or.inl ⟨middle, longer takes⟩
  · have still : next.stop.called = true := by
      have calls := called_step stepped joined
      rw [called] at calls
      by_contra uncalled
      rw [Bool.not_eq_true] at uncalled
      rw [uncalled, if_neg Bool.false_ne_true, if_pos rfl] at calls
      omega
    refine Or.inr ⟨still, ?_⟩
    rcases reason with ⟨middle, takes⟩ | ended
    · exact Or.inl ⟨middle, longer takes⟩
    · have kept := ended_step stepped joined
      exact Or.inr ⟨kept.1 ended.1, kept.2 ended.2⟩

theorem Explained.step (ran : runFrom (step setting) start actions = some state)
    (explained : Explained setting actions state)
    (stepped : state.step setting action = some next) :
    Explained setting (actions ++ [action]) next := by
  have joined := joined_of_run ran
  refine ⟨?_, fun result returned => ?_⟩
  · rw [List.countP_append, List.countP_singleton, explained.calls, called_step stepped joined]
  cases step_effect stepped with
  | takeSignal selecting => cases returned
  | takeResult selecting received => cases returned
  | shutdown stopping => cases returned
  | takeStopError waiting failed =>
      exact Or.inr ⟨joined.failed (by rw [failed]; rfl), Or.inl ⟨state, takes_last ran⟩⟩
  | takeContext waiting ended => exact Or.inl ⟨state, takes_last ran⟩
  | takeDone waiting closed =>
      have ended := joined.closed closed
      exact Or.inr ⟨Routine.called_of_ended ended.2, Or.inr ended⟩
  | _ => exact reason_step ran stepped (explained.reason result returned)

/-- When `run` has returned, `Stop` was called at most once.  Unless the second `select` took the
end of the shutdown context it was called, and both goroutines have ended or `Stop` returned an
error. -/
theorem returned_joined {result : Option (Error (Cause ε))}
    (ran : runFrom (step setting) start actions = some state)
    (returned : state.main = .returned result) :
    actions.countP Action.stops ≤ 1 ∧
      (Abandoned setting actions ∨ actions.countP Action.stops = 1 ∧
        (StopRefused setting actions ∨ state.run.ended = true ∧ state.stop.ended = true)) := by
  have explained : Explained setting actions state :=
    @runFrom_history _ _ (step setting) start state actions
      (fun actions state => Explained setting actions state) Explained.step explained_start ran
  rw [explained.calls]
  refine ⟨by split <;> omega, ?_⟩
  rcases explained.reason result returned with abandoned | ⟨called, reason⟩
  · exact Or.inl abandoned
  · exact Or.inr ⟨by rw [called]; rfl, reason⟩

/-- A signal comes, and the application ends as it should. -/
private def joinsAfterSignal : List (Action Unit) :=
  [.signal, .callRun, .takeSignal, .shutdown, .callStop, .stopReturns none, .runReturns none,
    .runDone, .stopDone, .allDone, .takeDone]

theorem returned_joined_after_signal :
    ∃ state : State Unit, runFrom (step plain) start joinsAfterSignal = some state ∧
      state.main = .returned none ∧
      (Abandoned plain joinsAfterSignal ∨ joinsAfterSignal.countP Action.stops = 1 ∧
        (StopRefused plain joinsAfterSignal ∨
          state.run.ended = true ∧ state.stop.ended = true)) := by
  have ran : runFrom (step plain) start joinsAfterSignal = some _ := rfl
  exact ⟨_, ran, rfl, (returned_joined ran rfl).2⟩

/-! ## Nothing keeps `run` from returning -/

omit [DecidableEq ε] in
/-- There is a reason to stop: a signal has come, `Run` has returned or `run` has seen either. -/
def Woken (state : State ε) : Prop :=
  state.signaled = true ∨ state.run.result.isSome = true ∨ state.main ≠ .selecting

omit [DecidableEq ε] in
/-- How many steps of `run` and deadlines are to come at most. -/
def distance (state : State ε) : Nat :=
  (match state.main with
    | .selecting => 3
    | .stopping _ => 2
    | .waiting _ => 1
    | .returned _ => 0) + if state.shutdownCtx.isSome then 0 else 1

omit [DecidableEq ε] in
theorem distance_le (state : State ε) : state.distance ≤ 4 := by
  unfold distance
  cases state.main <;> cases state.shutdownCtx <;> simp

/-- What holds from the moment on at which there is a reason to stop. -/
structure Ready (state : State ε) : Prop where
  /-- The goroutines and channels fit together. -/
  joined : state.Joined
  /-- There is a reason to stop. -/
  woken : state.Woken
  /-- A shutdown context is done after the shutdown has begun. -/
  fresh : state.stop = .absent → state.shutdownCtx = none

theorem Woken.step (woken : state.Woken) (stepped : state.step setting action = some next) :
    next.Woken := by
  cases step_effect stepped with
  | signal => exact Or.inl rfl
  | callRun started =>
      rcases woken with signaled | result | elsewhere
      · exact Or.inl signaled
      · rw [started] at result
        cases result
      · exact Or.inr (Or.inr elsewhere)
  | runReturns result running => exact Or.inr (Or.inl rfl)
  | runDone returned => exact Or.inr (Or.inl rfl)
  | takeSignal _ => exact Or.inr (Or.inr (by simp))
  | takeResult _ _ => exact Or.inr (Or.inr (by simp))
  | shutdown _ => exact Or.inr (Or.inr (by simp))
  | takeStopError _ _ => exact Or.inr (Or.inr (by simp))
  | takeContext _ _ => exact Or.inr (Or.inr (by simp))
  | takeDone _ _ => exact Or.inr (Or.inr (by simp))
  | _ => exact woken

theorem fresh_step (fresh : state.stop = .absent → state.shutdownCtx = none)
    (stepped : state.step setting action = some next) :
    next.stop = .absent → next.shutdownCtx = none := by
  cases step_effect stepped with
  | cancel reason shutdownCtx kept =>
      intro absent
      exact (kept (Or.inl absent)).trans (fresh absent)
  | timeout present _ => exact fun absent => absurd absent present
  | callStop _ => simp
  | stopReturns _ _ => simp
  | stopDone _ => simp
  | shutdown _ => simp
  | _ => exact fresh

theorem Ready.step (ready : state.Ready) (stepped : state.step setting action = some next) :
    next.Ready :=
  ⟨ready.joined.step stepped, ready.woken.step stepped, fresh_step ready.fresh stepped⟩

/-- Steps of `run` and the deadline bring it nearer to its return, and others do not take it
away. -/
theorem Ready.distance_step (ready : state.Ready)
    (stepped : state.step setting action = some next) :
    next.distance + (if action.unaided then 1 else 0) ≤ state.distance := by
  cases step_effect stepped with
  | cancel reason shutdownCtx kept =>
      cases before : state.shutdownCtx with
      | none => cases shutdownCtx <;> simp [distance, before, Action.unaided, Action.ofMain]
      | some earlier =>
          have same := kept (Or.inr (by rw [before]; rfl))
          simp [distance, same, before, Action.unaided, Action.ofMain]
  | timeout _ alive => simp [distance, alive, Action.unaided]
  | takeSignal selecting => simp +arith [distance, selecting, Action.unaided, Action.ofMain]
  | takeResult selecting _ => simp +arith [distance, selecting, Action.unaided, Action.ofMain]
  | shutdown stopping =>
      have absent : state.stop = .absent := ready.joined.stopping.mp (by rw [stopping]; rfl)
      have alive := ready.fresh absent
      cases state.ctx <;> simp [distance, stopping, alive, Action.unaided, Action.ofMain]
  | takeStopError waiting _ => simp +arith [distance, waiting, Action.unaided, Action.ofMain]
  | takeContext waiting _ => simp +arith [distance, waiting, Action.unaided, Action.ofMain]
  | takeDone waiting _ => simp +arith [distance, waiting, Action.unaided, Action.ofMain]
  | _ => exact Nat.le_refl _

/-- Until `run` has returned, a step of its own or the deadline is possible. -/
theorem Ready.enabled (ready : state.Ready)
    (unreturned : ¬ ∃ result, state.main = .returned result) :
    Enabled (State.step setting) Action.unaided state := by
  cases main : state.main with
  | selecting =>
      cases signaled : state.signaled with
      | true => exact ⟨.takeSignal, rfl, by simp [State.step, main, signaled]⟩
      | false =>
          have result : state.errCh.isSome = true := by
            rw [ready.joined.offered main]
            rcases ready.woken with signal | result | elsewhere
            · rw [signaled] at signal
              cases signal
            · exact result
            · exact absurd main elsewhere
          obtain ⟨err, received⟩ := Option.isSome_iff_exists.mp result
          exact ⟨.takeResult, rfl, by simp [State.step, main, received]⟩
  | stopping err => exact ⟨.shutdown, rfl, by simp [State.step, main]⟩
  | waiting err =>
      cases ended : state.shutdownCtx with
      | some reason => exact ⟨.takeContext, rfl, by simp [State.step, main, ended]⟩
      | none =>
          have present : state.stop ≠ .absent := fun absent => by
            have early := ready.joined.stopping.mpr absent
            rw [main] at early
            cases early
          refine ⟨.timeout, rfl, ?_⟩
          cases stop : state.stop with
          | absent => exact absurd stop present
          | _ => simp [State.step, stop, ended]
  | returned result => exact absurd ⟨result, main⟩ unreturned

theorem fresh_of_run (ran : runFrom (step setting) start actions = some state) :
    state.stop = .absent → state.shutdownCtx = none :=
  @runFrom_invariant _ _ (step setting) start state actions
    (fun state => state.stop = .absent → state.shutdownCtx = none) fresh_step (fun _ => rfl) ran

/-- From every state in which there is a reason to stop, `run` returns in every run in which its own
steps and the deadline of the shutdown context are not put off forever, whatever the application
and the world do in between.  It takes at most four of these steps. -/
theorem returns_of_woken (run : Endless (step setting))
    (reached : runFrom (step setting) start actions = some (run.state 0))
    (woken : (run.state 0).Woken) (fair : run.Fair Action.unaided) :
    ∃ moment result, (run.state moment).main = .returned result ∧
      run.count Action.unaided moment ≤ 4 := by
  have ready : (run.state 0).Ready := ⟨joined_of_run reached, woken, fresh_of_run reached⟩
  have others : ∀ {state action next}, Ready state → State.step setting state action = some next →
      next.distance ≤ state.distance := by
    intro state action next ready stepped
    have nearer := ready.distance_step stepped
    omega
  have lowers : ∀ {state action next}, Ready state → State.step setting state action = some next →
      action.unaided = true → next.distance < state.distance := by
    intro state action next ready stepped unaided
    have nearer := ready.distance_step stepped
    rw [unaided, if_pos rfl] at nearer
    omega
  obtain ⟨moment, result, returned⟩ :=
    run.eventually Ready.step others lowers ready fair Ready.enabled
  have count := run.count_add_measure_le Ready.step others lowers ready moment
  have bound := (run.state 0).distance_le
  exact ⟨moment, result, returned, by omega⟩

/-- A signal has come, and the application does not react to it. -/
private def awake : State Unit := { start with run := .running, signaled := true }

/-- Another signal comes while `run` is on its way to the deadline. -/
private def ignored : Nat → Option (Action Unit)
  | 0 => some .takeSignal
  | 1 => some .signal
  | 2 => some .shutdown
  | 3 => some .timeout
  | 4 => some .takeContext
  | _ => none

private def ignoring : Nat → State Unit
  | 0 => awake
  | moment + 1 =>
      ((ignored moment).elim (some (ignoring moment)) (step plain (ignoring moment))).getD
        (ignoring moment)

private def hanging : Endless (step plain) where
  state := ignoring
  taken := ignored
  moves moment := by
    rcases moment with _ | _ | _ | _ | _ | _
    all_goals rfl

private theorem ignoring_rest (moment : Nat) : ignoring (moment + 5) = ignoring 5 := by
  induction moment with
  | zero => rfl
  | succ moment ih => exact ih

private theorem fair_hanging : hanging.Fair Action.unaided := by
  intro moment always
  obtain ⟨action, unaided, possible⟩ := always (moment + 5) (by omega)
  rw [show hanging.state (moment + 5) = ignoring 5 from ignoring_rest moment] at possible
  cases action with
  | takeSignal => cases possible
  | takeResult => cases possible
  | shutdown => cases possible
  | timeout => cases possible
  | takeStopError => cases possible
  | takeContext => cases possible
  | takeDone => cases possible
  | _ => cases unaided

/-- The application does not react to a signal, and `run` returns all the same. -/
theorem returns_of_woken_hanging :
    (∀ moment, (hanging.state moment).run = .running) ∧
      ∃ moment result, (hanging.state moment).main = .returned result ∧
        hanging.count Action.unaided moment ≤ 4 := by
  have reached : runFrom (step plain) start [.callRun, .signal] = some (hanging.state 0) := rfl
  refine ⟨fun moment => ?_, returns_of_woken hanging reached (Or.inl rfl) fair_hanging⟩
  rcases moment with _ | _ | _ | _ | _ | moment
  all_goals first | rfl | exact congrArg State.run (ignoring_rest moment)

end State

end CommonGo.Runner
