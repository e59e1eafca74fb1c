import CommonGo.CtxErrors
import CommonGo.Program.Run

/-!
# Running an application and shutting it down

`appRunner.run` starts the application in a goroutine and waits for a signal or for its result.  It
then starts a second goroutine that calls `Stop`, and waits for an error of `Stop`, for the end of
both goroutines or for the shutdown context, whichever it sees first.  The goroutines, the channels
between them and the choices of both `select` statements are the steps of a transition system.
-/

namespace CommonGo.Runner

open Program

variable {ε : Type}

/-! ## The system -/

/-- Errors that the runner knows by name, and others. -/
inductive Cause (ε : Type) where
  | shutdownTimeout
  | canceled
  | deadlineExceeded
  | other (err : ε)
  deriving DecidableEq, Repr

/-- How a context came to its end. -/
inductive ContextEnd where
  | canceled
  | deadlineExceeded
  deriving DecidableEq, Repr

/-- `ctx.Err()` for a context that is done. -/
def ContextEnd.err : ContextEnd → Error (Cause ε)
  | canceled => .base .canceled
  | deadlineExceeded => .base .deadlineExceeded

/-- What the program around the runner decides about errors. -/
structure Setting (ε : Type) where
  /-- `err.Error()`. -/
  text : Error (Cause ε) → String
  /-- What `errors.Is` finds in errors from elsewhere. -/
  finds : Finds (Cause ε)
  /-- The registered translations of errors. -/
  map : ErrorMap (Cause ε)

/-- A goroutine that calls a method of the application: what the method returned, and whether it
returned before the shutdown context had reached its deadline. -/
inductive Routine (ε : Type) where
  | absent
  /-- The goroutine has not come to the call yet. -/
  | started
  | running
  | returned (result : Option (Error (Cause ε))) (inTime : Bool)
  /-- The goroutine has called `wg.Done`. -/
  | done (result : Option (Error (Cause ε))) (inTime : Bool)

namespace Routine

/-- What the method returned. -/
def result : Routine ε → Option (Option (Error (Cause ε)))
  | returned result _ => some result
  | done result _ => some result
  | _ => none

/-- The method returned in time. -/
def inTime : Routine ε → Bool
  | returned _ inTime => inTime
  | done _ inTime => inTime
  | _ => false

end Routine

/-- Where `run` is. -/
inductive Main (ε : Type) where
  /-- In the `select` of `waitForShutdown`. -/
  | selecting
  /-- At the beginning of `performGracefulShutdown`. -/
  | stopping (shutdownErr : Option (Error (Cause ε)))
  /-- In the `select` of `performGracefulShutdown`. -/
  | waiting (shutdownErr : Option (Error (Cause ε)))
  | returned (result : Option (Error (Cause ε)))

/-- The goroutines of a call of `run`, their channels and contexts. -/
structure State (ε : Type) where
  /-- A signal is in `sigCh`. -/
  signaled : Bool
  /-- The result of `Run` that is in `errCh`. -/
  errCh : Option (Option (Error (Cause ε)))
  /-- The error of `Stop` that is in the second `errCh`. -/
  stopCh : Option (Error (Cause ε))
  /-- `doneCh` is closed. -/
  doneCh : Bool
  /-- The count of the `WaitGroup`. -/
  wg : Nat
  /-- How the context of `run` came to its end. -/
  ctx : Option ContextEnd
  /-- How the shutdown context came to its end. -/
  shutdownCtx : Option ContextEnd
  /-- The goroutine that calls `Run`. -/
  run : Routine ε
  /-- The goroutine that calls `Stop`. -/
  stop : Routine ε
  /-- The goroutine of `run` itself. -/
  main : Main ε

/-- A step of one of the goroutines or of the world around them. -/
inductive Action (ε : Type) where
  | signal
  | cancel (reason : ContextEnd)
  /-- The goroutine of the application calls `Run`. -/
  | callRun
  /-- `Run` returns, and its result goes to `errCh`. -/
  | runReturns (result : Option (Error (Cause ε)))
  /-- `close(errCh)` and `wg.Done`. -/
  | runDone
  | takeSignal
  | takeResult
  /-- `performGracefulShutdown` as far as its `select`; its goroutines are started. -/
  | shutdown
  /-- The goroutine of the shutdown calls `Stop`. -/
  | callStop
  /-- `Stop` returns, and its error goes to the second `errCh`. -/
  | stopReturns (result : Option (Error (Cause ε)))
  | stopDone
  /-- The shutdown timeout is over. -/
  | timeout
  /-- `wg.Wait` returns, and `doneCh` is closed. -/
  | allDone
  | takeStopError
  | takeContext
  | takeDone

/-- The step is one of `run` itself, as opposed to the goroutines and the world around it. -/
def Action.ofMain : Action ε → Bool
  | takeSignal => true
  | takeResult => true
  | shutdown => true
  | takeStopError => true
  | takeContext => true
  | takeDone => true
  | _ => false

section Wrap

variable [DecidableEq ε]

/-- `ctxerrors.Wrap` in this setting. -/
def Setting.wrap (setting : Setting ε) (err : Option (Error (Cause ε))) (message : String) :
    Option (Error (Cause ε)) :=
  wrapTranslated setting.finds setting.map err message

/-- What `performGracefulShutdown` returns when the shutdown context is done. -/
def giveUp (setting : Setting ε) (shutdownErr : Option (Error (Cause ε))) :
    ContextEnd → Option (Error (Cause ε))
  | .deadlineExceeded => some (.base .shutdownTimeout)
  | .canceled =>
      if shutdownErr.isSome then setting.wrap shutdownErr (setting.text (ContextEnd.err .canceled))
      else setting.wrap (some (ContextEnd.err .canceled)) "shutdown error"

end Wrap

namespace State

/-- The goroutine of the application has been started. -/
def start : State ε :=
  { signaled := false, errCh := none, stopCh := none, doneCh := false, wg := 1
    ctx := none, shutdownCtx := none, run := .started, stop := .absent, main := .selecting }

/-- The shutdown context has not reached its deadline. -/
def inTime (state : State ε) : Bool := state.shutdownCtx != some .deadlineExceeded

variable [DecidableEq ε]

/-- One step; `none` if it cannot happen. -/
def step (setting : Setting ε) (state : State ε) : Action ε → Option (State ε)
  | .signal => some { state with signaled := true }
  | .cancel reason =>
      match state.ctx, state.stop with
      | none, .absent => some { state with ctx := some reason }
      | none, _ => some { state with
          ctx := some reason, shutdownCtx := state.shutdownCtx.or (some reason) }
      | some _, _ => none
  | .callRun =>
      match state.run with
      | .started => some { state with run := .running }
      | _ => none
  | .runReturns result =>
      match state.run with
      | .running => some { state with run := .returned result state.inTime, errCh := some result }
      | _ => none
  | .runDone =>
      match state.run with
      | .returned result inTime =>
          some { state with run := .done result inTime, wg := state.wg - 1 }
      | _ => none
  | .takeSignal =>
      match state.main, state.signaled with
      | .selecting, true => some { state with main := .stopping none, signaled := false }
      | _, _ => none
  | .takeResult =>
      match state.main, state.errCh with
      | .selecting, some err => some { state with main := .stopping err, errCh := none }
      | _, _ => none
  | .shutdown =>
      match state.main with
      | .stopping shutdownErr => some { state with
          main := .waiting shutdownErr, stop := .started, wg := state.wg + 1
          shutdownCtx := state.ctx }
      | _ => none
  | .callStop =>
      match state.stop with
      | .started => some { state with stop := .running }
      | _ => none
  | .stopReturns result =>
      match state.stop with
      | .running => some { state with stop := .returned result state.inTime, stopCh := result }
      | _ => none
  | .stopDone =>
      match state.stop with
      | .returned result inTime =>
          some { state with stop := .done result inTime, wg := state.wg - 1 }
      | _ => none
  | .timeout =>
      match state.stop, state.shutdownCtx with
      | .absent, _ => none
      | _, none => some { state with shutdownCtx := some .deadlineExceeded }
      | _, some _ => none
  | .allDone =>
      match state.stop with
      | .absent => none
      | _ => if state.wg = 0 then some { state with doneCh := true } else none
  | .takeStopError =>
      match state.main, state.stopCh with
      | .waiting shutdownErr, some err => some { state with
          main := .returned (setting.wrap shutdownErr (setting.text err)), stopCh := none }
      | _, _ => none
  | .takeContext =>
      match state.main, state.shutdownCtx with
      | .waiting shutdownErr, some reason =>
          some { state with main := .returned (giveUp setting shutdownErr reason) }
      | _, _ => none
  | .takeDone =>
      match state.main, state.doneCh with
      | .waiting shutdownErr, true => some { state with main := .returned shutdownErr }
      | _, _ => none

/-! ## What a step does -/

variable {setting : Setting ε} {state next : State ε} {action : Action ε}

/-- All that a step can do, with what has to hold before it. -/
inductive Effect (setting : Setting ε) (state : State ε) : Action ε → State ε → Prop where
  | signal : Effect setting state .signal { state with signaled := true }
  /-- The end of the context is the end of a shutdown context that is there and still alive. -/
  | cancel (reason : ContextEnd) (shutdownCtx : Option ContextEnd)
      (kept : state.stop = .absent ∨ state.shutdownCtx.isSome = true →
        shutdownCtx = state.shutdownCtx) :
      Effect setting state (.cancel reason)
        { state with ctx := some reason, shutdownCtx := shutdownCtx }
  | timeout (present : state.stop ≠ .absent) (alive : state.shutdownCtx = none) :
      Effect setting state .timeout { state with shutdownCtx := some .deadlineExceeded }
  | callRun (started : state.run = .started) :
      Effect setting state .callRun { state with run := .running }
  | runReturns (result : Option (Error (Cause ε))) (running : state.run = .running) :
      Effect setting state (.runReturns result)
        { state with run := .returned result state.inTime, errCh := some result }
  | runDone {result : Option (Error (Cause ε))} {inTime : Bool}
      (returned : state.run = .returned result inTime) :
      Effect setting state .runDone { state with run := .done result inTime, wg := state.wg - 1 }
  | takeSignal (selecting : state.main = .selecting) :
      Effect setting state .takeSignal { state with main := .stopping none, signaled := false }
  | takeResult {err : Option (Error (Cause ε))} (selecting : state.main = .selecting)
      (received : state.errCh = some err) :
      Effect setting state .takeResult { state with main := .stopping err, errCh := none }
  | shutdown {err : Option (Error (Cause ε))} (stopping : state.main = .stopping err) :
      Effect setting state .shutdown
        { state with
          main := .waiting err, stop := .started, wg := state.wg + 1, shutdownCtx := state.ctx }
  | callStop (started : state.stop = .started) :
      Effect setting state .callStop { state with stop := .running }
  | stopReturns (result : Option (Error (Cause ε))) (running : state.stop = .running) :
      Effect setting state (.stopReturns result)
        { state with stop := .returned result state.inTime, stopCh := result }
  | stopDone {result : Option (Error (Cause ε))} {inTime : Bool}
      (returned : state.stop = .returned result inTime) :
      Effect setting state .stopDone { state with stop := .done result inTime, wg := state.wg - 1 }
  | allDone (present : state.stop ≠ .absent) (zero : state.wg = 0) :
      Effect setting state .allDone { state with doneCh := true }
  | takeStopError {shutdownErr : Option (Error (Cause ε))} {err : Error (Cause ε)}
      (waiting : state.main = .waiting shutdownErr) (failed : state.stopCh = some err) :
      Effect setting state .takeStopError
        { state with
          main := .returned (setting.wrap shutdownErr (setting.text err)), stopCh := none }
  | takeContext {shutdownErr : Option (Error (Cause ε))} {reason : ContextEnd}
      (waiting : state.main = .waiting shutdownErr) (ended : state.shutdownCtx = some reason) :
      Effect setting state .takeContext
        { state with main := .returned (giveUp setting shutdownErr reason) }
  | takeDone {err : Option (Error (Cause ε))} (waiting : state.main = .waiting err)
      (closed : state.doneCh = true) :
      Effect setting state .takeDone { state with main := .returned err }

theorem step_effect (stepped : state.step setting action = some next) :
    Effect setting state action next := by
  cases action with
  | signal =>
      cases stepped
      exact .signal
  | cancel reason =>
      simp only [step] at stepped
      split at stepped
      · cases stepped
        exact .cancel reason _ fun _ => rfl
      · rename_i present
        cases stepped
        refine .cancel reason _ fun kept => ?_
        obtain ⟨earlier, same⟩ := Option.isSome_iff_exists.mp (kept.resolve_left present)
        rw [same]
        rfl
      · cases stepped
  | timeout =>
      simp only [step] at stepped
      split at stepped
      · cases stepped
      · rename_i alive present
        cases stepped
        exact .timeout present alive
      · cases stepped
  | allDone =>
      simp only [step] at stepped
      split at stepped
      · cases stepped
      · rename_i present
        split at stepped
        · rename_i zero
          cases stepped
          exact .allDone present zero
        · cases stepped
  | _ =>
      -- One branch of each other step is possible, under the conditions of its match.
      simp only [step] at stepped
      split at stepped
      all_goals cases stepped
      constructor <;> assumption

/-- All that a step can do to `run` itself. -/
theorem step_main (stepped : state.step setting action = some next) :
    (action = .takeSignal ∧ state.main = .selecting ∧ next.main = .stopping none) ∨
    (∃ err, action = .takeResult ∧ state.main = .selecting ∧ state.errCh = some err ∧
      next.main = .stopping err) ∨
    (∃ err, action = .shutdown ∧ state.main = .stopping err ∧ next.main = .waiting err) ∨
    (∃ shutdownErr err, action = .takeStopError ∧ state.main = .waiting shutdownErr ∧
      state.stopCh = some err ∧
      next.main = .returned (setting.wrap shutdownErr (setting.text err))) ∨
    (∃ shutdownErr reason, action = .takeContext ∧ state.main = .waiting shutdownErr ∧
      state.shutdownCtx = some reason ∧
      next.main = .returned (giveUp setting shutdownErr reason)) ∨
    (∃ err, action = .takeDone ∧ state.main = .waiting err ∧ next.main = .returned err) ∨
    (action.ofMain = false ∧ next.main = state.main) := by
  cases step_effect stepped with
  | takeSignal selecting => exact Or.inl ⟨rfl, selecting, rfl⟩
  | takeResult selecting received => exact Or.inr (Or.inl ⟨_, rfl, selecting, received, rfl⟩)
  | shutdown stopping => exact Or.inr (Or.inr (Or.inl ⟨_, rfl, stopping, rfl⟩))
  | takeStopError waiting failed =>
      exact Or.inr (Or.inr (Or.inr (Or.inl ⟨_, _, rfl, waiting, failed, rfl⟩)))
  | takeContext waiting ended =>
      exact Or.inr (Or.inr (Or.inr (Or.inr (Or.inl ⟨_, _, rfl, waiting, ended, rfl⟩))))
  | takeDone waiting _ =>
      exact Or.inr (Or.inr (Or.inr (Or.inr (Or.inr (Or.inl ⟨_, rfl, waiting, rfl⟩)))))
  | _ => exact Or.inr (Or.inr (Or.inr (Or.inr (Or.inr (Or.inr ⟨rfl, rfl⟩)))))

/-! ## An error of `Stop` -/

/-- The first `select` takes an error of `Run`. -/
def Received (setting : Setting ε) (actions : List (Action ε)) : Prop :=
  ∃ middle err, Takes (step setting) start actions middle .takeResult ∧
    middle.errCh = some (some err)

/-- The second `select` takes the end of the shutdown context. -/
def Abandoned (setting : Setting ε) (actions : List (Action ε)) : Prop :=
  ∃ middle, Takes (step setting) start actions middle .takeContext

variable {actions : List (Action ε)}

theorem received_snoc (ran : runFrom (step setting) start actions = some state) :
    Received setting (actions ++ [action]) ↔
      Received setting actions ∨ action = .takeResult ∧ ∃ err, state.errCh = some (some err) := by
  constructor
  · rintro ⟨middle, err, takes, received⟩
    rcases takes_snoc.mp takes with earlier | ⟨rfl, here⟩
    · exact Or.inl ⟨middle, err, earlier, received⟩
    · rw [ran] at here
      cases here
      exact Or.inr ⟨rfl, err, received⟩
  · rintro (⟨middle, err, takes, received⟩ | ⟨rfl, err, received⟩)
    · exact ⟨middle, err, takes_snoc.mpr (Or.inl takes), received⟩
    · exact ⟨state, err, takes_last ran, received⟩

theorem abandoned_snoc (ran : runFrom (step setting) start actions = some state) :
    Abandoned setting (actions ++ [action]) ↔
      Abandoned setting actions ∨ action = .takeContext := by
  constructor
  · rintro ⟨middle, takes⟩
    rcases takes_snoc.mp takes with earlier | ⟨rfl, _⟩
    · exact Or.inl ⟨middle, earlier⟩
    · exact Or.inr rfl
  · rintro (⟨middle, takes⟩ | rfl)
    · exact ⟨middle, takes_snoc.mpr (Or.inl takes)⟩
    · exact ⟨state, takes_last ran⟩

/-- What `run` knows of an error is what the first `select` took, and it returns an error exactly
if it knows of one or gave up. -/
def Knows (setting : Setting ε) (actions : List (Action ε)) : Main ε → Prop
  | .selecting => ¬ Received setting actions ∧ ¬ Abandoned setting actions
  | .stopping err => (err.isSome ↔ Received setting actions) ∧ ¬ Abandoned setting actions
  | .waiting err => (err.isSome ↔ Received setting actions) ∧ ¬ Abandoned setting actions
  | .returned result => result.isSome ↔ Received setting actions ∨ Abandoned setting actions

theorem isSome_giveUp (shutdownErr : Option (Error (Cause ε))) (reason : ContextEnd) :
    (giveUp setting shutdownErr reason).isSome := by
  cases reason with
  | deadlineExceeded => rfl
  | canceled => cases shutdownErr <;> rfl

theorem knows_start : Knows setting [] (start : State ε).main := by
  constructor
  · rintro ⟨_, _, takes, _⟩
    exact takes_nil takes
  · rintro ⟨_, takes⟩
    exact takes_nil takes

theorem Knows.step (ran : runFrom (step setting) start actions = some state)
    (knows : Knows setting actions state.main) (stepped : state.step setting action = some next) :
    Knows setting (actions ++ [action]) next.main := by
  have received := @received_snoc _ _ _ _ action _ ran
  have abandoned := @abandoned_snoc _ _ _ _ action _ ran
  rcases step_main stepped with ⟨rfl, before, after⟩ | ⟨err, rfl, before, channel, after⟩ |
    ⟨err, rfl, before, after⟩ | ⟨shutdownErr, err, rfl, before, channel, after⟩ |
    ⟨shutdownErr, reason, rfl, before, ended, after⟩ | ⟨err, rfl, before, after⟩ |
    ⟨passive, same⟩
  · rw [before] at knows
    rw [after]
    simpa [Knows, received, abandoned] using knows
  · rw [before] at knows
    rw [after]
    have isSome : err.isSome ↔ ∃ err', err = some err' := Option.isSome_iff_exists
    simpa [Knows, received, abandoned, channel, knows.1, isSome] using knows.2
  · rw [before] at knows
    rw [after]
    simpa [Knows, received, abandoned] using knows
  · rw [before] at knows
    rw [after]
    have wrapped : (setting.wrap shutdownErr (setting.text err)).isSome = shutdownErr.isSome :=
      isSome_wrapTranslated ..
    simpa [Knows, received, abandoned, wrapped, knows.2] using knows.1
  · rw [after]
    simp [Knows, abandoned, isSome_giveUp]
  · rw [before] at knows
    rw [after]
    simpa [Knows, received, abandoned, knows.2] using knows.1
  · rw [same]
    have neither : action ≠ .takeResult ∧ action ≠ .takeContext := by
      constructor <;> rintro rfl <;> cases passive
    simpa [Knows, received, abandoned, neither] using knows

omit [DecidableEq ε] in
/-- `Stop` returned an error before the deadline of the shutdown context. -/
def StopFailed (state : State ε) : Prop :=
  state.stop.inTime = true ∧ ∃ err, state.stop.result = some (some err)

/-- Of a run in which `Stop` failed, `run` returns an error exactly if the first `select` took an
error of `Run` or the second one took the end of the shutdown context. -/
theorem stop_error_reported_iff {result : Option (Error (Cause ε))}
    (ran : runFrom (step setting) start actions = some state)
    (returned : state.main = .returned result) :
    (state.StopFailed → result ≠ none) ↔
      (state.StopFailed → Received setting actions ∨ Abandoned setting actions) := by
  have knows : Knows setting actions state.main :=
    @runFrom_history _ _ (step setting) start state actions
      (fun actions state => Knows setting actions state.main) Knows.step knows_start ran
  rw [returned, Knows, Option.isSome_iff_ne_none] at knows
  rw [knows]

/-- Errors are compared, and none is translated. -/
def plain : Setting Unit where
  text := fun _ => "failed"
  finds := fun err target => .base err == target
  map := []

/-- The application fails, and then `Stop` fails too. -/
private def bothFail : List (Action Unit) :=
  [.callRun, .runReturns (some (.base (.other ()))), .takeResult, .shutdown, .callStop,
    .stopReturns (some (.base (.other ()))), .takeStopError]

theorem stop_error_reported_after_run_error :
    ∃ state : State Unit, runFrom (step plain) start bothFail = some state ∧
      state.StopFailed ∧ (Received plain bothFail ∨ Abandoned plain bothFail) := by
  have ran : runFrom (step plain) start bothFail = some _ := rfl
  exact ⟨_, ran, ⟨rfl, _, rfl⟩,
    (stop_error_reported_iff ran rfl).mp (by simp [Setting.wrap, wrapTranslated]) ⟨rfl, _, rfl⟩⟩

/-- After a signal the error of `Stop` is wrapped around no error. -/
theorem stop_error_lost_after_signal :
    ∃ state : State Unit, runFrom (step plain) start
        [.signal, .takeSignal, .shutdown, .callStop, .stopReturns (some (.base (.other ()))),
          .takeStopError] = some state ∧
      state.StopFailed ∧ state.main = .returned none :=
  ⟨_, rfl, ⟨rfl, _, rfl⟩, rfl⟩

/-! ## An error of `Run` -/

omit [DecidableEq ε] in
/-- The first `select` takes no signal, and the second one no expired shutdown context. -/
def Heeds (state : State ε) : Action ε → Prop
  | .takeSignal => False
  | .takeContext => state.shutdownCtx ≠ some .deadlineExceeded
  | _ => True

/-- An error that `errors.Is` finds in itself, and still finds when `Wrap` has translated it. -/
structure Findable (setting : Setting ε) (err : Error (Cause ε)) : Prop where
  /-- The error is of a type that can be compared, or says itself that it is this error. -/
  itself : err.is setting.finds err = true
  /-- No translation puts another error in its place. -/
  translated : (translate setting.finds setting.map err).is setting.finds err = true

/-- What is returned reports an error that was known. -/
def Reports (setting : Setting ε) (known result : Option (Error (Cause ε))) : Prop :=
  ∀ err, known = some err → Findable setting err →
    ∃ reported, result = some reported ∧ reported.is setting.finds err = true

/-- The result of `Run` goes through `errCh` into what `run` knows and returns. -/
structure Follows (setting : Setting ε) (state : State ε) : Prop where
  /-- What is in `errCh` is the result of `Run`. -/
  channel : ∀ {result}, state.errCh = some result → state.run.result = some result
  /-- The shutdown begins with the result of `Run`. -/
  stopping : ∀ {err}, state.main = .stopping err → state.run.result = some err
  /-- The shutdown keeps the result of `Run`. -/
  waiting : ∀ {err}, state.main = .waiting err → state.run.result = some err
  /-- The result of `Run` is reported. -/
  returned : ∀ {result}, state.main = .returned result → ∃ known, state.run.result = some known ∧
    Reports setting known result

theorem follows_start : Follows setting start where
  channel := by simp [start]
  stopping := by simp [start]
  waiting := by simp [start]
  returned := by simp [start]

theorem reports_self (known : Option (Error (Cause ε))) : Reports setting known known :=
  fun err same findable => ⟨err, same, findable.itself⟩

theorem reports_wrap (known : Option (Error (Cause ε))) (message : String) :
    Reports setting known (setting.wrap known message) := by
  rintro err rfl findable
  exact ⟨_, rfl, Error.is_wrapped _ findable.translated _⟩

/-- What is returned without a timeout reports the error that `run` knows of. -/
theorem reports_giveUp (known : Option (Error (Cause ε))) {reason : ContextEnd}
    (early : reason ≠ .deadlineExceeded) : Reports setting known (giveUp setting known reason) := by
  cases reason with
  | deadlineExceeded => exact absurd rfl early
  | canceled =>
      rintro err rfl findable
      exact reports_wrap (some err) _ err rfl findable

/-- A step that leaves `errCh`, the result of `Run` and `run` itself as they are. -/
theorem Follows.congr (follows : Follows setting state) (errCh : next.errCh = state.errCh)
    (result : next.run.result = state.run.result) (main : next.main = state.main) :
    Follows setting next := by
  refine ⟨?_, ?_, ?_, ?_⟩
  · rw [errCh, result]
    exact follows.channel
  · rw [main, result]
    exact follows.stopping
  · rw [main, result]
    exact follows.waiting
  · rw [main, result]
    exact follows.returned

/-- From the second `select`, `run` returns and reports what it knows. -/
theorem Follows.answer {known result : Option (Error (Cause ε))} (follows : Follows setting state)
    (waiting : state.main = .waiting known) (reports : Reports setting known result)
    (errCh : next.errCh = state.errCh) (run : next.run = state.run)
    (main : next.main = .returned result) : Follows setting next := by
  refine ⟨?_, ?_, ?_, ?_⟩
  · rw [errCh, run]
    exact follows.channel
  · simp [main]
  · simp [main]
  · rw [main, run]
    intro result' same
    cases same
    exact ⟨known, follows.waiting waiting, reports⟩

/-- As long as `Run` has not returned, `run` is in its first `select`. -/
theorem Follows.run_returns {result : Option (Error (Cause ε))} (follows : Follows setting state)
    (running : state.run = .running) :
    Follows setting
      { state with run := .returned result state.inTime, errCh := some result } := by
  have unknown : ∀ known, state.run.result ≠ some known := by
    intro known
    rw [running]
    simp [Routine.result]
  refine ⟨fun same => same, fun stopping => ?_, fun waiting => ?_, fun returned => ?_⟩
  · exact absurd (follows.stopping stopping) (unknown _)
  · exact absurd (follows.waiting waiting) (unknown _)
  · obtain ⟨known, same, _⟩ := follows.returned returned
    exact absurd same (unknown known)

theorem Follows.step (follows : Follows setting state) (heeds : state.Heeds action)
    (stepped : state.step setting action = some next) : Follows setting next := by
  cases step_effect stepped with
  | takeSignal selecting => exact heeds.elim
  | takeResult selecting received =>
      refine ⟨by simp, ?_, by simp, by simp⟩
      intro err same
      cases same
      exact follows.channel received
  | shutdown stopping =>
      refine ⟨follows.channel, by simp, ?_, by simp⟩
      intro err same
      cases same
      exact follows.stopping stopping
  | takeStopError waiting failed =>
      exact follows.answer waiting (reports_wrap _ _) rfl rfl rfl
  | takeContext waiting ended =>
      refine follows.answer waiting (reports_giveUp _ ?_) rfl rfl rfl
      rintro rfl
      exact heeds ended
  | takeDone waiting closed => exact follows.answer waiting (reports_self _) rfl rfl rfl
  | runReturns result running => exact follows.run_returns running
  | callRun started => exact follows.congr rfl (by rw [started]; rfl) rfl
  | runDone returned => exact follows.congr rfl (by rw [returned]; rfl) rfl
  | _ => exact follows.congr rfl rfl rfl

/-- In a run in which the first `select` takes no signal and the second one no expired shutdown
context, an error of `Run` is reported if `errors.Is` can find it. -/
theorem run_error_reported {result : Option (Error (Cause ε))} {err : Error (Cause ε)}
    (heeds : ∀ middle action, Takes (step setting) start actions middle action →
      middle.Heeds action)
    (ran : runFrom (step setting) start actions = some state)
    (returned : state.main = .returned result) (failed : state.run.result = some (some err))
    (findable : Findable setting err) :
    ∃ reported, result = some reported ∧ reported.is setting.finds err = true := by
  have follows : Follows setting state := runFrom_guarded Follows.step follows_start heeds ran
  obtain ⟨known, same, reports⟩ := follows.returned returned
  rw [failed] at same
  cases same
  exact reports err rfl findable

/-- The application fails, and the shutdown that follows is done in time. -/
private def failsFirst : List (Action Unit) :=
  [.callRun, .runReturns (some (.base (.other ()))), .runDone, .takeResult, .shutdown, .callStop,
    .stopReturns none, .stopDone, .allDone, .takeDone]

theorem run_error_reported_first :
    ∃ state : State Unit, runFrom (step plain) start failsFirst = some state ∧
      ∃ result, state.main = .returned result ∧
        ∃ reported, result = some reported ∧
          reported.is plain.finds (.base (.other ())) = true := by
  have heeds : ∀ middle action, Takes (step plain) start failsFirst middle action →
      middle.Heeds action :=
    takes_cons trivial rfl (takes_cons trivial rfl (takes_cons trivial rfl
      (takes_cons trivial rfl (takes_cons trivial rfl (takes_cons trivial rfl
        (takes_cons trivial rfl (takes_cons trivial rfl (takes_cons trivial rfl
          (takes_cons trivial rfl fun _ _ takes => absurd takes takes_nil)))))))))
  have ran : runFrom (step plain) start failsFirst = some _ := rfl
  exact ⟨_, ran, _, rfl, run_error_reported heeds ran rfl rfl ⟨rfl, rfl⟩⟩

/-- A signal comes first, and nobody looks at the error with which the application ends. -/
theorem run_error_lost_after_signal :
    ∃ state : State Unit, runFrom (step plain) start
        [.callRun, .signal, .takeSignal, .shutdown, .callStop,
          .runReturns (some (.base (.other ()))), .runDone, .stopReturns none, .stopDone, .allDone,
          .takeDone] = some state ∧
      Findable plain (.base (.other ())) ∧
      state.run = .done (some (.base (.other ()))) true ∧ state.stop = .done none true ∧
      state.main = .returned none :=
  ⟨_, rfl, ⟨rfl, rfl⟩, rfl, rfl, rfl⟩

end State

end CommonGo.Runner
