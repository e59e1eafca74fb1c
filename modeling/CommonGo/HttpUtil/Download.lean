import CommonGo.CtxErrors
import CommonGo.Program.Run
import CommonGo.Program.Tally
import Mathlib.Algebra.BigOperators.Fin

/-!
# Downloading files

`DownloadFiles` starts a goroutine for every file of a map.  A semaphore lets a few of them download
at a time, a wait group tells when all of them are through, and a channel with room for one error
per file takes the failures.  The calling goroutine and the workers are the parties of a transition
system, and a schedule is any order of their steps.
-/

namespace CommonGo.HttpUtil

open Program

variable {ε : Type}

/-! ## One file -/

/-- Errors that the package knows by name, and others. -/
inductive Cause (ε : Type) where
  | unexpectedHTTPStatusCode
  | couldNotDownloadFiles
  | other (err : ε)
  deriving DecidableEq, Repr

/-- How the operations of one download end: the error of the request, the status code of the
response or the error of `Do`, and the errors of opening and of writing the file. -/
structure Exchange (ε : Type) where
  /-- The error of making the request. -/
  request : Option ε
  /-- The status code, or the error of `Do`. -/
  response : Except ε Nat
  /-- The error of opening the file. -/
  openFile : Option ε
  /-- The error of `io.Copy`. -/
  copy : Option ε

/-- `DownloadFile`. -/
def downloadFile (exchange : Exchange ε) : Option (Error (Cause ε)) :=
  match exchange.request with
  | some err => wrap (some (.base (.other err))) "failed to create HTTP request"
  | none =>
      match exchange.response with
      | .error err => wrap (some (.base (.other err))) "failed to download file"
      | .ok status =>
          if status ≠ 200 then
            wrap (some (.base .unexpectedHTTPStatusCode)) ("status code: " ++ toString status)
          else
            match exchange.openFile with
            | some err => wrap (some (.base (.other err))) "failed to create local file"
            | none => wrap (exchange.copy.map (.base <| .other ·)) "failed to write file"

/-! ## The system -/

/-- A map of URLs to paths, in the order in which the loop over it goes. -/
structure Files where
  /-- The number of entries. -/
  size : Nat
  /-- The URL of an entry. -/
  url : Fin size → String
  /-- The path of an entry. -/
  targetPath : Fin size → String
  /-- No URL is in the map twice. -/
  distinct : Function.Injective url

/-- `downloadFilesWorkerLimit`. -/
def downloadFilesWorkerLimit : Nat := 5

/-- The capacity of `sem`. -/
def Files.workerLimit (files : Files) : Nat :=
  min downloadFilesWorkerLimit files.size

/-- Where a worker is. -/
inductive Worker (ε : Type) where
  /-- Not started yet. -/
  | absent
  /-- Before it takes its place in `sem`. -/
  | queued
  /-- In `DownloadFile`. -/
  | downloading
  /-- Before it sends its error. -/
  | reporting (err : Error (Cause ε))
  /-- Before it gives back its place in `sem`. -/
  | releasing
  /-- Before `wg.Done`. -/
  | leaving
  | done
  /-- It sent on the closed channel. -/
  | panicked

/-- Where `DownloadFiles` is. -/
inductive Main (ε : Type) where
  /-- In the loop, with this many workers started. -/
  | starting (count : Nat)
  /-- In `wg.Wait`. -/
  | waiting
  /-- Before `close(errChan)`. -/
  | closing
  /-- In the loop over `errChan`. -/
  | collecting
  | returned (result : Option (Error (Cause ε)))

/-- The variables of `DownloadFiles` and the places of the parties. -/
structure State (ε : Type) (size : Nat) where
  /-- Where the function is. -/
  main : Main ε
  /-- Where each worker is. -/
  worker : Fin size → Worker ε
  /-- The counter of the wait group. -/
  wg : Nat
  /-- The number of places taken in `sem`. -/
  sem : Nat
  /-- What is in the channel. -/
  errChan : List (Error (Cause ε))
  /-- `errChan` is closed. -/
  closed : Bool
  /-- What has been collected. -/
  errs : List (Error (Cause ε))
  /-- The URLs that `DownloadFile` has been called with. -/
  attempts : List String

/-- The party that makes a step. -/
inductive Party (size : Nat) where
  | main
  | worker (i : Fin size)

section System

variable (files : Files) (exchange : Fin files.size → Exchange ε)
  (text : Error (Cause ε) → String)

/-- The error that a worker reports. -/
def failure (i : Fin files.size) : Option (Error (Cause ε)) :=
  wrap (downloadFile (exchange i))
    ("failed to download " ++ files.url i ++ " to " ++ files.targetPath i)

/-- What `DownloadFiles` returns for the errors it has collected; `text` is `err.Error()`. -/
def result (errs : List (Error (Cause ε))) : Option (Error (Cause ε)) :=
  if errs.length > 0 then
    wrap (some (.base .couldNotDownloadFiles))
      ("errors downloading files: " ++ String.intercalate "; " (errs.map text))
  else
    none

/-- The state when the function is called. -/
def start : State ε files.size where
  main := if files.size = 0 then .returned none else .starting 0
  worker _ := .absent
  wg := 0
  sem := 0
  errChan := []
  closed := false
  errs := []
  attempts := []

/-- A step of the goroutine that called `DownloadFiles`. -/
def mainStep (state : State ε files.size) : Option (State ε files.size) :=
  match state.main with
  | .starting count =>
      if more : count < files.size then
        some { state with
          main := .starting (count + 1)
          worker := Function.update state.worker ⟨count, more⟩ .queued
          wg := state.wg + 1 }
      else
        some { state with main := .waiting }
  | .waiting => if state.wg = 0 then some { state with main := .closing } else none
  | .closing => some { state with main := .collecting, closed := true }
  | .collecting =>
      match state.errChan with
      | err :: rest => some { state with errChan := rest, errs := state.errs ++ [err] }
      | [] =>
          -- A loop over an empty channel ends when the channel is closed, and waits until then.
          if state.closed then
            some { state with main := .returned (result text state.errs) }
          else
            none
  | .returned _ => none

/-- A step of a worker. -/
def workerStep (state : State ε files.size) (i : Fin files.size) : Option (State ε files.size) :=
  let moveTo phase := Function.update state.worker i phase
  match state.worker i with
  | .absent => none
  | .queued =>
      if state.sem < files.workerLimit then
        some { state with
          worker := moveTo .downloading
          sem := state.sem + 1
          attempts := state.attempts ++ [files.url i] }
      else
        none
  | .downloading =>
      match failure files exchange i with
      | some err => some { state with worker := moveTo (.reporting err) }
      | none => some { state with worker := moveTo .releasing }
  | .reporting err =>
      if state.closed then
        some { state with worker := moveTo .panicked }
      else if state.errChan.length < files.size then
        some { state with worker := moveTo .releasing, errChan := state.errChan ++ [err] }
      else
        none
  | .releasing =>
      if 0 < state.sem then
        some { state with worker := moveTo .leaving, sem := state.sem - 1 }
      else
        none
  | .leaving => some { state with worker := moveTo .done, wg := state.wg - 1 }
  | .done => none
  | .panicked => none

/-- One step of a party. -/
def step (state : State ε files.size) : Party files.size → Option (State ε files.size)
  | .main => mainStep files text state
  | .worker i => workerStep files exchange state i

end System

/-! ## What the parties share -/

namespace Worker

/-- A worker that `wg` counts. -/
def alive : Worker ε → Nat
  | absent | done | panicked => 0
  | queued | downloading | reporting _ | releasing | leaving => 1

/-- A worker that has a place in `sem`. -/
def holds : Worker ε → Nat
  | downloading | reporting _ | releasing => 1
  | absent | queued | leaving | done | panicked => 0

/-- A worker whose download is in progress. -/
def inProgress : Worker ε → Nat
  | downloading => 1
  | absent | queued | reporting _ | releasing | leaving | done | panicked => 0

/-- The steps that a worker has left. -/
def left : Worker ε → Nat
  | absent => 6
  | queued => 5
  | downloading => 4
  | reporting _ => 3
  | releasing => 2
  | leaving => 1
  | done | panicked => 0

theorem holds_le_one (worker : Worker ε) : worker.holds ≤ 1 := by
  cases worker <;> simp [holds]

theorem inProgress_le_holds (worker : Worker ε) : worker.inProgress ≤ worker.holds := by
  cases worker <;> simp [inProgress, holds]

end Worker

/-- The number of downloads in progress. -/
def State.inProgress {size : Nat} (state : State ε size) : Nat :=
  tally (fun _ => Worker.inProgress) state.worker

section Accounts

variable (files : Files) (exchange : Fin files.size → Exchange ε)
  (text : Error (Cause ε) → String)

/-- The URL that a worker has attempted. -/
def attempted (i : Fin files.size) : Worker ε → Multiset String
  | .absent | .queued => 0
  | .downloading | .reporting _ | .releasing | .leaving | .done | .panicked => {files.url i}

/-- The error that a worker has sent. -/
def reported (i : Fin files.size) : Worker ε → Multiset (Error (Cause ε))
  | .releasing | .leaving | .done => ((failure files exchange i).toList : Multiset _)
  | .absent | .queued | .downloading | .reporting _ | .panicked => 0

/-- What holds of the workers at each point of `DownloadFiles`. -/
def InPlace (state : State ε files.size) : Prop :=
  match state.main with
  | .starting count =>
      0 < files.size ∧ count ≤ files.size ∧ state.closed = false ∧
        ∀ i, state.worker i = .absent ↔ count ≤ i
  | .waiting => 0 < files.size ∧ state.closed = false ∧ ∀ i, state.worker i ≠ .absent
  | .closing => ∀ i, state.worker i = .done
  | .collecting => state.closed = true ∧ ∀ i, state.worker i = .done
  | .returned returned =>
      state.errChan = [] ∧ returned = result text state.errs ∧ ∀ i, state.worker i = .done

/-- The invariant: what the parties share is the tally of what each worker has done. -/
structure Sound (state : State ε files.size) : Prop where
  /-- The wait group counts the workers that are alive. -/
  wg : state.wg = tally (fun _ => Worker.alive) state.worker
  /-- The semaphore counts the workers that hold a place. -/
  sem : state.sem = tally (fun _ => Worker.holds) state.worker
  /-- Not more places are taken than there are. -/
  bounded : state.sem ≤ files.workerLimit
  /-- The attempts are those of the workers. -/
  attempts : (state.attempts : Multiset String) = tally (attempted files) state.worker
  /-- The errors collected and in the channel are those that workers reported. -/
  errors : (state.errs : Multiset (Error (Cause ε))) + (state.errChan : Multiset _) =
    tally (reported files exchange) state.worker
  /-- A worker reports the error of its download. -/
  reporting : ∀ i err, state.worker i = .reporting err → failure files exchange i = some err
  /-- No worker has sent on a closed channel. -/
  unpanicked : ∀ i, state.worker i ≠ .panicked
  /-- The function is where the workers let it be. -/
  inPlace : InPlace files text state

end Accounts

section Invariant

variable {files : Files} {exchange : Fin files.size → Exchange ε}
  {text : Error (Cause ε) → String} {state next : State ε files.size} {i : Fin files.size}

theorem start_sound : Sound files exchange text (start files) where
  wg := (tally_eq_zero_iff.mpr fun _ => rfl).symm
  sem := (tally_eq_zero_iff.mpr fun _ => rfl).symm
  bounded := Nat.zero_le _
  attempts := by simp [tally, start, attempted]
  errors := by simp [tally, start, reported]
  reporting := by simp [start]
  unpanicked := by simp [start]
  inPlace := by
    by_cases empty : files.size = 0
    · simp [InPlace, start, empty, result, Fin.forall_iff]
    · simp [InPlace, start, empty, Nat.pos_of_ne_zero empty]

/-! ## Steps of a worker -/

private theorem coe_concat {α : Type} (list : List α) (last : α) :
    ((list ++ [last] : List α) : Multiset α) = list + {last} := rfl

/-- While a worker is at work, `DownloadFiles` has not passed `wg.Wait`. -/
theorem InPlace.before (inPlace : InPlace files text state) (busy : (state.worker i).alive = 1) :
    (∃ count, state.main = .starting count) ∨ state.main = .waiting := by
  cases point : state.main with
  | starting count => exact Or.inl ⟨count, rfl⟩
  | waiting => exact Or.inr rfl
  | closing => simp_all [InPlace, Worker.alive]
  | collecting => simp_all [InPlace, Worker.alive]
  | returned result => simp_all [InPlace, Worker.alive]

theorem InPlace.opened (inPlace : InPlace files text state) (busy : (state.worker i).alive = 1) :
    state.closed = false := by
  rcases inPlace.before busy with ⟨count, point⟩ | point <;> simp_all [InPlace]

theorem InPlace.moved {after : Worker ε} (inPlace : InPlace files text state)
    (busy : (state.worker i).alive = 1) (present : after ≠ .absent)
    (main : next.main = state.main) (closed : next.closed = state.closed)
    (worker : next.worker = Function.update state.worker i after) :
    InPlace files text next := by
  have started : state.worker i ≠ .absent := by
    intro absent
    simp [absent, Worker.alive] at busy
  have same : ∀ j, next.worker j = .absent ↔ state.worker j = .absent := by
    intro j
    by_cases here : j = i
    · subst here
      simp [worker, present, started]
    · simp [worker, here]
  rcases inPlace.before busy with ⟨count, point⟩ | point <;>
    simpa [InPlace, main, point, closed, same] using inPlace

/-- A worker that changes what the parties share by its own part keeps the invariant. -/
theorem Sound.moved (sound : Sound files exchange text state) (i : Fin files.size)
    (after : Worker ε) (whole : after ≠ .panicked)
    (failed : ∀ err, after = .reporting err → failure files exchange i = some err)
    (worker : next.worker = Function.update state.worker i after)
    (wg : next.wg + (state.worker i).alive = state.wg + after.alive)
    (sem : next.sem + (state.worker i).holds = state.sem + after.holds)
    (bounded : next.sem ≤ files.workerLimit)
    (attempts : (next.attempts : Multiset String) + attempted files i (state.worker i) =
      state.attempts + attempted files i after)
    (errs : next.errs = state.errs)
    (errors : (next.errChan : Multiset (Error (Cause ε))) +
        reported files exchange i (state.worker i) =
      state.errChan + reported files exchange i after)
    (inPlace : InPlace files text next) :
    Sound files exchange text next where
  wg := by
    have moved := tally_update (fun _ => Worker.alive) state.worker i after
    rw [← worker, ← sound.wg] at moved
    omega
  sem := by
    have moved := tally_update (fun _ => Worker.holds) state.worker i after
    rw [← worker, ← sound.sem] at moved
    omega
  bounded := bounded
  attempts := by
    have moved := tally_update (attempted files) state.worker i after
    rw [← worker, ← sound.attempts, ← attempts] at moved
    exact (add_right_cancel moved).symm
  errors := by
    have moved := tally_update (reported files exchange) state.worker i after
    rw [← worker, ← sound.errors, add_assoc, ← errors, ← add_assoc] at moved
    rw [errs]
    exact (add_right_cancel moved).symm
  reporting := by
    intro j err reporting
    rw [worker] at reporting
    by_cases here : j = i
    · subst here
      exact failed err (by simpa using reporting)
    · exact sound.reporting j err (by simpa [here] using reporting)
  unpanicked := by
    intro j
    rw [worker]
    by_cases here : j = i
    · subst here
      simpa using whole
    · simpa [here] using sound.unpanicked j
  inPlace := inPlace

private theorem card_reported_le (exchange : Fin files.size → Exchange ε) (i : Fin files.size)
    (worker : Worker ε) : Multiset.card (reported files exchange i worker) ≤ 1 := by
  cases worker <;> cases failure files exchange i <;> simp_all [reported]

theorem Sound.errChan_le (sound : Sound files exchange text state) :
    state.errChan.length ≤
      tally (fun i worker => Multiset.card (reported files exchange i worker)) state.worker := by
  have sent := congrArg Multiset.card sound.errors
  have counted : Multiset.card (tally (reported files exchange) state.worker) =
      tally (fun i worker => Multiset.card (reported files exchange i worker)) state.worker :=
    map_sum Multiset.cardHom _ _
  rw [counted, Multiset.card_add, Multiset.coe_card, Multiset.coe_card] at sent
  omega

/-- A worker that has an error to send finds room for it. -/
theorem Sound.room {err : Error (Cause ε)} (sound : Sound files exchange text state)
    (reporting : state.worker i = .reporting err) : state.errChan.length < files.size := by
  have fewer := tally_lt_card (fun j => card_reported_le exchange j (state.worker j)) (i := i)
    (by simp [reporting, reported])
  rw [Fintype.card_fin] at fewer
  exact sound.errChan_le.trans_lt fewer

/-- What a step of a worker does. -/
inductive WorkerMove (files : Files) (exchange : Fin files.size → Exchange ε)
    (state : State ε files.size) (i : Fin files.size) : State ε files.size → Prop
  | acquire (phase : state.worker i = .queued) (room : state.sem < files.workerLimit) :
      WorkerMove files exchange state i { state with
        worker := Function.update state.worker i .downloading
        sem := state.sem + 1
        attempts := state.attempts ++ [files.url i] }
  | fail {err : Error (Cause ε)} (phase : state.worker i = .downloading)
      (failed : failure files exchange i = some err) :
      WorkerMove files exchange state i { state with
        worker := Function.update state.worker i (.reporting err) }
  | succeed (phase : state.worker i = .downloading) (failed : failure files exchange i = none) :
      WorkerMove files exchange state i { state with
        worker := Function.update state.worker i .releasing }
  | panic {err : Error (Cause ε)} (phase : state.worker i = .reporting err)
      (closed : state.closed = true) :
      WorkerMove files exchange state i { state with
        worker := Function.update state.worker i .panicked }
  | report {err : Error (Cause ε)} (phase : state.worker i = .reporting err)
      (opened : state.closed = false) (room : state.errChan.length < files.size) :
      WorkerMove files exchange state i { state with
        worker := Function.update state.worker i .releasing
        errChan := state.errChan ++ [err] }
  | release (phase : state.worker i = .releasing) (taken : 0 < state.sem) :
      WorkerMove files exchange state i { state with
        worker := Function.update state.worker i .leaving
        sem := state.sem - 1 }
  | leave (phase : state.worker i = .leaving) :
      WorkerMove files exchange state i { state with
        worker := Function.update state.worker i .done
        wg := state.wg - 1 }

theorem workerMove_of_step (stepped : workerStep files exchange state i = some next) :
    WorkerMove files exchange state i next := by
  cases phase : state.worker i with
  | absent => simp [workerStep, phase] at stepped
  | queued =>
      simp only [workerStep, phase, Option.ite_none_right_eq_some, Option.some.injEq] at stepped
      obtain ⟨room, rfl⟩ := stepped
      exact .acquire phase room
  | downloading =>
      simp only [workerStep, phase] at stepped
      cases failed : failure files exchange i with
      | some err =>
          simp only [failed, Option.some.injEq] at stepped
          subst stepped
          exact .fail phase failed
      | none =>
          simp only [failed, Option.some.injEq] at stepped
          subst stepped
          exact .succeed phase failed
  | reporting err =>
      simp only [workerStep, phase] at stepped
      split_ifs at stepped with closed room
      · cases stepped
        exact .panic phase closed
      · cases stepped
        exact .report phase (Bool.eq_false_iff.mpr closed) room
  | releasing =>
      simp only [workerStep, phase, Option.ite_none_right_eq_some, Option.some.injEq] at stepped
      obtain ⟨taken, rfl⟩ := stepped
      exact .release phase taken
  | leaving =>
      simp only [workerStep, phase, Option.some.injEq] at stepped
      subst stepped
      exact .leave phase
  | done => simp [workerStep, phase] at stepped
  | panicked => simp [workerStep, phase] at stepped

/-- A worker that makes a step is at work, and comes closer to its end. -/
theorem WorkerMove.left (move : WorkerMove files exchange state i next) :
    (state.worker i).alive = 1 ∧ next.main = state.main ∧
      ∃ after, next.worker = Function.update state.worker i after ∧
        after.left < (state.worker i).left := by
  cases move with
  | acquire phase => exact ⟨by rw [phase]; rfl, rfl, _, rfl, by simp [phase, Worker.left]⟩
  | fail phase => exact ⟨by rw [phase]; rfl, rfl, _, rfl, by simp [phase, Worker.left]⟩
  | succeed phase => exact ⟨by rw [phase]; rfl, rfl, _, rfl, by simp [phase, Worker.left]⟩
  | panic phase => exact ⟨by rw [phase]; rfl, rfl, _, rfl, by simp [phase, Worker.left]⟩
  | report phase => exact ⟨by rw [phase]; rfl, rfl, _, rfl, by simp [phase, Worker.left]⟩
  | release phase => exact ⟨by rw [phase]; rfl, rfl, _, rfl, by simp [phase, Worker.left]⟩
  | leave phase => exact ⟨by rw [phase]; rfl, rfl, _, rfl, by simp [phase, Worker.left]⟩

theorem Sound.worker (sound : Sound files exchange text state)
    (move : WorkerMove files exchange state i next) : Sound files exchange text next := by
  obtain ⟨busy, -⟩ := move.left
  cases move with
  | acquire phase room =>
      apply sound.moved i .downloading
      case inPlace => exact sound.inPlace.moved busy (by nofun) rfl rfl rfl
      case bounded => exact room
      all_goals simp [phase, Worker.alive, Worker.holds, attempted, reported, coe_concat]
  | @fail err phase failed =>
      apply sound.moved i (.reporting err)
      case inPlace => exact sound.inPlace.moved busy (by nofun) rfl rfl rfl
      case bounded => exact sound.bounded
      all_goals simp [phase, Worker.alive, Worker.holds, attempted, reported, failed]
  | succeed phase failed =>
      apply sound.moved i .releasing
      case inPlace => exact sound.inPlace.moved busy (by nofun) rfl rfl rfl
      case bounded => exact sound.bounded
      all_goals simp [phase, Worker.alive, Worker.holds, attempted, reported, failed]
  | panic phase closed =>
      -- The channel is not closed while a worker is at work.
      rw [sound.inPlace.opened busy] at closed
      cases closed
  | @report err phase opened room =>
      have failed := sound.reporting i err phase
      apply sound.moved i .releasing
      case inPlace => exact sound.inPlace.moved busy (by nofun) rfl rfl rfl
      case bounded => exact sound.bounded
      all_goals simp [phase, Worker.alive, Worker.holds, attempted, reported, failed, coe_concat]
  | release phase taken =>
      apply sound.moved i .leaving
      case inPlace => exact sound.inPlace.moved busy (by nofun) rfl rfl rfl
      case bounded => exact (Nat.sub_le _ _).trans sound.bounded
      case sem => simpa [phase, Worker.holds] using Nat.sub_add_cancel taken
      all_goals simp [phase, Worker.alive, attempted, reported]
  | leave phase =>
      have counted := le_tally (fun _ => Worker.alive) state.worker i
      rw [← sound.wg, phase] at counted
      apply sound.moved i .done
      case inPlace => exact sound.inPlace.moved busy (by nofun) rfl rfl rfl
      case bounded => exact sound.bounded
      case wg => simpa [phase, Worker.alive] using Nat.sub_add_cancel counted
      all_goals simp [phase, Worker.holds, attempted, reported]

/-! ## Steps of the caller -/

/-- When the wait group is empty, all workers that have been started are done. -/
theorem Sound.all_done (sound : Sound files exchange text state) (idle : state.wg = 0)
    (started : ∀ i, state.worker i ≠ .absent) : ∀ i, state.worker i = .done := by
  rw [sound.wg, tally_eq_zero_iff] at idle
  intro i
  have still := idle i
  cases phase : state.worker i with
  | absent => exact absurd phase (started i)
  | panicked => exact absurd phase (sound.unpanicked i)
  | done => rfl
  | _ => simp [phase, Worker.alive] at still

theorem Sound.main (sound : Sound files exchange text state)
    (stepped : mainStep files text state = some next) : Sound files exchange text next := by
  have inPlace := sound.inPlace
  cases point : state.main with
  | starting count =>
      simp only [InPlace, point] at inPlace
      obtain ⟨nonempty, bounded, opened, absent_iff⟩ := inPlace
      simp only [mainStep, point] at stepped
      split at stepped
      case isTrue more =>
          cases stepped
          have absent : state.worker ⟨count, more⟩ = .absent := (absent_iff _).mpr le_rfl
          apply sound.moved ⟨count, more⟩ .queued
          case inPlace =>
            refine ⟨nonempty, more, opened, fun i => ?_⟩
            by_cases here : i = ⟨count, more⟩
            · simp [here]
            · have other : (i : Nat) ≠ count := fun same => here (Fin.ext same)
              simp only [Function.update_of_ne here, absent_iff]
              omega
          case bounded => exact sound.bounded
          all_goals simp [absent, Worker.alive, Worker.holds, attempted, reported]
      case isFalse full =>
          cases stepped
          refine { sound with inPlace := ⟨nonempty, opened, fun i absent => ?_⟩ }
          have := (absent_iff i).mp absent
          omega
  | waiting =>
      simp only [InPlace, point] at inPlace
      simp only [mainStep, point, Option.ite_none_right_eq_some, Option.some.injEq] at stepped
      obtain ⟨idle, rfl⟩ := stepped
      exact { sound with inPlace := sound.all_done idle inPlace.2.2 }
  | closing =>
      simp only [InPlace, point] at inPlace
      simp only [mainStep, point, Option.some.injEq] at stepped
      subst stepped
      exact { sound with inPlace := ⟨rfl, inPlace⟩ }
  | collecting =>
      simp only [InPlace, point] at inPlace
      simp only [mainStep, point] at stepped
      cases pending : state.errChan with
      | cons err rest =>
          simp only [pending, Option.some.injEq] at stepped
          subst stepped
          refine { sound with errors := ?_, inPlace := ?_ }
          · rw [← sound.errors, pending, coe_concat, add_assoc]
            rfl
          · simpa [InPlace, point] using inPlace
      | nil =>
          simp only [pending, inPlace.1, if_true, Option.some.injEq] at stepped
          subst stepped
          refine { sound with errors := ?_, inPlace := ⟨rfl, rfl, inPlace.2⟩ }
          rw [← sound.errors, pending]
  | returned result => simp [mainStep, point] at stepped

theorem Sound.step {party : Party files.size} (sound : Sound files exchange text state)
    (stepped : step files exchange text state party = some next) :
    Sound files exchange text next := by
  cases party with
  | main => exact sound.main stepped
  | worker i => exact sound.worker (workerMove_of_step stepped)

/-! ## Termination -/

/-- The steps that `DownloadFiles` has left itself, with this many errors in `errChan`. -/
def Main.left (size pending : Nat) : Main ε → Nat
  | .starting count => size - count + size + 4
  | .waiting => size + 3
  | .closing => size + 2
  | .collecting => pending + 1
  | .returned _ => 0

/-- A bound for the steps that all parties have left. -/
def State.left {size : Nat} (state : State ε size) : Nat :=
  state.main.left size state.errChan.length + tally (fun _ => Worker.left) state.worker

theorem Sound.left_worker (sound : Sound files exchange text state)
    (move : WorkerMove files exchange state i next) : next.left < state.left := by
  obtain ⟨busy, main, after, worker, less⟩ := move.left
  have moved := tally_update (fun _ => Worker.left) state.worker i after
  rw [← worker] at moved
  -- The caller is before `close(errChan)`, so that its own part does not depend on `errChan`.
  have same : next.main.left files.size next.errChan.length =
      state.main.left files.size state.errChan.length := by
    rcases sound.inPlace.before busy with ⟨count, point⟩ | point <;> rw [main, point] <;> rfl
  rw [State.left, State.left, same]
  omega

theorem Sound.left_main (sound : Sound files exchange text state)
    (stepped : mainStep files text state = some next) : next.left < state.left := by
  cases point : state.main with
  | starting count =>
      simp only [mainStep, point] at stepped
      split at stepped
      case isTrue more =>
          cases stepped
          have absent : state.worker ⟨count, more⟩ = .absent := by
            have inPlace := sound.inPlace
            simp only [InPlace, point] at inPlace
            exact (inPlace.2.2.2 _).mpr le_rfl
          have moved := tally_update (fun _ => Worker.left) state.worker ⟨count, more⟩ .queued
          simp only [absent, Worker.left] at moved
          simp only [State.left, point, Main.left]
          omega
      case isFalse full =>
          cases stepped
          simp only [State.left, point, Main.left]
          omega
  | waiting =>
      simp only [mainStep, point, Option.ite_none_right_eq_some, Option.some.injEq] at stepped
      obtain ⟨_, rfl⟩ := stepped
      simp only [State.left, point, Main.left]
      omega
  | closing =>
      have few := sound.errChan_le.trans
        (tally_le_card fun j => card_reported_le exchange j (state.worker j))
      rw [Fintype.card_fin] at few
      simp only [mainStep, point, Option.some.injEq] at stepped
      subst stepped
      simp only [State.left, point, Main.left]
      omega
  | collecting =>
      simp only [mainStep, point] at stepped
      cases pending : state.errChan with
      | cons err rest =>
          simp only [pending, Option.some.injEq] at stepped
          subst stepped
          simp [State.left, point, Main.left, pending]
      | nil =>
          simp only [pending, Option.ite_none_right_eq_some, Option.some.injEq] at stepped
          obtain ⟨_, rfl⟩ := stepped
          simp [State.left, point, Main.left]
  | returned result => simp [mainStep, point] at stepped

theorem Sound.left_step {party : Party files.size} (sound : Sound files exchange text state)
    (stepped : HttpUtil.step files exchange text state party = some next) :
    next.left < state.left := by
  cases party with
  | main => exact sound.left_main stepped
  | worker i => exact sound.left_worker (workerMove_of_step stepped)

theorem start_left : (start files : State ε files.size).left ≤ 8 * files.size + 4 := by
  have workers : tally (fun _ => Worker.left) (start files : State ε files.size).worker =
      6 * files.size := by
    simp [tally, start, Worker.left, mul_comm]
  have caller : (start files : State ε files.size).main.left files.size 0 ≤
      2 * files.size + 4 := by
    by_cases empty : files.size = 0
    · simp [start, empty, Main.left]
    · simp only [start, empty, if_false, Main.left]
      omega
  calc (start files : State ε files.size).left
      = (start files : State ε files.size).main.left files.size 0 + 6 * files.size := by
        rw [State.left, workers]
        rfl
    _ ≤ 8 * files.size + 4 := by omega

/-! ## Progress -/

/-- Some party can make a step. -/
def Moves (files : Files) (exchange : Fin files.size → Exchange ε)
    (text : Error (Cause ε) → String) (state : State ε files.size) : Prop :=
  ∃ party next, step files exchange text state party = some next

/-- A worker that holds a place in the semaphore is never stuck. -/
theorem Sound.holder_moves (sound : Sound files exchange text state)
    (holding : (state.worker i).holds = 1) :
    ∃ next, workerStep files exchange state i = some next := by
  cases phase : state.worker i with
  | downloading => cases failed : failure files exchange i <;> simp [workerStep, phase, failed]
  | reporting err =>
      have opened := sound.inPlace.opened (i := i) (by rw [phase]; rfl)
      simp [workerStep, phase, opened, sound.room phase]
  | releasing =>
      have taken := le_tally (fun _ => Worker.holds) state.worker i
      rw [← sound.sem, holding] at taken
      simp [workerStep, phase, Nat.pos_iff_ne_zero.mp taken, Nat.pos_iff_ne_zero]
  | _ => simp [phase, Worker.holds] at holding

/-- While workers are at work, one of them can go on. -/
theorem Sound.worker_moves (sound : Sound files exchange text state)
    (started : ∀ i, state.worker i ≠ .absent) (busy : state.wg ≠ 0) :
    ∃ i next, workerStep files exchange state i = some next := by
  rw [sound.wg, ne_eq, tally_eq_zero_iff, not_forall] at busy
  obtain ⟨i, alive⟩ := busy
  by_cases held : ∃ j, (state.worker j).holds = 1
  · obtain ⟨j, holding⟩ := held
    exact ⟨j, sound.holder_moves holding⟩
  · refine ⟨i, ?_⟩
    have free : state.sem = 0 := by
      rw [sound.sem, tally_eq_zero_iff]
      intro j
      have atMost := (state.worker j).holds_le_one
      have none : (state.worker j).holds ≠ 1 := fun holding => held ⟨j, holding⟩
      omega
    have room : 0 < files.workerLimit := by
      simp [Files.workerLimit, downloadFilesWorkerLimit, i.pos]
    cases phase : state.worker i with
    | queued => simp [workerStep, phase, free, room]
    | leaving => simp [workerStep, phase]
    | absent => exact absurd phase (started i)
    | done => simp [phase, Worker.alive] at alive
    | panicked => simp [phase, Worker.alive] at alive
    | _ => exact absurd ⟨i, by rw [phase]; rfl⟩ held

/-- Until `DownloadFiles` has returned, some party can make a step. -/
theorem Sound.moves (sound : Sound files exchange text state) :
    (∃ returned, state.main = .returned returned) ∨ Moves files exchange text state := by
  have inPlace := sound.inPlace
  cases point : state.main with
  | returned result => exact Or.inl ⟨result, rfl⟩
  | starting count =>
      refine Or.inr ⟨.main, ?_⟩
      by_cases more : count < files.size <;> simp [HttpUtil.step, mainStep, point, more]
  | waiting =>
      simp only [InPlace, point] at inPlace
      refine Or.inr ?_
      by_cases idle : state.wg = 0
      · exact ⟨.main, by simp [HttpUtil.step, mainStep, point, idle]⟩
      · obtain ⟨i, next, stepped⟩ := sound.worker_moves inPlace.2.2 idle
        exact ⟨.worker i, next, stepped⟩
  | closing => exact Or.inr ⟨.main, by simp [HttpUtil.step, mainStep, point]⟩
  | collecting =>
      simp only [InPlace, point] at inPlace
      refine Or.inr ⟨.main, ?_⟩
      cases pending : state.errChan <;>
        simp [HttpUtil.step, mainStep, point, pending, inPlace.1]

/-! ## Results -/

theorem Sound.inProgress_le (sound : Sound files exchange text state) :
    state.inProgress ≤ files.workerLimit :=
  calc state.inProgress
      ≤ tally (fun _ => Worker.holds) state.worker :=
        tally_le_tally fun i => (state.worker i).inProgress_le_holds
    _ = state.sem := sound.sem.symm
    _ ≤ files.workerLimit := sound.bounded

private theorem sum_urls :
    ∑ i, ({files.url i} : Multiset String) = Finset.univ.val.map files.url := by
  have singles := Multiset.sum_map_singleton (Finset.univ.val.map files.url)
  rwa [Multiset.map_map] at singles

private theorem nodup_urls : (Finset.univ.val.map files.url).Nodup :=
  Finset.univ.nodup.map files.distinct

theorem Sound.attempts_le (sound : Sound files exchange text state) (url : String) :
    state.attempts.count url ≤ 1 := by
  have below : (state.attempts : Multiset String) ≤ Finset.univ.val.map files.url := by
    rw [sound.attempts, ← sum_urls]
    apply Finset.sum_le_sum
    intro i _
    cases state.worker i <;> simp [attempted]
  have once := Multiset.nodup_iff_count_le_one.mp (Multiset.nodup_of_le below nodup_urls) url
  rwa [Multiset.coe_count] at once

theorem Sound.attempts_eq (sound : Sound files exchange text state)
    (done : ∀ i, state.worker i = .done) (i : Fin files.size) :
    state.attempts.count (files.url i) = 1 := by
  have all : (state.attempts : Multiset String) = Finset.univ.val.map files.url := by
    rw [sound.attempts, ← sum_urls]
    simp [tally, done, attempted]
  rw [← Multiset.coe_count, all]
  exact Multiset.count_eq_one_of_mem nodup_urls
    (Multiset.mem_map_of_mem _ (Finset.mem_univ i))

/-- The errors of the downloads that fail. -/
def failures (files : Files) (exchange : Fin files.size → Exchange ε) : List (Error (Cause ε)) :=
  (List.finRange files.size).filterMap (failure files exchange)

theorem failures_eq_nil_iff :
    failures files exchange = [] ↔ ∀ i, downloadFile (exchange i) = none := by
  simp [failures, failure, wrap]

private theorem sum_toList {α : Type} (report : Fin files.size → Option α)
    (workers : List (Fin files.size)) :
    (workers.map fun i => ((report i).toList : Multiset α)).sum = workers.filterMap report := by
  induction workers with
  | nil => rfl
  | cons i workers ih =>
      rw [List.map_cons, List.sum_cons, ih]
      cases reported : report i <;> simp [reported]

/-- When all workers are done and the channel is empty, every failure has been collected. -/
theorem Sound.errs_perm (sound : Sound files exchange text state)
    (done : ∀ i, state.worker i = .done) (empty : state.errChan = []) :
    state.errs.Perm (failures files exchange) := by
  have collected := sound.errors
  simp only [empty, Multiset.coe_nil, add_zero, tally, done, reported] at collected
  rw [Fin.sum_univ_def, sum_toList] at collected
  exact Multiset.coe_eq_coe.mp collected

theorem result_eq_none_iff {errs : List (Error (Cause ε))} :
    result text errs = none ↔ errs = [] := by
  cases errs <;> simp [result]

end Invariant

/-- What is asked of `DownloadFiles` after any steps of any schedule. -/
structure LosesNoFailure (files : Files) (exchange : Fin files.size → Exchange ε)
    (text : Error (Cause ε) → String) (schedule : List (Party files.size))
    (state : State ε files.size) : Prop where
  /-- Not more than five downloads are in progress. -/
  limited : state.inProgress ≤ min 5 files.size
  /-- No URL is tried twice. -/
  attempted_once : ∀ url, state.attempts.count url ≤ 1
  /-- A worker that reports an error can do so. -/
  unblocked : ∀ i err, state.worker i = .reporting err →
    state.closed = false ∧ ∃ next, step files exchange text state (.worker i) = some next
  /-- No worker has sent on a closed channel. -/
  unpanicked : ∀ i, state.worker i ≠ .panicked
  /-- Every schedule comes to an end, and only when the function has returned. -/
  returns : schedule.length ≤ 8 * files.size + 4 ∧
    ((∃ returned, state.main = .returned returned) ∨ Moves files exchange text state)
  /-- Every URL has been tried when the function returns. -/
  attempted : ∀ returned, state.main = .returned returned →
    ∀ i, state.attempts.count (files.url i) = 1
  /-- It returns nil exactly if every download succeeded. -/
  succeeds_iff : ∀ returned, state.main = .returned returned →
    (returned = none ↔ ∀ i, downloadFile (exchange i) = none)
  /-- The error it returns has the messages of all failures. -/
  messages : ∀ err, state.main = .returned (some err) →
    ∃ messages : List String, messages.Perm ((failures files exchange).map text) ∧
      err = .wrapped ("errors downloading files: " ++ String.intercalate "; " messages)
        (.base .couldNotDownloadFiles)

/-- `DownloadFiles` loses no failure, whatever the downloads come to and however the workers are
scheduled. -/
theorem downloadFiles_losesNoFailure {files : Files} {exchange : Fin files.size → Exchange ε}
    {text : Error (Cause ε) → String} {schedule : List (Party files.size)}
    {state : State ε files.size}
    (ran : runFrom (step files exchange text) (start files) schedule = some state) :
    LosesNoFailure files exchange text schedule state := by
  have sound : Sound files exchange text state := runFrom_invariant Sound.step start_sound ran
  have bounded := @runFrom_measure _ _ (step files exchange text) (start files) state schedule
    (Sound files exchange text) State.left Sound.step Sound.left_step start_sound ran
  have first : (start files : State ε files.size).left ≤ 8 * files.size + 4 := start_left
  have ended : ∀ returned, state.main = .returned returned →
      state.errChan = [] ∧ returned = result text state.errs ∧ ∀ i, state.worker i = .done := by
    intro returned point
    simpa [InPlace, point] using sound.inPlace
  constructor
  case limited => exact sound.inProgress_le
  case attempted_once => exact sound.attempts_le
  case unblocked =>
    intro i err reporting
    have busy : (state.worker i).alive = 1 := by rw [reporting]; rfl
    have holding : (state.worker i).holds = 1 := by rw [reporting]; rfl
    exact ⟨sound.inPlace.opened busy, sound.holder_moves holding⟩
  case unpanicked => exact sound.unpanicked
  case returns => exact ⟨by omega, sound.moves⟩
  case attempted =>
    intro returned point
    exact sound.attempts_eq (ended returned point).2.2
  case succeeds_iff =>
    intro returned point
    obtain ⟨empty, rfl, done⟩ := ended returned point
    rw [result_eq_none_iff, ← failures_eq_nil_iff]
    exact ⟨fun none => (none ▸ sound.errs_perm done empty).nil_eq.symm, fun none =>
      (none ▸ sound.errs_perm done empty).eq_nil⟩
  case messages =>
    intro err point
    obtain ⟨empty, value, done⟩ := ended _ point
    refine ⟨state.errs.map text, (sound.errs_perm done empty).map text, ?_⟩
    cases errs : state.errs with
    | nil => simp [errs, result] at value
    | cons first rest => simpa [errs, result] using value

/-- Two files of which the second is not found. -/
def twoFiles : Files where
  size := 2
  url i := if i = 0 then "http://a" else "http://b"
  targetPath i := if i = 0 then "a" else "b"
  distinct := by decide

/-- The second worker fails while the first still waits for its response. -/
theorem losesNoFailure_twoFiles :
    let exchange : Fin 2 → Exchange Unit := fun i =>
      ⟨none, .ok (if i = 0 then 200 else 404), none, none⟩
    let text : Error (Cause Unit) → String := fun _ => "not found"
    let schedule : List (Party 2) :=
      [.main, .main, .worker 0, .worker 1, .worker 1, .worker 1, .main, .worker 1, .worker 1,
        .worker 0, .worker 0, .worker 0, .main, .main, .main, .main]
    ∃ state, runFrom (step twoFiles exchange text) (start twoFiles) schedule = some state ∧
      state.main = .returned (result text (failures twoFiles exchange)) ∧
      LosesNoFailure twoFiles exchange text schedule state := by
  refine ⟨_, rfl, rfl, ?_⟩
  apply downloadFiles_losesNoFailure
  rfl

end CommonGo.HttpUtil
