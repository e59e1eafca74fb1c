import CommonGo.Go.Filepath
import CommonGo.Program.Run

/-!
# The heartbeat files

Services touch a file each, once a minute, and whoever wants to know whether a service is alive
looks at the time of its file.  The kernel takes that time from a clock that goes in steps, so that
a touch may set it to a moment before the call.  A service that is never late by more than a given
lag is seen at all times by whoever allows for the interval, three lags and a step of that clock;
and nobody is seen who has not touched the file in the time allowed.
-/

namespace CommonGo.Heartbeat

open Go Program
open Go.Filepath (slash dot dotDot elements clean cleanStep)

variable {ι : Type}

/-! ## Names and files -/

/-- The directory of the heartbeat files. -/
def dir : Bytes := ascii "/tmp/heartbeat"

/-- A minute, in nanoseconds. -/
def interval : Int := 60000000000

/-- A name of a service that names a file of the directory. -/
structure Name where
  /-- The name as it is passed to `Start`. -/
  text : Bytes
  /-- The name is not empty. -/
  nonempty : text ≠ []
  /-- It is one element of a path. -/
  single : slash ∉ text
  /-- It is not the directory itself. -/
  not_dot : text ≠ dot
  /-- It is not the directory above. -/
  not_dotDot : text ≠ dotDot
  deriving DecidableEq

/-- `filepath.Join(dir, name)`. -/
def pathOf (name : Name) : Bytes := clean (dir ++ slash :: name.text)

/-- The path is the name behind the directory. -/
theorem pathOf_eq (name : Name) : pathOf name = dir ++ slash :: name.text := by
  have whole : dir ++ slash :: name.text =
      [slash].intercalate [[], ascii "tmp", ascii "heartbeat", name.text] := by
    simp [List.intercalate, dir, ascii, slash]
  have parts : elements (dir ++ slash :: name.text) =
      [[], ascii "tmp", ascii "heartbeat", name.text] := by
    rw [whole]
    refine List.splitOn_intercalate slash ?_ (by simp)
    intro part member
    simp only [List.mem_cons, List.not_mem_nil, or_false] at member
    rcases member with rfl | rfl | rfl | rfl
    · decide
    · decide
    · decide
    · exact name.single
  have kept : [[], ascii "tmp", ascii "heartbeat", name.text].foldl cleanStep [] =
      [name.text, ascii "heartbeat", ascii "tmp"] := by
    have last : ∀ before, cleanStep before name.text = name.text :: before := by
      intro before
      rw [cleanStep, if_neg (by simp [name.nonempty, name.not_dot]), if_neg name.not_dotDot]
    rw [List.foldl_cons, List.foldl_cons, List.foldl_cons, List.foldl_cons, last]
    rfl
  rw [pathOf, clean, parts, kept]
  simp [List.intercalate, dir, ascii, slash]

/-- Different names have different files. -/
theorem pathOf_injective : Function.Injective pathOf := by
  intro left right same
  rw [pathOf_eq, pathOf_eq] at same
  have text := (List.cons.inj (List.append_cancel_left same)).2
  cases left
  cases right
  cases text
  rfl

/-! ## `Start`, `touch` and `SeenWithin` -/

/-- When a ticker ticks next after a tick that was due and is taken now; the ticks missed in between
are dropped. -/
def nextTick (due now : Int) : Int := due + interval * (1 + (now - due) / interval)

/-- Where a call of `Start` is. -/
inductive Stage where
  | idle
  /-- Before `MkdirAll`. -/
  | called
  /-- Before `touch`, since a time.  From the second time on there is a ticker, with the time of its
  next tick. -/
  | touching (since : Int) (ticker : Option Int)
  /-- Before `NewTicker`, since a time. -/
  | touched (since : Int)
  /-- In the `select`, with the time of the next tick. -/
  | selecting (due : Int)
  /-- It has returned, or its process is dead. -/
  | gone
  deriving DecidableEq

/-- The stage behind a call of `touch`. -/
def Stage.afterTouch (now : Int) : Option Int → Stage
  | none => .touched now
  | some due => .selecting due

/-- The first touch is done, and `Start` has not returned. -/
def Stage.beating : Stage → Bool
  | .touching _ ticker => ticker.isSome
  | .touched _ => true
  | .selecting _ => true
  | _ => false

/-- The clock, the files and the services. -/
structure State (ι : Type) where
  /-- The time of the clock. -/
  now : Int
  /-- The times of the files. -/
  modTime : Bytes → Option Int
  /-- Whether the context of a service is done. -/
  canceled : ι → Bool
  /-- Where each service is. -/
  stage : ι → Stage

/-- What can happen. -/
inductive Action (ι : Type) where
  | pass (elapsed : Nat)
  | call (i : ι)
  | mkdirAll (i : ι) (succeeds : Bool)
  /-- `touch`, with the time that the file gets; `none` if it fails. -/
  | touch (i : ι) (stamp : Option Int)
  | newTicker (i : ι)
  | tick (i : ι)
  | cancel (i : ι)
  | done (i : ι)
  | crash (i : ι)

/-- `SeenWithin`, when some time elapses between `os.Stat` and `time.Since`. -/
def State.seenWithin (state : State ι) (name : Name) (d : Int) (elapsed : Nat) : Bool :=
  match state.modTime (pathOf name) with
  | none => false
  | some modTime => state.now + elapsed - modTime ≤ d

theorem State.seenWithin_eq_true (state : State ι) {name : Name} {d : Int} {elapsed : Nat} :
    state.seenWithin name d elapsed = true ↔
      ∃ modTime, state.modTime (pathOf name) = some modTime ∧
        state.now + elapsed - modTime ≤ d := by
  unfold seenWithin
  cases state.modTime (pathOf name) <;> simp

/-- The services have not been called; the files are those of earlier days. -/
def State.start (now : Int) (prior : Bytes → Option Int) : State ι where
  now := now
  modTime := prior
  canceled _ := false
  stage _ := .idle

section Steps

variable [DecidableEq ι] (granularity : Nat) (names : ι → Name)

/-- A service goes on. -/
def State.move (state : State ι) (i : ι) (stage : Stage) : State ι :=
  { state with stage := Function.update state.stage i stage }

@[simp] theorem State.move_stage_self (state : State ι) (i : ι) (stage : Stage) :
    (state.move i stage).stage i = stage :=
  Function.update_self ..

theorem State.move_stage_of_ne (state : State ι) {i j : ι} (other : j ≠ i) (stage : Stage) :
    (state.move i stage).stage j = state.stage j :=
  Function.update_of_ne other ..

/-- One step; `none` if it cannot happen.  A file gets a time that the clock of the kernel has shown
within one of its steps. -/
def State.step (state : State ι) : Action ι → Option (State ι)
  | .pass elapsed => some { state with now := state.now + elapsed }
  | .call i =>
      match state.stage i with
      | .idle => some (state.move i .called)
      | _ => none
  | .mkdirAll i succeeds =>
      match state.stage i with
      | .called => some (state.move i (if succeeds then .touching state.now none else .gone))
      | _ => none
  | .touch i stamp =>
      match state.stage i, stamp with
      | .touching _ ticker, some time =>
          if state.now - granularity ≤ time ∧ time ≤ state.now then
            some { state.move i (.afterTouch state.now ticker) with
              modTime := Function.update state.modTime (pathOf (names i)) (some time) }
          else none
      | .touching _ ticker, none => some (state.move i (.afterTouch state.now ticker))
      | _, _ => none
  | .newTicker i =>
      match state.stage i with
      | .touched _ => some (state.move i (.selecting (state.now + interval)))
      | _ => none
  | .tick i =>
      match state.stage i with
      | .selecting due =>
          if due ≤ state.now then
            some (state.move i (.touching state.now (some (nextTick due state.now))))
          else none
      | _ => none
  | .cancel i => some { state with canceled := Function.update state.canceled i true }
  | .done i =>
      match state.stage i with
      | .selecting _ => if state.canceled i then some (state.move i .gone) else none
      | _ => none
  | .crash i => some (state.move i .gone)

/-! ## What a step can do -/

/-- How the stage of a service changes by a step of its own that leaves the files. -/
inductive Moves (now : Int) : Stage → Stage → Prop
  | call : Moves now .idle .called
  | mkdirAll : Moves now .called (.touching now none)
  | newTicker (since : Int) : Moves now (.touched since) (.selecting (now + interval))
  | tick {due : Int} (late : due ≤ now) :
      Moves now (.selecting due) (.touching now (some (nextTick due now)))
  | gone (stage : Stage) : Moves now stage .gone

/-- What an action does. -/
inductive Effect (state : State ι) : Action ι → State ι → Prop
  | pass (elapsed : Nat) :
      Effect state (.pass elapsed) { state with now := state.now + elapsed }
  | cancel (i : ι) :
      Effect state (.cancel i) { state with canceled := Function.update state.canceled i true }
  | move {i : ι} {action : Action ι} {stage : Stage}
      (other : ∀ j stamp, action ≠ .touch j stamp)
      (moves : Moves state.now (state.stage i) stage) : Effect state action (state.move i stage)
  | touch {i : ι} {since time : Int} {ticker : Option Int}
      (before : state.stage i = .touching since ticker)
      (recent : state.now - granularity ≤ time) (past : time ≤ state.now) :
      Effect state (.touch i (some time)) { state.move i (.afterTouch state.now ticker) with
        modTime := Function.update state.modTime (pathOf (names i)) (some time) }
  | fail {i : ι} {since : Int} {ticker : Option Int}
      (before : state.stage i = .touching since ticker) :
      Effect state (.touch i none) (state.move i (.afterTouch state.now ticker))

end Steps

variable [DecidableEq ι] {granularity : Nat} {names : ι → Name} {state next : State ι}
  {action : Action ι} {actions : List (Action ι)} {now : Int} {prior : Bytes → Option Int}

theorem step_effect (stepped : state.step granularity names action = some next) :
    Effect granularity names state action next := by
  cases action with
  | pass elapsed =>
      cases stepped
      exact .pass elapsed
  | cancel i =>
      cases stepped
      exact .cancel i
  | crash i =>
      cases stepped
      exact .move (by simp) (.gone _)
  | call i =>
      simp only [State.step] at stepped
      split at stepped
      · rename_i before
        cases stepped
        refine .move (by simp) ?_
        rw [before]
        exact .call
      · cases stepped
  | mkdirAll i succeeds =>
      simp only [State.step] at stepped
      split at stepped
      · rename_i before
        cases stepped
        refine .move (by simp) ?_
        cases succeeds with
        | true =>
            rw [before]
            exact .mkdirAll
        | false => exact .gone _
      · cases stepped
  | touch i stamp =>
      simp only [State.step] at stepped
      split at stepped
      · rename_i before
        split_ifs at stepped with shown
        cases stepped
        exact .touch before shown.1 shown.2
      · rename_i before
        cases stepped
        exact .fail before
      · cases stepped
  | newTicker i =>
      simp only [State.step] at stepped
      split at stepped
      · rename_i since before
        cases stepped
        refine .move (by simp) ?_
        rw [before]
        exact .newTicker since
      · cases stepped
  | tick i =>
      simp only [State.step] at stepped
      split at stepped
      · rename_i due before
        split_ifs at stepped with late
        cases stepped
        refine .move (by simp) ?_
        rw [before]
        exact .tick late
      · cases stepped
  | done i =>
      simp only [State.step] at stepped
      split at stepped
      · split_ifs at stepped
        cases stepped
        exact .move (by simp) (.gone _)
      · cases stepped

/-! ## A service that keeps up is seen -/

/-- The time since when the next step of a service has been possible. -/
def Stage.awaited : Stage → Option Int
  | .touching since _ => some since
  | .touched since => some since
  | .selecting due => some due
  | _ => none

/-- No step of a service comes later than the lag allows, and its touches succeed. -/
def State.keepsUp (lag : Nat) (i : ι) (state : State ι) : Action ι → Bool
  | .pass elapsed => (state.stage i).awaited.all fun since => state.now + elapsed ≤ since + lag
  | .touch j stamp => j ≠ i || stamp.isSome
  | _ => true

/-- A file has the time of a touch, which may be a step of the kernel's clock before it. -/
def Stamped (granularity : Nat) (found : Option Int) (time : Int) : Prop :=
  ∃ modTime, found = some modTime ∧ time ≤ modTime + granularity

/-- When the file of a service was touched, by where the service is. -/
def Fresh (granularity lag : Nat) (now : Int) (found : Option Int) : Stage → Prop
  | .touching since none => now ≤ since + lag
  | .touching since (some due) => ∃ time, Stamped granularity found time ∧ time ≤ now ∧
      since ≤ time + interval + 2 * lag ∧ since ≤ now ∧ now ≤ since + lag ∧
      since ≤ due ∧ due ≤ since + interval
  | .touched since => ∃ time, Stamped granularity found time ∧ time ≤ now ∧
      since ≤ time ∧ now ≤ since + lag
  | .selecting due => ∃ time, Stamped granularity found time ∧ time ≤ now ∧
      due ≤ time + interval + lag ∧ now ≤ due + lag
  | _ => True

variable {lag : Nat} {i : ι} {found : Option Int} {stage after : Stage}

theorem stamped_of_recent {time : Int} (recent : now - granularity ≤ time) :
    Stamped granularity (some time) now :=
  ⟨time, rfl, by omega⟩

theorem nextTick_bounds (due now : Int) :
    now ≤ nextTick due now ∧ nextTick due now ≤ now + interval := by
  unfold nextTick interval
  omega

theorem Fresh.move (fresh : Fresh granularity lag now found stage) (moves : Moves now stage after) :
    Fresh granularity lag now found after := by
  cases moves with
  | call => trivial
  | mkdirAll => exact Int.le_add_of_nonneg_right (Int.natCast_nonneg lag)
  | newTicker since =>
      obtain ⟨time, stamped, past, since_le, onTime⟩ := fresh
      refine ⟨time, stamped, past, by omega, ?_⟩
      unfold interval
      omega
  | @tick due late =>
      obtain ⟨time, stamped, past, due_le, onTime⟩ := fresh
      obtain ⟨next_ge, next_le⟩ := nextTick_bounds due now
      exact ⟨time, stamped, past, by omega, le_rfl, by omega, next_ge, next_le⟩
  | gone => trivial

/-- The file is as young as can be behind a touch. -/
theorem Fresh.touch {since time : Int} {ticker : Option Int}
    (fresh : Fresh granularity lag now found (.touching since ticker))
    (recent : now - granularity ≤ time) :
    Fresh granularity lag now (some time) (.afterTouch now ticker) := by
  cases ticker with
  | none => exact ⟨now, stamped_of_recent recent, le_rfl, le_rfl, by omega⟩
  | some due =>
      obtain ⟨last, _, past, since_le, begun, onTime, due_ge, due_le⟩ := fresh
      exact ⟨now, stamped_of_recent recent, le_rfl, by omega, by omega⟩

/-- The touch of another service only makes a file younger. -/
theorem Fresh.younger {time : Int} (fresh : Fresh granularity lag now found stage)
    (recent : now - granularity ≤ time) : Fresh granularity lag now (some time) stage := by
  have stamped := stamped_of_recent recent
  cases stage with
  | touching since ticker =>
      cases ticker with
      | none => exact fresh
      | some due =>
          obtain ⟨last, _, past, since_le, rest⟩ := fresh
          exact ⟨now, stamped, le_rfl, by omega, rest⟩
  | touched since =>
      obtain ⟨last, _, past, since_le, onTime⟩ := fresh
      exact ⟨now, stamped, le_rfl, by omega, onTime⟩
  | selecting due =>
      obtain ⟨last, _, past, due_le, onTime⟩ := fresh
      exact ⟨now, stamped, le_rfl, by omega, onTime⟩
  | _ => trivial

theorem Fresh.pass {elapsed : Nat} (fresh : Fresh granularity lag now found stage)
    (prompt : stage.awaited.all (fun since => now + elapsed ≤ since + lag) = true) :
    Fresh granularity lag (now + elapsed) found stage := by
  cases stage with
  | touching since ticker =>
      have onTime : now + elapsed ≤ since + lag := by simpa [Stage.awaited] using prompt
      cases ticker with
      | none => exact onTime
      | some due =>
          obtain ⟨time, stamped, past, since_le, begun, _, dues⟩ := fresh
          exact ⟨time, stamped, by omega, since_le, by omega, onTime, dues⟩
  | touched since =>
      have onTime : now + elapsed ≤ since + lag := by simpa [Stage.awaited] using prompt
      obtain ⟨time, stamped, past, since_le, _⟩ := fresh
      exact ⟨time, stamped, by omega, since_le, onTime⟩
  | selecting due =>
      have onTime : now + elapsed ≤ due + lag := by simpa [Stage.awaited] using prompt
      obtain ⟨time, stamped, past, due_le, _⟩ := fresh
      exact ⟨time, stamped, by omega, due_le, onTime⟩
  | _ => trivial

/-- The file of a service that has touched it is no older than the interval, three lags and a step
of the kernel's clock. -/
theorem Fresh.young (fresh : Fresh granularity lag now found stage)
    (beating : stage.beating = true) :
    ∃ modTime, found = some modTime ∧ now - modTime ≤ interval + 3 * lag + granularity := by
  have positive : 0 ≤ interval := by decide
  cases stage with
  | touching since ticker =>
      cases ticker with
      | none => cases beating
      | some due =>
          obtain ⟨time, ⟨modTime, is, stamped⟩, past, since_le, begun, onTime, dues⟩ := fresh
          exact ⟨modTime, is, by omega⟩
  | touched since =>
      obtain ⟨time, ⟨modTime, is, stamped⟩, past, since_le, onTime⟩ := fresh
      exact ⟨modTime, is, by omega⟩
  | selecting due =>
      obtain ⟨time, ⟨modTime, is, stamped⟩, past, due_le, onTime⟩ := fresh
      exact ⟨modTime, is, by omega⟩
  | idle => cases beating
  | called => cases beating
  | gone => cases beating

/-- The file of a service is as young as where the service is tells. -/
def State.IsFresh (granularity : Nat) (names : ι → Name) (lag : Nat) (i : ι) (state : State ι) :
    Prop :=
  Fresh granularity lag state.now (state.modTime (pathOf (names i))) (state.stage i)

theorem State.IsFresh.step (fresh : state.IsFresh granularity names lag i)
    (prompt : state.keepsUp lag i action = true)
    (stepped : state.step granularity names action = some next) :
    next.IsFresh granularity names lag i := by
  cases step_effect stepped with
  | pass elapsed => exact Fresh.pass fresh prompt
  | cancel j => exact fresh
  | @move j _ stage other moves =>
      change Fresh granularity lag state.now (state.modTime (pathOf (names i)))
        ((state.move j stage).stage i)
      by_cases same : i = j
      · subst same
        rw [move_stage_self]
        exact Fresh.move fresh moves
      · rw [move_stage_of_ne state same]
        exact fresh
  | @touch j since time ticker before recent _ =>
      change Fresh granularity lag state.now
        (Function.update state.modTime (pathOf (names j)) (some time) (pathOf (names i)))
        ((state.move j (.afterTouch state.now ticker)).stage i)
      by_cases same : i = j
      · subst same
        rw [move_stage_self, Function.update_self]
        rw [IsFresh, before] at fresh
        exact fresh.touch recent
      · rw [move_stage_of_ne state same]
        by_cases shared : pathOf (names i) = pathOf (names j)
        · rw [shared, Function.update_self]
          exact Fresh.younger fresh recent
        · rw [Function.update_of_ne shared]
          exact fresh
  | @fail j since ticker before =>
      have other : i ≠ j := by
        rintro rfl
        simp [keepsUp] at prompt
      change Fresh granularity lag state.now (state.modTime (pathOf (names i)))
        ((state.move j (.afterTouch state.now ticker)).stage i)
      rw [move_stage_of_ne state other]
      exact fresh

/-- A service that keeps up is seen from its first touch until it is gone, whatever others do. -/
theorem seenWithin_of_keepsUp {d : Int} {elapsed : Nat}
    (prompt : ∀ middle action,
      Takes (State.step granularity names) (.start now prior) actions middle action →
        middle.keepsUp lag i action = true)
    (ran : runFrom (State.step granularity names) (.start now prior) actions = some state)
    (beating : (state.stage i).beating = true)
    (enough : interval + 3 * lag + granularity + elapsed ≤ d) :
    state.seenWithin (names i) d elapsed = true := by
  have first : (State.start now prior).IsFresh granularity names lag i := trivial
  have fresh : state.IsFresh granularity names lag i :=
    runFrom_guarded State.IsFresh.step first prompt ran
  obtain ⟨modTime, is, young⟩ := Fresh.young fresh beating
  exact state.seenWithin_eq_true.mpr ⟨modTime, is, by omega⟩

/-- Two services. -/
def apiAndWorker : Bool → Name
  | true => ⟨ascii "api", by decide, by decide, by decide, by decide⟩
  | false => ⟨ascii "worker", by decide, by decide, by decide, by decide⟩

/-- The first service is a second late with its second touch; the other one never starts.  The
kernel's clock goes in steps of four milliseconds. -/
def secondLate : List (Action Bool) :=
  [.call true, .mkdirAll true true, .touch true (some (-4000000)), .newTicker true,
    .pass 60500000000, .tick true, .pass 500000000, .touch true (some 60996000000),
    .pass 59000000000]

/-- It is seen by whoever allows for a lag of half a second and for a step of that clock. -/
theorem seenWithin_of_keepsUp_secondLate : ∃ state,
    runFrom (State.step 4000000 apiAndWorker) (.start 0 fun _ => none) secondLate = some state ∧
      state.seenWithin (apiAndWorker true) 61505000000 1000000 = true := by
  have stages : (runFrom (State.step 4000000 apiAndWorker) (.start 0 fun _ => none)
      secondLate).map (·.stage true) = some (.selecting 120000000000) := by decide +kernel
  obtain ⟨state, ran, stage⟩ := Option.map_eq_some_iff.mp stages
  have prompt : checks (State.step 4000000 apiAndWorker)
      (fun state action => state.keepsUp 500000000 true action = true)
      (.start 0 fun _ => none) secondLate = true := by decide +kernel
  have beating : (state.stage true).beating = true := by rw [stage]; rfl
  exact ⟨state, ran, seenWithin_of_keepsUp (takes_of_checks prompt) ran beating (by decide)⟩

/-! ## Who is seen has touched the file -/

/-- The times at which a run touches the file of a name. -/
def touchTimes (granularity : Nat) (names : ι → Name) (now : Int) (prior : Bytes → Option Int)
    (actions : List (Action ι)) (name : Name) : Set Int :=
  { time | ∃ j stamp middle, names j = name ∧
    Takes (State.step granularity names) (.start now prior) actions middle
      (.touch j (some stamp)) ∧ middle.now = time }

section Touches

variable {name : Name}

/-- The file of a name has the time of its last touch, which may be a step of the kernel's clock
before it. -/
structure Recorded (granularity : Nat) (names : ι → Name) (now : Int) (prior : Bytes → Option Int)
    (name : Name) (actions : List (Action ι)) (state : State ι) : Prop where
  /-- No touch is in the future. -/
  past : ∀ time ∈ touchTimes granularity names now prior actions name, time ≤ state.now
  /-- A file that was never touched has the time it had. -/
  untouched : touchTimes granularity names now prior actions name = ∅ →
    state.modTime (pathOf name) = prior (pathOf name)
  /-- A file that was touched has the time of its last touch, or one a step before it. -/
  touched : (touchTimes granularity names now prior actions name).Nonempty →
    ∃ time modTime, IsGreatest (touchTimes granularity names now prior actions name) time ∧
      state.modTime (pathOf name) = some modTime ∧ time - granularity ≤ modTime ∧ modTime ≤ time

theorem touchTimes_nil : touchTimes granularity names now prior [] name = ∅ := by
  refine Set.eq_empty_iff_forall_notMem.mpr ?_
  rintro time ⟨j, stamp, middle, _, takes, _⟩
  exact takes_nil takes

/-- An action that does not touch the file adds no time. -/
theorem touchTimes_snoc_of_ne
    (other : ∀ j stamp, action = .touch j (some stamp) → names j ≠ name) :
    touchTimes granularity names now prior (actions ++ [action]) name =
      touchTimes granularity names now prior actions name := by
  ext time
  constructor
  · rintro ⟨j, stamp, middle, same, takes, is⟩
    rcases takes_snoc.mp takes with earlier | ⟨rfl, _⟩
    · exact ⟨j, stamp, middle, same, earlier, is⟩
    · exact absurd same (other j stamp rfl)
  · rintro ⟨j, stamp, middle, same, takes, is⟩
    exact ⟨j, stamp, middle, same, takes.longer (List.prefix_append _ _), is⟩

theorem touchTimes_snoc_touch {j : ι} {stamp : Int} (same : names j = name)
    (ran : runFrom (State.step granularity names) (.start now prior) actions = some state) :
    touchTimes granularity names now prior (actions ++ [.touch j (some stamp)]) name =
      insert state.now (touchTimes granularity names now prior actions name) := by
  ext time
  constructor
  · rintro ⟨k, stamp, middle, same, takes, is⟩
    rcases takes_snoc.mp takes with earlier | ⟨_, ran'⟩
    · exact Set.mem_insert_of_mem _ ⟨k, stamp, middle, same, earlier, is⟩
    · rw [ran] at ran'
      cases ran'
      exact Set.mem_insert_iff.mpr (Or.inl is.symm)
  · rintro (rfl | ⟨k, stamp, middle, same, takes, is⟩)
    · exact ⟨j, stamp, state, same, takes_last ran, rfl⟩
    · exact ⟨k, stamp, middle, same, takes.longer (List.prefix_append _ _), is⟩

theorem recorded_start :
    Recorded granularity names now prior name [] (.start now prior) where
  past := by simp [touchTimes_nil]
  untouched _ := rfl
  touched := by simp [touchTimes_nil]

/-- Nothing is recorded where the file is left alone. -/
theorem Recorded.other (recorded : Recorded granularity names now prior name actions state)
    (other : ∀ j stamp, action = .touch j (some stamp) → names j ≠ name)
    (later : state.now ≤ next.now)
    (kept : next.modTime (pathOf name) = state.modTime (pathOf name)) :
    Recorded granularity names now prior name (actions ++ [action]) next := by
  have same : touchTimes granularity names now prior (actions ++ [action]) name =
      touchTimes granularity names now prior actions name := touchTimes_snoc_of_ne other
  refine ⟨?_, ?_, ?_⟩ <;> rw [same]
  · exact fun time member => (recorded.past time member).trans later
  · rw [kept]
    exact recorded.untouched
  · rw [kept]
    exact recorded.touched

/-- A touch of the file is the last one so far. -/
theorem Recorded.touch {j : ι} {stamp : Int}
    (recorded : Recorded granularity names now prior name actions state)
    (ran : runFrom (State.step granularity names) (.start now prior) actions = some state)
    (same : names j = name) (kept : next.now = state.now)
    (told : next.modTime (pathOf name) = some stamp)
    (recent : state.now - granularity ≤ stamp) (early : stamp ≤ state.now) :
    Recorded granularity names now prior name (actions ++ [.touch j (some stamp)]) next := by
  have more : touchTimes granularity names now prior (actions ++ [.touch j (some stamp)]) name =
      insert state.now (touchTimes granularity names now prior actions name) :=
    touchTimes_snoc_touch same ran
  have past : ∀ time ∈ insert state.now (touchTimes granularity names now prior actions name),
      time ≤ state.now := by
    rintro time (rfl | member)
    · exact le_rfl
    · exact recorded.past time member
  refine ⟨?_, ?_, ?_⟩ <;> rw [more]
  · rw [kept]
    exact past
  · exact fun empty => absurd empty (Set.insert_nonempty _ _).ne_empty
  · exact fun _ => ⟨state.now, stamp, ⟨Set.mem_insert _ _, past⟩, told, recent, early⟩

theorem Recorded.step
    (ran : runFrom (State.step granularity names) (.start now prior) actions = some state)
    (recorded : Recorded granularity names now prior name actions state)
    (stepped : state.step granularity names action = some next) :
    Recorded granularity names now prior name (actions ++ [action]) next := by
  cases step_effect stepped with
  | pass elapsed =>
      exact recorded.other (by simp) (Int.le_add_of_nonneg_right (Int.natCast_nonneg elapsed)) rfl
  | cancel j => exact recorded.other (by simp) le_rfl rfl
  | move other moves =>
      exact recorded.other (fun j stamp is => absurd is (other j (some stamp))) le_rfl rfl
  | @touch j since time ticker before recent past =>
      by_cases same : names j = name
      · refine recorded.touch ran same rfl ?_ recent past
        rw [← same]
        exact Function.update_self ..
      · refine recorded.other ?_ le_rfl
          (Function.update_of_ne (pathOf_injective.ne (Ne.symm same)) ..)
        rintro k stamp is
        cases is
        exact same
  | fail before => exact recorded.other (by simp) le_rfl rfl

end Touches

end CommonGo.Heartbeat
