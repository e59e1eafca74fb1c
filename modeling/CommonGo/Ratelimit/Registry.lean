import CommonGo.CtxErrors
import CommonGo.Program.Run
import CommonGo.Ratelimit.Bucket

/-!
# Limiters by name

`Register` puts a new limiter under a name, and `Wait` takes the limiter that stands there and waits
at it.  A caller that has taken its limiter keeps it, whatever is registered meanwhile.  The calls
of any number of clients are the steps of a transition system, one for each part of a call that a
lock or a timer sets off from the rest.
-/

namespace CommonGo.Ratelimit

open Program
open Program.Permit (Paced within Bounded)

/-! ## The system -/

/-- What became of a call that has a reservation. -/
inductive Status where
  | waiting
  /-- It has returned without an error, at a time. -/
  | returned (time : Int)
  | canceled
  deriving DecidableEq, Repr

/-- A call that has a reservation. -/
structure Call where
  /-- The limiter that it found. -/
  limiter : Nat
  /-- What it has reserved there. -/
  reservation : Reservation
  /-- How long its timer runs; there is none for zero. -/
  delay : Int
  /-- What became of it. -/
  status : Status
  deriving DecidableEq, Repr

/-- Where a client is in its call of `Wait`. -/
inductive Stage where
  | idle
  /-- It has found the limiter. -/
  | found (name : String) (limiter : Nat)
  /-- It has a reservation, and waits for the timer if there is one. -/
  | waiting (name : String) (call : Nat)
  /-- The call has returned. -/
  | done (result : Option (Error String))
  deriving DecidableEq, Repr

/-- The registry and its clients. -/
structure State where
  /-- Every limiter that was ever registered. -/
  limiters : List Limiter
  /-- The limiters by their names. -/
  names : String → Option Nat
  /-- Where each client is. -/
  stage : Nat → Stage
  /-- The calls that have a reservation, in the order they reserved in. -/
  calls : List Call

/-- What can happen. -/
inductive Action where
  | register (name : String) (rps : ℚ) (burst : Int)
  /-- `Wait` looks for the limiter. -/
  | lookup (client : Nat) (name : String)
  /-- `rate.Limiter.Wait`, entered at `t`, up to its timer. -/
  | reserve (client : Nat) (t : Int) (deadline : Option Int) (ctxErr : Option String)
  /-- The timer has fired, or there was none, and the call returns. -/
  | leave (client : Nat) (now : Int)
  /-- The context is done first, and the reservation is cancelled at `t`. -/
  | cancel (client : Nat) (t : Int) (ctxErr : String)
  deriving Repr

namespace State

/-- `New`. -/
def start : State :=
  { limiters := [], names := fun _ => none, stage := fun _ => .idle, calls := [] }

/-- One step; `none` if it cannot happen. -/
def step (state : State) : Action → Option State
  | .register name rps burst => some { state with
      limiters := state.limiters ++ [newLimiter rps burst]
      names := Function.update state.names name (some state.limiters.length) }
  | .lookup client name =>
      match state.stage client with
      | .found .. => none
      | .waiting .. => none
      | _ => some { state with
          stage := Function.update state.stage client (
            match state.names name with
            | none => .done (some (.base ("rate limiter not found: " ++ name)))
            | some limiter => .found name limiter) }
  | .reserve client t deadline ctxErr =>
      match state.stage client with
      | .found name limiter => do
          let lim ← state.limiters[limiter]?
          match lim.wait t 1 deadline ctxErr with
          | .error err => some { state with
              stage := Function.update state.stage client
                (.done (wrap (some (.base err)) ("rate limit wait: " ++ name))) }
          | .ok (reservation, next) => some { state with
              limiters := state.limiters.set limiter next
              stage := Function.update state.stage client (.waiting name state.calls.length)
              calls := state.calls ++ [{
                limiter, reservation, delay := reservation.delayFrom t, status := .waiting }] }
      | _ => none
  | .leave client now =>
      match state.stage client with
      | .waiting _ index => do
          let call ← state.calls[index]?
          if call.status = .waiting ∧ call.reservation.timeToAct ≤ now then some { state with
            stage := Function.update state.stage client (.done none)
            calls := state.calls.set index { call with status := .returned now } }
          else none
      | _ => none
  | .cancel client t ctxErr =>
      match state.stage client with
      | .waiting name index => do
          let call ← state.calls[index]?
          let lim ← state.limiters[call.limiter]?
          if call.status = .waiting ∧ call.delay ≠ 0 then some { state with
            limiters := state.limiters.set call.limiter (lim.cancelAt call.reservation t)
            stage := Function.update state.stage client
              (.done (wrap (some (.base ctxErr)) ("rate limit wait: " ++ name)))
            calls := state.calls.set index { call with status := .canceled } }
          else none
      | _ => none

end State

/-! ## What the limiters let through -/

/-- The rate and the burst of a new limiter. -/
def Action.registered : Action → Option (ℚ × Int)
  | .register _ rps burst => some (rps, burst)
  | _ => none

/-- What has been registered, in order. -/
def registrations (actions : List Action) : List (ℚ × Int) := actions.filterMap Action.registered

namespace Call

/-- The limiter has let the call through, or will if the context of the call allows. -/
def admitted (limiter : Nat) (call : Call) : Bool :=
  call.limiter == limiter && call.status != .canceled

/-- The permit that its reservation stands for. -/
def permit (call : Call) : Permit := call.reservation.permit call.delay

/-- The call has returned within a window of time. -/
def returnedWithin (opens closes : Int) (call : Call) : Bool :=
  match call.status with
  | .returned time => opens ≤ time && time ≤ closes
  | _ => false

/-- If the call has returned, then no later than `lag` after its tokens were due. -/
def prompt (lag : Int) (call : Call) : Bool :=
  match call.status with
  | .returned time => time ≤ call.reservation.timeToAct + lag
  | _ => true

/-- If the call has returned, then not before its tokens were due. -/
def patient (call : Call) : Bool :=
  match call.status with
  | .returned time => call.reservation.timeToAct ≤ time
  | _ => true

end Call

/-- The permits of the calls that a limiter lets through, newest first. -/
def permits (limiter : Nat) (calls : List Call) : List Permit :=
  ((calls.filter (Call.admitted limiter)).map Call.permit).reverse

/-- The calls at a limiter whose tokens are due at a time in the window. -/
def State.admitted (state : State) (limiter : Nat) (opens closes : Int) : List Call :=
  state.calls.filter fun call => call.permit.inside opens closes && call.admitted limiter

/-- The calls at a limiter that have returned within the window. -/
def State.returned (state : State) (limiter : Nat) (opens closes : Int) : List Call :=
  state.calls.filter fun call => call.returnedWithin opens closes && call.limiter == limiter

/-- The limiter that a client has found or waits at. -/
def State.limiterOf (state : State) (client : Nat) : Option Nat :=
  match state.stage client with
  | .found _ limiter => some limiter
  | .waiting _ index => state.calls[index]?.map Call.limiter
  | _ => none

/-- The times that reach a limiter are in order, and no wait is as long as the longest duration. -/
def Orderly (limiter : Nat) (state : State) : Action → Prop
  | .reserve client t _ _ => state.limiterOf client = some limiter →
      ∀ lim ∈ state.limiters[limiter]?, lim.last ≤ t ∧ lim.waitDuration t 1 < infDuration
  | .cancel client t _ => state.limiterOf client = some limiter →
      ∀ lim ∈ state.limiters[limiter]?, lim.last ≤ t
  | _ => True

instance (limiter : Nat) (state : State) (action : Action) :
    Decidable (Orderly limiter state action) := by
  cases action <;> unfold Orderly <;> infer_instance

/-! ## Steps -/

variable {limiter : Nat} {lim next : Limiter} {call : Call} {calls : List Call} {t n : Int}
  {deadline : Option Int} {ctxErr : Option String} {reservation : Reservation}
  {state after : State} {action : Action} {actions : List Action}

namespace State

/-- What a step does to the limiters and to the calls that have a reservation. -/
inductive Effect (state after : State) : Action → Prop where
  | register (name : String) (rps : ℚ) (burst : Int)
      (limiters : after.limiters = state.limiters ++ [newLimiter rps burst])
      (calls : after.calls = state.calls) : Effect state after (.register name rps burst)
  | none {action : Action} (registered : action.registered = none)
      (limiters : after.limiters = state.limiters) (calls : after.calls = state.calls) :
      Effect state after action
  | reserve {client : Nat} {t : Int} {deadline : Option Int} {ctxErr : Option String}
      {name : String} {limiter : Nat} {lim next : Limiter} {reservation : Reservation}
      (stage : state.stage client = .found name limiter)
      (found : state.limiters[limiter]? = some lim)
      (waits : lim.wait t 1 deadline ctxErr = .ok (reservation, next))
      (limiters : after.limiters = state.limiters.set limiter next)
      (calls : after.calls = state.calls ++ [{
        limiter, reservation, delay := reservation.delayFrom t, status := .waiting }]) :
      Effect state after (.reserve client t deadline ctxErr)
  | leave {client : Nat} {now : Int} {index : Nat} {call : Call}
      (found : state.calls[index]? = some call) (waits : call.status = .waiting)
      (due : call.reservation.timeToAct ≤ now) (limiters : after.limiters = state.limiters)
      (calls : after.calls = state.calls.set index { call with status := .returned now }) :
      Effect state after (.leave client now)
  | cancel {client : Nat} {t : Int} {ctxErr : String} {name : String} {index : Nat} {call : Call}
      {lim : Limiter} (stage : state.stage client = .waiting name index)
      (found : state.calls[index]? = some call)
      (known : state.limiters[call.limiter]? = some lim) (waits : call.status = .waiting)
      (delayed : call.delay ≠ 0)
      (limiters : after.limiters =
        state.limiters.set call.limiter (lim.cancelAt call.reservation t))
      (calls : after.calls = state.calls.set index { call with status := .canceled }) :
      Effect state after (.cancel client t ctxErr)

theorem step_effect (stepped : state.step action = some after) : Effect state after action := by
  cases action with
  | register name rps burst =>
      cases stepped
      exact .register name rps burst rfl rfl
  | lookup client name =>
      simp only [step] at stepped
      split at stepped
      · cases stepped
      · cases stepped
      · cases stepped
        exact .none rfl rfl rfl
  | reserve client t deadline ctxErr =>
      simp only [step] at stepped
      split at stepped
      · rename_i name limiter stage
        obtain ⟨lim, found, stepped⟩ := Option.bind_eq_some_iff.mp stepped
        split at stepped
        · cases stepped
          exact .none rfl rfl rfl
        · rename_i reservation next waits
          cases stepped
          exact .reserve stage found waits rfl rfl
      · cases stepped
  | leave client now =>
      simp only [step] at stepped
      split at stepped
      · obtain ⟨call, found, stepped⟩ := Option.bind_eq_some_iff.mp stepped
        split at stepped
        · rename_i waits
          cases stepped
          exact .leave found waits.1 waits.2 rfl rfl
        · cases stepped
      · cases stepped
  | cancel client t ctxErr =>
      simp only [step] at stepped
      split at stepped
      · rename_i name index stage
        obtain ⟨call, found, stepped⟩ := Option.bind_eq_some_iff.mp stepped
        obtain ⟨lim, known, stepped⟩ := Option.bind_eq_some_iff.mp stepped
        split at stepped
        · rename_i waits
          cases stepped
          exact .cancel stage found known waits.1 waits.2 rfl rfl
        · cases stepped
      · cases stepped

end State

/-- A limiter that lets a caller in has made a reservation for it. -/
theorem Limiter.wait_ok (waits : lim.wait t n deadline ctxErr = .ok (reservation, next)) :
    lim.reserveN t n (waitLimit t deadline) = (reservation, next) ∧ reservation.ok = true := by
  unfold wait at waits
  split at waits
  · cases waits
  split at waits
  · cases waits
  · simp only at waits
    split at waits
    · cases waits
      exact ⟨rfl, ‹_›⟩
    · cases waits

/-! ## Limits and bursts -/

/-- What a limiter was registered with. -/
def Limiter.constants (lim : Limiter) : ℚ × Int := (lim.limit, lim.burst)

theorem Limiter.reserveN_constants (lim : Limiter) (t n maxFutureReserve : Int) :
    (lim.reserveN t n maxFutureReserve).2.constants = lim.constants := by
  unfold reserveN
  split
  · rfl
  · split <;> rfl

theorem Limiter.wait_constants (waits : lim.wait t n deadline ctxErr = .ok (reservation, next)) :
    next.constants = lim.constants := by
  have kept := lim.reserveN_constants t n (waitLimit t deadline)
  rwa [(wait_ok waits).1] at kept

theorem Limiter.cancelAt_constants (lim : Limiter) (reservation : Reservation) (t : Int) :
    (lim.cancelAt reservation t).constants = lim.constants := by
  unfold cancelAt
  simp only
  split
  · rfl
  · split
    · rfl
    · split <;> rfl

theorem map_constants_set {limiters : List Limiter} (found : limiters[limiter]? = some lim)
    (same : next.constants = lim.constants) :
    (limiters.set limiter next).map Limiter.constants = limiters.map Limiter.constants := by
  rw [List.map_set, same]
  apply List.ext_getElem?
  intro index
  rw [List.getElem?_set]
  split
  · rename_i here
    subst here
    have inside : limiter < limiters.length := (List.getElem?_eq_some_iff.mp found).1
    rw [if_pos (by simpa using inside), List.getElem?_map, found]
    rfl
  · rfl

/-- Nothing changes what the limiters were registered with. -/
theorem constants_eq_registrations (ran : runFrom State.step .start actions = some state) :
    state.limiters.map Limiter.constants = registrations actions := by
  refine @runFrom_history _ _ State.step .start state actions (fun actions state =>
    state.limiters.map Limiter.constants = registrations actions) ?_ rfl ran
  intro actions state action after _ same stepped
  have more : registrations (actions ++ [action]) =
      registrations actions ++ action.registered.toList := by
    rw [registrations, List.filterMap_append, registrations]
    cases action <;> rfl
  rw [more, ← same]
  cases State.step_effect stepped with
  | register name rps burst limiters _ =>
      rw [limiters, List.map_append]
      rfl
  | none registered limiters _ =>
      rw [limiters, registered]
      exact (List.append_nil _).symm
  | reserve _ found waits limiters _ =>
      rw [limiters, map_constants_set found (Limiter.wait_constants waits)]
      exact (List.append_nil _).symm
  | leave _ _ _ limiters _ =>
      rw [limiters]
      exact (List.append_nil _).symm
  | cancel _ _ known _ _ limiters _ =>
      rw [limiters, map_constants_set known (Limiter.cancelAt_constants ..)]
      exact (List.append_nil _).symm

/-! ## The permits of a limiter -/

theorem permits_append (earlier later : List Call) :
    permits limiter (earlier ++ later) = permits limiter later ++ permits limiter earlier := by
  simp [permits]

theorem permits_cons (earlier later : List Call) :
    permits limiter (earlier ++ call :: later) =
      permits limiter later ++ (permits limiter [call] ++ permits limiter earlier) := by
  rw [List.append_cons, permits_append, permits_append]

theorem permits_admitted (admitted : call.admitted limiter = true) :
    permits limiter [call] = [call.permit] := by
  simp [permits, admitted]

theorem permits_other (other : call.admitted limiter = false) : permits limiter [call] = [] := by
  simp [permits, other]

/-- A list around one of its elements. -/
theorem exists_split {index : Nat} (found : calls[index]? = some call) :
    ∃ earlier later, calls = earlier ++ call :: later ∧
      ∀ other, calls.set index other = earlier ++ other :: later := by
  induction calls generalizing index with
  | nil => simp at found
  | cons first rest ih =>
      cases index with
      | zero =>
          cases found
          exact ⟨[], rest, rfl, fun _ => rfl⟩
      | succ index =>
          obtain ⟨earlier, later, whole, others⟩ := ih found
          refine ⟨first :: earlier, later, by rw [whole]; rfl, fun other => ?_⟩
          rw [List.set_cons_succ, others]
          rfl

theorem length_admitted (state : State) (limiter : Nat) (opens closes : Int) :
    (state.admitted limiter opens closes).length =
      (within opens closes (permits limiter state.calls)).length := by
  rw [within, permits, List.filter_reverse, List.length_reverse, List.filter_map,
    List.length_map, List.filter_filter]
  rfl

/-! ## What every step keeps -/

/-- A call that has a reservation of one token at a limiter. -/
structure Call.Fits (lim : Limiter) (call : Call) : Prop where
  /-- The limiter has room for a token. -/
  room : 1 ≤ lim.burst
  /-- The reservation takes one token. -/
  tokens : call.reservation.tokens = 1
  /-- It was made at the rate of the limiter. -/
  limit : call.reservation.limit = lim.limit

theorem Call.Fits.congr (fits : call.Fits lim) (same : next.constants = lim.constants) :
    call.Fits next := by
  obtain ⟨limit, burst⟩ := Prod.ext_iff.mp same
  exact ⟨fits.room.trans_eq burst.symm, fits.tokens, fits.limit.trans limit.symm⟩

/-- A limiter and the calls that have a reservation there. -/
structure Kept (limiter : Nat) (lim : Limiter) (calls : List Call) : Prop where
  /-- The reservations are paced by the bucket. -/
  paced : Paced lim.gap lim.burst.toNat lim.due lim.last lim.lastEvent (permits limiter calls)
  /-- None is further ahead than a duration can say. -/
  near : lim.lastEvent ≤ lim.last + infDuration
  /-- Each takes one token at the rate of the limiter. -/
  fits : ∀ call ∈ calls, call.limiter = limiter → call.Fits lim

/-- A limiter that has just been registered. -/
theorem kept_newLimiter {rps : ℚ} {burst : Int} (finite : (newLimiter rps burst).Finite)
    (unused : ∀ call ∈ calls, call.limiter ≠ limiter) :
    Kept limiter (newLimiter rps burst) calls := by
  have nothing : calls.filter (Call.admitted limiter) = [] := by
    rw [List.filter_eq_nil_iff]
    intro call mem
    simp [Call.admitted, unused call mem]
  refine ⟨?_, by simp [newLimiter, infDuration], fun call mem here => absurd here (unused call mem)⟩
  rw [permits, nothing]
  exact Program.Permit.paced_nil finite.gap_pos.le

namespace Kept

variable (kept : Kept limiter lim calls)
include kept

/-- A reservation at another limiter. -/
theorem append_other (elsewhere : call.limiter ≠ limiter) : Kept limiter lim (calls ++ [call]) := by
  refine ⟨?_, kept.near, ?_⟩
  · rw [permits_append, permits_other (by simp [Call.admitted, elsewhere])]
    exact kept.paced
  · intro other mem here
    rcases List.mem_append.mp mem with mem | mem
    · exact kept.fits other mem here
    · rw [List.mem_singleton.mp mem] at here
      exact absurd here elsewhere

/-- A reservation at this limiter. -/
theorem reserve (finite : lim.Finite) (ordered : lim.last ≤ t)
    (near : lim.waitDuration t 1 < infDuration)
    (waits : lim.wait t 1 deadline ctxErr = .ok (reservation, next)) :
    Kept limiter next (calls ++ [{
      limiter, reservation, delay := reservation.delayFrom t, status := .waiting }]) := by
  have constants := Limiter.wait_constants waits
  obtain ⟨reserved, granted⟩ := Limiter.wait_ok waits
  have first : (lim.reserveN t 1 (Limiter.waitLimit t deadline)).1.ok = true := by rwa [reserved]
  have given := finite.given ordered near first
  obtain ⟨room, result⟩ := finite.reserveN_ok first
  rw [reserved] at given result
  cases result
  refine ⟨?_, ?_, ?_⟩
  · rw [permits_append, permits_admitted (by simp [Call.admitted])]
    exact kept.paced.give given
  · simp only
    omega
  · intro call mem here
    rcases List.mem_append.mp mem with mem | mem
    · exact (kept.fits call mem here).congr constants
    · rw [List.mem_singleton.mp mem]
      exact ⟨room, rfl, rfl⟩

/-- What becomes of a call leaves its reservation alone. -/
theorem fits_set {earlier later : List Call} {status : Status}
    (whole : calls = earlier ++ call :: later) (other : Call)
    (mem : other ∈ earlier ++ { call with status } :: later) (here : other.limiter = limiter) :
    other.Fits lim := by
  have fits := kept.fits
  rw [whole] at fits
  rcases List.mem_append.mp mem with before | after
  · exact fits other (List.mem_append_left _ before) here
  · rcases List.mem_cons.mp after with rfl | after
    · have old := fits call (by simp) here
      exact ⟨old.room, old.tokens, old.limit⟩
    · exact fits other (by simp [after]) here

/-- A call returns. -/
theorem leave {index : Nat} {now : Int} (found : calls[index]? = some call)
    (waits : call.status = .waiting) :
    Kept limiter lim (calls.set index { call with status := .returned now }) := by
  obtain ⟨earlier, later, whole, others⟩ := exists_split found
  rw [others]
  refine ⟨?_, kept.near, kept.fits_set whole⟩
  have same : permits limiter [{ call with status := .returned now }] = permits limiter [call] := by
    cases here : call.limiter == limiter <;>
      simp [permits, Call.admitted, Call.permit, waits, here]
  rw [permits_cons, same, ← permits_cons, ← whole]
  exact kept.paced

/-- A call at another limiter is cancelled. -/
theorem cancel_other {index : Nat} (found : calls[index]? = some call)
    (elsewhere : call.limiter ≠ limiter) :
    Kept limiter lim (calls.set index { call with status := .canceled }) := by
  obtain ⟨earlier, later, whole, others⟩ := exists_split found
  rw [others]
  refine ⟨?_, kept.near, kept.fits_set whole⟩
  have same : permits limiter [{ call with status := .canceled }] = permits limiter [call] := by
    simp [permits, Call.admitted, elsewhere]
  rw [permits_cons, same, ← permits_cons, ← whole]
  exact kept.paced

/-- A call at this limiter is cancelled. -/
theorem cancel {index : Nat} (finite : lim.Finite) (ordered : lim.last ≤ t)
    (found : calls[index]? = some call) (waits : call.status = .waiting)
    (delayed : call.delay ≠ 0) (here : call.limiter = limiter) :
    Kept limiter (lim.cancelAt call.reservation t)
      (calls.set index { call with status := .canceled }) := by
  obtain ⟨earlier, later, whole, others⟩ := exists_split found
  have mem := List.mem_of_getElem? found
  have fits := kept.fits call mem here
  have constants := lim.cancelAt_constants call.reservation t
  obtain ⟨limit, burst⟩ := Prod.ext_iff.mp constants
  have positive := finite.gap_pos.le
  have one : permits limiter [call] = [call.permit] :=
    permits_admitted (by simp [Call.admitted, here, waits])
  have nothing : permits limiter [{ call with status := .canceled }] = [] :=
    permits_other (by simp [Call.admitted])
  have paced := kept.paced
  rw [whole, permits_cons, one, List.singleton_append] at paced
  have known : call.reservation.timeToAct ≤ lim.lastEvent := paced.latest call.permit (by simp)
  rw [others]
  have fitting : ∀ other ∈ earlier ++ { call with status := .canceled } :: later,
      other.limiter = limiter → other.Fits (lim.cancelAt call.reservation t) :=
    fun other mem here => (kept.fits_set whole other mem here).congr constants
  rcases finite.returned ordered fits.tokens fits.limit delayed known kept.near with
    same | ⟨last, returned⟩
  · rw [same] at fitting ⊢
    refine ⟨?_, kept.near, fitting⟩
    rw [permits_cons, nothing, List.nil_append]
    exact paced.forget positive
  · have gap : (lim.cancelAt call.reservation t).gap = lim.gap := by
      rw [Limiter.gap, Limiter.gap]
      exact congrArg _ limit
    have burst : (lim.cancelAt call.reservation t).burst = lim.burst := burst
    refine ⟨?_, ?_, fitting⟩
    · rw [permits_cons, nothing, List.nil_append, gap, last, burst]
      have room := fits.room
      exact paced.withdraw returned positive (by omega)
    · have near := kept.near
      have nonneg := Int.floor_nonneg.mpr positive
      rw [last]
      rcases returned.latest with same | ⟨_, moved, _⟩
      · omega
      · rw [moved]
        simp only [Reservation.permit]
        omega

end Kept

theorem Limiter.Finite.congr (finite : lim.Finite) (same : next.constants = lim.constants) :
    next.Finite := by
  have limit : next.limit = lim.limit := (Prod.ext_iff.mp same).1
  exact ⟨limit ▸ finite.positive, limit ▸ finite.finite⟩

/-- What holds of one limiter in every state. -/
structure Invariant (limiter : Nat) (state : State) : Prop where
  /-- Every call is at a limiter that is registered. -/
  known : ∀ call ∈ state.calls, call.limiter < state.limiters.length
  /-- A limiter with a finite rate keeps its calls apart. -/
  kept : ∀ lim, state.limiters[limiter]? = some lim → lim.Finite → Kept limiter lim state.calls

theorem invariant_start (limiter : Nat) : Invariant limiter .start :=
  ⟨by simp [State.start], by simp [State.start]⟩

namespace Invariant

variable (holds : Invariant limiter state)
include holds

theorem register {rps : ℚ} {burst : Int}
    (limiters : after.limiters = state.limiters ++ [newLimiter rps burst])
    (calls : after.calls = state.calls) : Invariant limiter after := by
  refine ⟨fun call mem => ?_, fun lim found finite => ?_⟩
  · rw [calls] at mem
    have known := holds.known call mem
    rw [limiters, List.length_append]
    omega
  · rw [calls]
    rw [limiters] at found
    by_cases old : limiter < state.limiters.length
    · rw [List.getElem?_append_left old] at found
      exact holds.kept lim found finite
    · have new : lim = newLimiter rps burst := by
        rw [List.getElem?_append_right (by omega)] at found
        exact List.mem_singleton.mp (List.mem_of_getElem? found)
      subst new
      refine kept_newLimiter finite fun call mem here => ?_
      have known := holds.known call mem
      omega

/-- A call stays with its limiter. -/
theorem known_set {index : Nat} {status : Status} {other : Call}
    (found : state.calls[index]? = some call)
    (mem : other ∈ state.calls.set index { call with status }) :
    other.limiter < state.limiters.length := by
  rcases List.mem_or_eq_of_mem_set mem with mem | rfl
  · exact holds.known other mem
  · exact holds.known call (List.mem_of_getElem? found)

theorem step (orderly : Orderly limiter state action) (stepped : state.step action = some after) :
    Invariant limiter after := by
  cases State.step_effect stepped with
  | register name rps burst limiters calls => exact holds.register limiters calls
  | none _ limiters calls =>
      refine ⟨?_, ?_⟩
      · rw [limiters, calls]
        exact holds.known
      · rw [limiters, calls]
        exact holds.kept
  | @reserve client t deadline ctxErr name index lim next reservation stage found waits limiters
      calls =>
      refine ⟨fun call mem => ?_, fun lim' found' finite => ?_⟩
      · rw [limiters, List.length_set]
        rw [calls] at mem
        rcases List.mem_append.mp mem with mem | mem
        · exact holds.known call mem
        · rw [List.mem_singleton.mp mem]
          exact (List.getElem?_eq_some_iff.mp found).1
      · rw [calls]
        rw [limiters] at found'
        by_cases here : index = limiter
        · subst here
          rw [List.getElem?_set_self (List.getElem?_eq_some_iff.mp found).1] at found'
          cases found'
          obtain ⟨ordered, near⟩ := orderly (by rw [State.limiterOf, stage]) lim found
          have finite := finite.congr (Limiter.wait_constants waits).symm
          exact (holds.kept lim found finite).reserve finite ordered near waits
        · rw [List.getElem?_set_ne here] at found'
          exact (holds.kept lim' found' finite).append_other here
  | leave found waits _ limiters calls =>
      refine ⟨fun call mem => ?_, fun lim found' finite => ?_⟩
      · rw [limiters]
        rw [calls] at mem
        exact holds.known_set found mem
      · rw [calls]
        rw [limiters] at found'
        exact (holds.kept lim found' finite).leave found waits
  | @cancel client t ctxErr name index call lim stage found known waits delayed limiters calls =>
      refine ⟨fun other mem => ?_, fun lim' found' finite => ?_⟩
      · rw [limiters, List.length_set]
        rw [calls] at mem
        exact holds.known_set found mem
      · rw [calls]
        rw [limiters] at found'
        by_cases here : call.limiter = limiter
        · rw [here] at known found'
          rw [List.getElem?_set_self (List.getElem?_eq_some_iff.mp known).1] at found'
          cases found'
          have finite := finite.congr (lim.cancelAt_constants call.reservation t).symm
          have itself : state.limiterOf client = some limiter := by
            simp only [State.limiterOf, stage, found, Option.map_some, here]
          have ordered := orderly itself lim known
          exact (holds.kept lim known finite).cancel finite ordered found waits delayed here
        · rw [List.getElem?_set_ne here] at found'
          exact (holds.kept lim' found' finite).cancel_other found here

end Invariant

/-! ## Every window of every run -/

section Window

variable {opens closes : Int} {rps : ℚ} {burst : Int}
  (ran : runFrom State.step .start actions = some state)
  (orderly : ∀ middle action, Takes State.step .start actions middle action →
    Orderly limiter middle action)
  (registered : (registrations actions)[limiter]? = some (rps, burst))
  (positive : 0 < rps) (finite : rps ≠ inf) (window : opens ≤ closes)

include ran

/-- No call returns before its tokens are due. -/
theorem patient_of_run : ∀ call ∈ state.calls, call.patient = true := by
  refine @runFrom_invariant _ _ State.step .start state actions
    (fun state => ∀ call ∈ state.calls, call.patient = true) ?_ (by simp [State.start]) ran
  intro state action after patient stepped
  -- Only the call that an action changes has a new status.
  have replaced : ∀ {index : Nat} {changed : Call}, changed.patient = true →
      ∀ other ∈ state.calls.set index changed, other.patient = true := by
    intro index changed itself other mem
    rcases List.mem_or_eq_of_mem_set mem with mem | rfl
    · exact patient other mem
    · exact itself
  cases State.step_effect stepped with
  | register _ _ _ _ calls => rwa [calls]
  | none _ _ calls => rwa [calls]
  | reserve _ _ _ _ calls =>
      rw [calls]
      exact List.forall_mem_append.mpr ⟨patient, by simp [Call.patient]⟩
  | leave _ _ due _ calls =>
      rw [calls]
      exact replaced (by simpa [Call.patient] using due)
  | cancel _ _ _ _ _ _ calls =>
      rw [calls]
      exact replaced (by simp [Call.patient])

include orderly registered positive finite window

/-- In a window of time no more calls become due than the burst and what the rate gives for that
time. -/
theorem length_due_le :
    ((state.admitted limiter opens closes).length : ℚ) ≤
      burst.toNat + rps * (closes + 1 - opens) / 10 ^ 9 := by
  have holds : Invariant limiter state :=
    runFrom_guarded (fun holds orderly stepped => holds.step orderly stepped)
      (invariant_start limiter) orderly ran
  rw [← constants_eq_registrations ran, List.getElem?_map, Option.map_eq_some_iff] at registered
  obtain ⟨lim, found, constants⟩ := registered
  cases constants
  have rate : lim.Finite := ⟨positive, finite⟩
  have bounded := (holds.kept lim found rate).paced.bounded opens closes window
  rw [← length_admitted] at bounded
  have whole : lim.limit * (closes + 1 - opens) / 10 ^ 9 * lim.gap = (closes + 1 - opens : ℚ) := by
    have nonzero := positive.ne'
    rw [Limiter.gap, second]
    push_cast
    field_simp
    norm_num
  refine le_of_mul_le_mul_right ?_ rate.gap_pos
  rw [add_mul, whole]
  push_cast at bounded
  exact bounded

end Window

/-- A call that returns promptly within a window was due in a window that opens earlier by the
lag. -/
theorem Call.inside_of_returnedWithin {opens closes lag : Int} (patient : call.patient = true)
    (prompt : call.prompt lag = true) (returned : call.returnedWithin opens closes = true) :
    call.permit.inside (opens - lag) closes = true ∧ call.status ≠ .canceled := by
  cases status : call.status with
  | waiting => simp [returnedWithin, status] at returned
  | canceled => simp [returnedWithin, status] at returned
  | returned time =>
      simp only [Call.patient, Call.prompt, returnedWithin, status, Bool.and_eq_true,
        decide_eq_true_eq] at patient prompt returned
      refine ⟨Bool.and_eq_true_iff.mpr ⟨decide_eq_true ?_, decide_eq_true ?_⟩, by simp⟩ <;>
        simp only [permit, Reservation.permit] <;> omega

/-- Whatever calls come, are cancelled or are registered anew: if no call returns later than a lag
after its tokens are due, no more calls return within a window of time than the burst and what the
rate gives for that time and the lag. -/
theorem length_returned_le {opens closes lag : Int} {rps : ℚ} {burst : Int}
    (ran : runFrom State.step .start actions = some state)
    (orderly : ∀ middle action, Takes State.step .start actions middle action →
      Orderly limiter middle action)
    (registered : (registrations actions)[limiter]? = some (rps, burst))
    (positive : 0 < rps) (finite : rps ≠ inf) (window : opens ≤ closes) (nonneg : 0 ≤ lag)
    (prompt : ∀ call ∈ state.calls, call.prompt lag = true) :
    ((state.returned limiter opens closes).length : ℚ) ≤
      burst.toNat + rps * (closes + lag + 1 - opens) / 10 ^ 9 := by
  have fewer : (state.returned limiter opens closes).length ≤
      (state.admitted limiter (opens - lag) closes).length := by
    rw [State.returned, State.admitted, ← List.countP_eq_length_filter,
      ← List.countP_eq_length_filter]
    refine List.countP_mono_left fun call mem returned => ?_
    obtain ⟨returned, here⟩ := Bool.and_eq_true_iff.mp returned
    obtain ⟨inside, kept⟩ :=
      Call.inside_of_returnedWithin (patient_of_run ran call mem) (prompt call mem) returned
    simp [inside, Call.admitted, kept, beq_iff_eq.mp here]
  have earlier : opens - lag ≤ closes := by omega
  have due := length_due_le ran orderly registered positive finite earlier
  have counted : ((state.returned limiter opens closes).length : ℚ) ≤
      (state.admitted limiter (opens - lag) closes).length := by exact_mod_cast fewer
  refine counted.trans (due.trans_eq ?_)
  push_cast
  ring

/-- Two calls use up the burst, a third waits and is cancelled, and a fourth waits in its place.
The first call returns as late as the fourth. -/
def oneCanceled : List Action :=
  [.register "api" 1 2, .lookup 0 "api", .lookup 1 "api", .lookup 2 "api", .lookup 3 "api",
    .reserve 0 1000000000 none none, .reserve 1 1000000000 none none, .leave 1 1000000000,
    .reserve 2 1500000000 none none, .cancel 2 1600000000 "context canceled",
    .reserve 3 1700000000 none none, .leave 0 2000000000, .leave 3 2000000000]

theorem length_returned_le_oneCanceled : ∃ state,
    runFrom State.step .start oneCanceled = some state ∧
      (state.returned 0 2000000000 2000000000).length = 2 ∧
      ((state.returned 0 2000000000 2000000000).length : ℚ) ≤ (2 : Int).toNat +
        1 * ((2000000000 : Int) + (1000000000 : Int) + 1 - (2000000000 : Int)) / 10 ^ 9 := by
  obtain ⟨state, ran⟩ := Option.isSome_iff_exists.mp
    (show (runFrom State.step .start oneCanceled).isSome = true by decide +kernel)
  have count : (runFrom State.step .start oneCanceled).map (fun state =>
      ((state.returned 0 2000000000 2000000000).length, state.calls.all (Call.prompt 1000000000))) =
      some (2, true) := by
    decide +kernel
  rw [ran] at count
  obtain ⟨two, prompt⟩ := Prod.ext_iff.mp (Option.some.inj count)
  exact ⟨state, ran, two, length_returned_le ran (takes_of_checks (by decide +kernel)) rfl
    (by norm_num) (by decide +kernel) (by norm_num) (by norm_num) (List.all_eq_true.mp prompt)⟩

end CommonGo.Ratelimit
