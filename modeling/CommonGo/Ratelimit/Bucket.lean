import CommonGo.Program.Permits
import Mathlib.Tactic.FieldSimp

/-!
# The token bucket behind a rate limiter

`rate.Limiter` keeps a number of tokens and the time at which it counted them.  A reservation takes
its tokens at once, also where they are not there yet, and is told how long to wait for them.  A
reservation that is cancelled gives back what later ones have not been built on.

Times and durations are nanoseconds, and a time counts from the zero `Time`.  Tokens are exact
numbers: the rounding of `float64` is left out.
-/

namespace CommonGo.Ratelimit

open Program (Permit)
open Program.Permit (Given Returned Paced)

/-! ## The limiter -/

/-- `rate.Inf`, the largest `float64`. -/
def inf : ℚ := (2 ^ 53 - 1) * 2 ^ 971

/-- `rate.InfDuration`, the largest duration. -/
def infDuration : Int := 2 ^ 63 - 1

/-- `time.Second`. -/
def second : Int := 10 ^ 9

/-- `Time.Sub`, which stops at the smallest and the largest duration. -/
def sub (time other : Int) : Int := max (-2 ^ 63) (min infDuration (time - other))

/-- `time.Duration` of a number: it is rounded toward zero. -/
def duration (number : ℚ) : Int := if 0 ≤ number then ⌊number⌋ else ⌈number⌉

/-- `Limit.tokensFromDuration`. -/
def tokensFromDuration (limit : ℚ) (d : Int) : ℚ :=
  if limit ≤ 0 then 0 else d / second * limit

/-- `Limit.durationFromTokens`. -/
def durationFromTokens (limit tokens : ℚ) : Int :=
  if limit ≤ 0 then infDuration
  else if (infDuration : ℚ) < tokens / limit * second then infDuration
  else duration (tokens / limit * second)

/-- `rate.Limiter`. -/
structure Limiter where
  /-- The tokens that come in every second. -/
  limit : ℚ
  /-- The most tokens that the bucket holds. -/
  burst : Int
  /-- The tokens in the bucket when it was last used. -/
  tokens : ℚ
  /-- When it was last used. -/
  last : Int
  /-- The latest time at which a reservation may act. -/
  lastEvent : Int
  deriving DecidableEq, Repr

/-- `rate.NewLimiter`. -/
def newLimiter (limit : ℚ) (burst : Int) : Limiter :=
  { limit, burst, tokens := burst, last := 0, lastEvent := 0 }

/-- `rate.Reservation`. -/
structure Reservation where
  /-- Whether the reservation was made. -/
  ok : Bool
  /-- How many tokens it takes. -/
  tokens : Int
  /-- When its holder may act. -/
  timeToAct : Int
  /-- The rate at the time of the reservation. -/
  limit : ℚ
  deriving DecidableEq, Repr

/-- `Reservation.DelayFrom`. -/
def Reservation.delayFrom (reservation : Reservation) (t : Int) : Int :=
  if reservation.ok then
    if sub reservation.timeToAct t < 0 then 0 else sub reservation.timeToAct t
  else infDuration

namespace Limiter

/-- No more tokens than the burst. -/
def capped (lim : Limiter) (tokens : ℚ) : ℚ := if lim.burst < tokens then lim.burst else tokens

/-- `Limiter.advance`. -/
def advance (lim : Limiter) (t : Int) : ℚ :=
  let last := if t < lim.last then t else lim.last
  lim.capped (lim.tokens + tokensFromDuration lim.limit (sub t last))

/-- How long `reserveN` would wait for `n` tokens. -/
def waitDuration (lim : Limiter) (t n : Int) : Int :=
  if lim.advance t - n < 0 then durationFromTokens lim.limit (-(lim.advance t - n)) else 0

/-- `Limiter.reserveN`. -/
def reserveN (lim : Limiter) (t n maxFutureReserve : Int) : Reservation × Limiter :=
  if lim.limit = inf then ({ ok := true, tokens := n, timeToAct := t, limit := 0 }, lim)
  else if n ≤ lim.burst ∧ lim.waitDuration t n ≤ maxFutureReserve then
    ({ ok := true, tokens := n, timeToAct := t + lim.waitDuration t n, limit := lim.limit },
      { lim with
        last := t, tokens := lim.advance t - n, lastEvent := t + lim.waitDuration t n })
  else ({ ok := false, tokens := 0, timeToAct := 0, limit := lim.limit }, lim)

/-- `Reservation.CancelAt`. -/
def cancelAt (lim : Limiter) (reservation : Reservation) (t : Int) : Limiter :=
  if !reservation.ok then lim
  else if lim.limit = inf ∨ reservation.tokens = 0 ∨ reservation.timeToAct < t then lim
  else
    let restoreTokens := reservation.tokens -
      tokensFromDuration reservation.limit (sub lim.lastEvent reservation.timeToAct)
    if restoreTokens ≤ 0 then lim
    else
      let prevEvent :=
        reservation.timeToAct + durationFromTokens reservation.limit (-reservation.tokens)
      { lim with
        last := t
        tokens := lim.capped (lim.advance t + restoreTokens)
        lastEvent :=
          if reservation.timeToAct = lim.lastEvent ∧ ¬ prevEvent < t then prevEvent
          else lim.lastEvent }

/-- How long `Limiter.wait` may wait for a context. -/
def waitLimit (t : Int) : Option Int → Int
  | some deadline => sub deadline t
  | none => infDuration

/-- `Limiter.wait` as far as its timer, with the error of a context that is already done.  Nothing
changes the burst or the limit, so they are as they were when the first lock was held. -/
def wait (lim : Limiter) (t n : Int) (deadline : Option Int) (ctxErr : Option String) :
    Except String (Reservation × Limiter) :=
  if lim.burst < n ∧ lim.limit ≠ inf then
    .error ("rate: Wait(n=" ++ toString n ++ ") exceeds limiter's burst " ++ toString lim.burst)
  else
    match ctxErr with
    | some err => .error err
    | none =>
        let (reservation, next) := lim.reserveN t n (waitLimit t deadline)
        if reservation.ok then .ok (reservation, next)
        else .error ("rate: Wait(n=" ++ toString n ++ ") would exceed context deadline")

end Limiter

/-! ## Units -/

/-- The time in which one token is gained. -/
def Limiter.gap (lim : Limiter) : ℚ := second / lim.limit

/-- The time at which the bucket was, or will be, empty. -/
def Limiter.due (lim : Limiter) : ℚ := lim.last - lim.tokens * lim.gap

/-- The limiter lets tokens come in, but not all at once. -/
structure Limiter.Finite (lim : Limiter) : Prop where
  /-- Tokens come in. -/
  positive : 0 < lim.limit
  /-- They do not come in all at once. -/
  finite : lim.limit ≠ inf

variable {lim : Limiter} {t n maxFutureReserve : Int} {reservation : Reservation}

theorem sub_le (ordered : n ≤ t) : sub t n ≤ t - n := by
  unfold sub infDuration
  omega

theorem sub_eq (ordered : n ≤ t) (near : t ≤ n + infDuration) : sub t n = t - n := by
  unfold sub
  unfold infDuration at near ⊢
  omega

namespace Limiter

theorem Finite.gap_pos (finite : lim.Finite) : 0 < lim.gap :=
  div_pos (by norm_num [second]) finite.positive

theorem Finite.tokensFromDuration_mul (finite : lim.Finite) (d : Int) :
    tokensFromDuration lim.limit d * lim.gap = d := by
  have positive := finite.positive
  rw [tokensFromDuration, if_neg (not_le.mpr positive), gap]
  have whole : (second : ℚ) ≠ 0 := by norm_num [second]
  field_simp

theorem Finite.durationFromTokens_eq (finite : lim.Finite) (tokens : ℚ) :
    durationFromTokens lim.limit tokens =
      if (infDuration : ℚ) < tokens * lim.gap then infDuration
      else duration (tokens * lim.gap) := by
  have positive := finite.positive
  have scaled : tokens / lim.limit * second = tokens * lim.gap := by
    rw [gap]
    ring
  rw [durationFromTokens, if_neg (not_le.mpr positive), scaled]

/-- Going back by one token. -/
theorem Finite.durationFromTokens_one (finite : lim.Finite) :
    durationFromTokens lim.limit (-((1 : Int) : ℚ)) = -⌊lim.gap⌋ := by
  have positive := finite.gap_pos
  have large : (0 : ℚ) ≤ infDuration := by norm_num [infDuration]
  have whole : -((1 : Int) : ℚ) * lim.gap = -lim.gap := by
    push_cast
    ring
  rw [finite.durationFromTokens_eq, whole, if_neg (by linarith), duration, if_neg (by linarith),
    Int.ceil_neg]

theorem capped_le_burst (lim : Limiter) (tokens : ℚ) : lim.capped tokens ≤ lim.burst := by
  unfold capped
  split
  · exact le_rfl
  · exact not_lt.mp ‹_›

theorem capped_le (lim : Limiter) (tokens : ℚ) : lim.capped tokens ≤ tokens := by
  unfold capped
  split
  · exact le_of_lt ‹_›
  · exact le_rfl

/-- The bucket is not empty earlier for having been looked at. -/
theorem Finite.due_le (finite : lim.Finite) (ordered : lim.last ≤ t) :
    lim.due ≤ t - lim.advance t * lim.gap := by
  have bound : lim.advance t ≤ lim.tokens + tokensFromDuration lim.limit (sub t lim.last) := by
    rw [advance, if_neg (not_lt.mpr ordered)]
    exact lim.capped_le _
  have scaled := mul_le_mul_of_nonneg_right bound finite.gap_pos.le
  rw [add_mul, finite.tokensFromDuration_mul] at scaled
  have elapsed : ((sub t lim.last : Int) : ℚ) ≤ t - lim.last := by
    exact_mod_cast sub_le ordered
  unfold due
  linarith

/-! ## What a reservation does -/

/-- The wait is that for the tokens that are missing, to the nanosecond below. -/
theorem Finite.waitDuration_spec (finite : lim.Finite) (near : lim.waitDuration t n < infDuration) :
    0 ≤ lim.waitDuration t n ∧
      (n - lim.advance t) * lim.gap < lim.waitDuration t n + 1 ∧
      (lim.waitDuration t n ≠ 0 → lim.waitDuration t n ≤ (n - lim.advance t) * lim.gap) := by
  have positive := finite.gap_pos
  by_cases missing : lim.advance t - n < 0
  · have nonneg : 0 ≤ (n - lim.advance t) * lim.gap := mul_nonneg (by linarith) positive.le
    rw [waitDuration, if_pos missing, finite.durationFromTokens_eq, neg_sub] at near ⊢
    split at near
    · omega
    · rw [if_neg ‹_›, duration, if_pos nonneg]
      exact ⟨Int.floor_nonneg.mpr nonneg, Int.lt_floor_add_one _, fun _ => Int.floor_le _⟩
  · rw [waitDuration, if_neg missing]
    have nonpositive : (n - lim.advance t) * lim.gap ≤ 0 :=
      mul_nonpos_of_nonpos_of_nonneg (by linarith) positive.le
    refine ⟨le_rfl, ?_, fun no => absurd rfl no⟩
    push_cast
    linarith

theorem due_spent (lim : Limiter) (t n lastEvent : Int) :
    { lim with last := t, tokens := lim.advance t - n, lastEvent := lastEvent : Limiter }.due =
      t + (n - lim.advance t) * lim.gap := by
  simp only [due, gap]
  ring

/-- The reservation that a limiter of finite rate gives. -/
theorem Finite.reserveN_ok (finite : lim.Finite)
    (granted : (lim.reserveN t n maxFutureReserve).1.ok = true) :
    n ≤ lim.burst ∧ lim.reserveN t n maxFutureReserve =
      ({ ok := true, tokens := n, timeToAct := t + lim.waitDuration t n, limit := lim.limit },
        { lim with
          last := t, tokens := lim.advance t - n, lastEvent := t + lim.waitDuration t n }) := by
  rw [reserveN, if_neg finite.finite] at granted ⊢
  by_cases allowed : n ≤ lim.burst ∧ lim.waitDuration t n ≤ maxFutureReserve
  · rw [if_pos allowed]
    exact ⟨allowed.1, rfl⟩
  · rw [if_neg allowed] at granted
    simp at granted

end Limiter

/-- The permit that a reservation stands for, if it was made at `t`. -/
def Reservation.permit (reservation : Reservation) (delay : Int) : Permit :=
  { act := reservation.timeToAct, delayed := delay != 0 }

/-- A reservation of one token is the next permit of the bucket. -/
theorem Limiter.Finite.given (finite : lim.Finite) (ordered : lim.last ≤ t)
    (near : lim.waitDuration t 1 < infDuration)
    (granted : (lim.reserveN t 1 maxFutureReserve).1.ok = true) :
    let (reservation, next) := lim.reserveN t 1 maxFutureReserve
    Given lim.gap lim.burst.toNat lim.due next.due lim.last t
      (reservation.permit (reservation.delayFrom t)) := by
  obtain ⟨room, reserved⟩ := finite.reserveN_ok granted
  obtain ⟨nonneg, tight, waits⟩ := finite.waitDuration_spec near
  have counted := finite.due_le ordered
  have positive := finite.gap_pos
  have delay : sub (t + lim.waitDuration t 1) t = lim.waitDuration t 1 := by
    rw [sub_eq (by omega) (by omega)]
    omega
  have burst : ((lim.burst.toNat : ℕ) : ℚ) = lim.burst := by
    exact_mod_cast Int.toNat_of_nonneg (by omega)
  have full : lim.advance t ≤ lim.burst := lim.capped_le_burst _
  have capped := mul_le_mul_of_nonneg_right full positive.le
  rw [Int.cast_one] at tight waits
  rw [reserved]
  simp only [Reservation.permit, Reservation.delayFrom, delay, not_lt.mpr nonneg, if_true, if_false]
  refine ⟨ordered, positive.le, by omega, ?_, ?_, by simp only; omega, ?_, ?_, ?_⟩
  · rw [due_spent, Int.cast_one]
    linarith
  · rw [due_spent, burst, Int.cast_one]
    linarith
  · rw [due_spent, Int.cast_one]
    push_cast
    linarith
  · intro delayed
    have missing := waits (by simpa using delayed)
    rw [due_spent, Int.cast_one]
    push_cast
    linarith
  · intro passed
    have instant : lim.waitDuration t 1 = 0 := by simpa using passed
    simp [instant]

/-! ## What a cancellation does -/

/-- A cancellation leaves the limiter alone or gives back the share of the permit. -/
theorem Limiter.Finite.returned (finite : lim.Finite) {delay : Int} (ordered : lim.last ≤ t)
    (tokens : reservation.tokens = 1) (limit : reservation.limit = lim.limit)
    (delayed : delay ≠ 0) (known : reservation.timeToAct ≤ lim.lastEvent)
    (near : lim.lastEvent ≤ lim.last + infDuration) :
    lim.cancelAt reservation t = lim ∨
      ((lim.cancelAt reservation t).last = t ∧
        Returned lim.gap lim.due (lim.cancelAt reservation t).due lim.last t lim.lastEvent
          (lim.cancelAt reservation t).lastEvent (reservation.permit delay)) := by
  unfold cancelAt
  split
  · exact Or.inl rfl
  split
  · exact Or.inl rfl
  rename_i _ usable
  have later : t ≤ reservation.timeToAct := by
    by_contra early
    exact usable (Or.inr (Or.inr (by omega)))
  simp only
  split
  · exact Or.inl rfl
  right
  refine ⟨rfl, ordered, by simpa [Reservation.permit] using delayed, ?_, ?_⟩
  · -- what was reserved behind the permit is not given back
    have counted := finite.due_le ordered
    have positive := finite.gap_pos
    have behind := finite.tokensFromDuration_mul (lim.lastEvent - reservation.timeToAct)
    rw [tokens, limit, sub_eq known (by omega)]
    have scaled := mul_le_mul_of_nonneg_right (lim.capped_le (lim.advance t + ((1 : Int) -
      tokensFromDuration lim.limit (lim.lastEvent - reservation.timeToAct)))) positive.le
    simp only [Limiter.due, Limiter.gap, Reservation.permit] at counted behind scaled ⊢
    push_cast at behind scaled ⊢
    linarith
  · rw [tokens, limit, finite.durationFromTokens_one]
    split
    · rename_i latest
      exact Or.inr ⟨latest.1, rfl, not_lt.mp latest.2⟩
    · exact Or.inl rfl

end CommonGo.Ratelimit
