import Mathlib.Algebra.Order.Floor.Ring
import Mathlib.Data.Rat.Floor
import Mathlib.Tactic.Linarith
import Mathlib.Tactic.Ring

/-!
# Permits at a bounded rate

A bucket gives out permits, each with the time at which its holder may act.  One permit becomes due
every `gap` units of time, and `burst` of them can be saved.  A permit that was not used yet can be
withdrawn, and then some of its share goes back.  The permits stand newest first, so that the index
of a permit counts those that were given out after it.
-/

namespace CommonGo.Program

/-- When the holder may act, and whether the permit was given before that time. -/
structure Permit where
  /-- When the holder may act. -/
  act : Int
  /-- Whether that was later than the time at which it was given. -/
  delayed : Bool
  deriving DecidableEq, Repr

namespace Permit

/-- The time of the permit lies in a window. -/
def inside (opens closes : Int) (permit : Permit) : Bool :=
  opens ≤ permit.act && permit.act ≤ closes

/-- The permits whose time lies in a window. -/
def within (opens closes : Int) (permits : List Permit) : List Permit :=
  permits.filter (inside opens closes)

/-- No window holds more than the burst and what becomes due while it lasts. -/
def Bounded (gap : ℚ) (burst : ℕ) (permits : List Permit) : Prop :=
  ∀ opens closes : Int, opens ≤ closes →
    (within opens closes permits).length * gap ≤ burst * gap + (closes + 1 - opens : Int)

/-- What holds between a bucket and the permits it has given out: the next permit after an empty
bucket is due at `due`, the bucket was last used at `last`, and `latest` is the latest time of a
permit. -/
structure Paced (gap : ℚ) (burst : ℕ) (due : ℚ) (last latest : Int) (permits : List Permit) :
    Prop where
  /-- A permit without a delay was given in the past. -/
  passed : ∀ permit ∈ permits, permit.delayed = false → permit.act ≤ last
  /-- A delayed permit comes a gap before `due` for each newer permit. -/
  delayed : ∀ (index : ℕ) (permit : Permit), permits[index]? = some permit → permit.delayed = true →
    permit.act + index * gap ≤ due
  /-- Any permit does so, up to the burst. -/
  saved : ∀ (index : ℕ) (permit : Permit), permits[index]? = some permit →
    permit.act + (index + 1 - burst) * gap ≤ due
  /-- No permit is later than the latest one. -/
  latest : ∀ permit ∈ permits, permit.act ≤ latest
  /-- Two delayed permits are a gap apart. -/
  apart : permits.Pairwise fun newer older =>
    newer.delayed = true → older.delayed = true → older.act + ⌊gap⌋ ≤ newer.act
  /-- No window of time has more permits than the rate allows. -/
  bounded : Bounded gap burst permits

/-- A new permit: the bucket is used at `now`, and is then due at `due'`. -/
structure Given (gap : ℚ) (burst : ℕ) (due due' : ℚ) (last now : Int) (permit : Permit) :
    Prop where
  /-- Time does not go back. -/
  ordered : last ≤ now
  /-- A gap takes time. -/
  positive : 0 ≤ gap
  /-- There is room for one permit. -/
  room : 1 ≤ burst
  /-- The permit costs a gap. -/
  spent : due + gap ≤ due'
  /-- What is saved is never more than the burst. -/
  capped : now + (1 - burst) * gap ≤ due'
  /-- The permit is not for the past. -/
  now_le : now ≤ permit.act
  /-- It is for the first whole nanosecond from which on it is due. -/
  tight : due' < permit.act + 1
  /-- A delayed permit is not late. -/
  waits : permit.delayed = true → permit.act ≤ due'
  /-- A permit without a delay is for now. -/
  passes : permit.delayed = false → permit.act = now

/-- A withdrawn permit whose share goes back, as far as no later permit has been built on it. -/
structure Returned (gap : ℚ) (due due' : ℚ) (last now latest latest' : Int) (permit : Permit) :
    Prop where
  /-- Time does not go back. -/
  ordered : last ≤ now
  /-- The permit was delayed. -/
  delayed : permit.delayed = true
  /-- The share that goes back is what later permits have left of the gap. -/
  share : due - gap + (latest - permit.act : Int) ≤ due'
  /-- If it was the latest permit, the one before it becomes the latest. -/
  latest : latest' = latest ∨
    permit.act = latest ∧ latest' = permit.act - ⌊gap⌋ ∧ now ≤ latest'

variable {gap due due' : ℚ} {burst : ℕ} {last now latest latest' : Int} {permit : Permit}
  {permits newer older : List Permit}

/-! ## Counting in a window -/

/-- The oldest element with a property has all the others in front of it. -/
theorem exists_oldest {α : Type} {property : α → Bool} {items : List α}
    (nonempty : items.filter property ≠ []) :
    ∃ index item, items[index]? = some item ∧ property item = true ∧
      (items.filter property).length ≤ index + 1 := by
  induction items with
  | nil => exact absurd rfl nonempty
  | cons first rest ih =>
      by_cases last : rest.filter property = []
      · have holds : property first = true := by
          by_contra fails
          rw [List.filter_cons_of_neg fails] at nonempty
          exact nonempty last
        refine ⟨0, first, rfl, holds, ?_⟩
        rw [List.filter_cons_of_pos holds, last, List.length_singleton]
      · obtain ⟨index, item, found, holds, fewer⟩ := ih last
        refine ⟨index + 1, item, found, holds, ?_⟩
        have longer : ((first :: rest).filter property).length ≤
            (rest.filter property).length + 1 := by
          rw [List.filter_cons]
          split <;> simp
        omega

theorem Bounded.sublist {fewer : List Permit} (bounded : Bounded gap burst permits)
    (positive : 0 ≤ gap) (sub : fewer.Sublist permits) : Bounded gap burst fewer := by
  intro opens closes ordered
  have counts : (within opens closes fewer).length ≤ (within opens closes permits).length :=
    (sub.filter _).length_le
  have scaled : ((within opens closes fewer).length : ℚ) * gap ≤
      (within opens closes permits).length * gap :=
    mul_le_mul_of_nonneg_right (by exact_mod_cast counts) positive
  exact scaled.trans (bounded opens closes ordered)

theorem bounded_nil (positive : 0 ≤ gap) : Bounded gap burst [] := by
  intro opens closes ordered
  have wide : (0 : ℚ) ≤ (closes + 1 - opens : Int) := by exact_mod_cast (by omega)
  have saved : (0 : ℚ) ≤ burst * gap := mul_nonneg (Nat.cast_nonneg _) positive
  simp only [within, List.filter_nil, List.length_nil, Nat.cast_zero, zero_mul]
  exact add_nonneg saved wide

theorem paced_nil (positive : 0 ≤ gap) : Paced gap burst due last latest [] where
  passed := by simp
  delayed := by simp
  saved := by simp
  latest := by simp
  apart := List.Pairwise.nil
  bounded := bounded_nil positive

/-! ## Giving out a permit -/

namespace Given

variable (given : Given gap burst due due' last now permit)
include given

theorem saved : permit.act + (1 - burst) * gap ≤ due' := by
  cases waits : permit.delayed with
  | false =>
      rw [given.passes waits]
      exact given.capped
  | true =>
      have room : (1 : ℚ) ≤ burst := by exact_mod_cast given.room
      have nonpositive : (1 - burst : ℚ) * gap ≤ 0 :=
        mul_nonpos_of_nonpos_of_nonneg (by linarith) given.positive
      have due := given.waits waits
      linarith

/-- A delayed permit keeps its distance from the permits after it. -/
theorem apart {older : Permit} (before : older.act ≤ due) :
    older.act + ⌊gap⌋ ≤ permit.act := by
  have tight := given.tight
  have spent := given.spent
  have below := Int.floor_le gap
  have strict : ((older.act + ⌊gap⌋ : Int) : ℚ) < ((permit.act + 1 : Int) : ℚ) := by
    push_cast
    linarith
  exact Int.lt_add_one_iff.mp (by exact_mod_cast strict)

end Given

theorem Paced.act_le (paced : Paced gap burst due last latest permits) (positive : 0 ≤ gap)
    {earlier : Permit} (mem : earlier ∈ permits) (waits : earlier.delayed = true) :
    earlier.act ≤ due := by
  obtain ⟨index, found⟩ := List.mem_iff_getElem?.mp mem
  have spaced := paced.delayed index earlier found waits
  have more : (0 : ℚ) ≤ index * gap := mul_nonneg (Nat.cast_nonneg _) positive
  linarith

/-- Every window of the longer list that the new permit is in ends no earlier than it is due. -/
theorem bounded_cons (bounded : Bounded gap burst permits)
    (given : Given gap burst due due' last now permit)
    (saved : ∀ (index : ℕ) (earlier : Permit), (permit :: permits)[index]? = some earlier →
      earlier.act + (index + 1 - burst) * gap ≤ due') :
    Bounded gap burst (permit :: permits) := by
  intro opens closes ordered
  by_cases holds : inside opens closes permit = true
  · have nonempty : within opens closes (permit :: permits) ≠ [] := by
      rw [within, List.filter_cons_of_pos holds]
      exact List.cons_ne_nil _ _
    obtain ⟨index, oldest, found, held, counts⟩ := exists_oldest nonempty
    have spaced := saved index oldest found
    have tight := given.tight
    simp only [inside, Bool.and_eq_true, decide_eq_true_eq] at holds held
    have starts : (opens : ℚ) ≤ oldest.act := by exact_mod_cast held.1
    have ends : (permit.act : ℚ) ≤ closes := by exact_mod_cast holds.2
    have scaled :
        ((within opens closes (permit :: permits)).length : ℚ) * gap ≤ (index + 1) * gap :=
      mul_le_mul_of_nonneg_right (by exact_mod_cast counts) given.positive
    push_cast
    linarith
  · rw [within, List.filter_cons_of_neg holds]
    exact bounded opens closes ordered

theorem Paced.give (paced : Paced gap burst due last latest permits)
    (given : Given gap burst due due' last now permit) :
    Paced gap burst due' now permit.act (permit :: permits) := by
  have saved : ∀ (index : ℕ) (earlier : Permit), (permit :: permits)[index]? = some earlier →
      earlier.act + (index + 1 - burst) * gap ≤ due' := by
    intro index earlier found
    cases index with
    | zero =>
        cases found
        simpa using given.saved
    | succ index =>
        have before := paced.saved index earlier found
        have spent := given.spent
        push_cast
        linarith
  refine ⟨?_, ?_, saved, ?_, ?_, bounded_cons paced.bounded given saved⟩
  · intro earlier mem passed
    rcases List.mem_cons.mp mem with rfl | mem
    · exact (given.passes passed).le
    · exact (paced.passed earlier mem passed).trans given.ordered
  · intro index earlier found waits
    cases index with
    | zero =>
        cases found
        simpa using given.waits waits
    | succ index =>
        have before := paced.delayed index earlier found waits
        have spent := given.spent
        push_cast
        linarith
  · intro earlier mem
    rcases List.mem_cons.mp mem with rfl | mem
    · exact le_rfl
    · cases waits : earlier.delayed with
      | false => exact (paced.passed earlier mem waits).trans (given.ordered.trans given.now_le)
      | true =>
          have distance := given.apart (paced.act_le given.positive mem waits)
          have nonneg := Int.floor_nonneg.mpr given.positive
          omega
  · refine List.Pairwise.cons ?_ paced.apart
    intro earlier mem _ waits
    exact given.apart (paced.act_le given.positive mem waits)

/-! ## Withdrawing a permit -/

/-- Where a permit of the shorter list was before. -/
theorem getElem?_withdrawn (permit : Permit) {index : ℕ} {other : Permit}
    (found : (newer ++ older)[index]? = some other) :
    (index < newer.length ∧ (newer ++ permit :: older)[index]? = some other) ∨
      (newer ++ permit :: older)[index + 1]? = some other := by
  by_cases before : index < newer.length
  · rw [List.getElem?_append_left before] at found
    exact Or.inl ⟨before, by rw [List.getElem?_append_left before, found]⟩
  · rw [List.getElem?_append_right (by omega)] at found
    right
    rw [List.getElem?_append_right (by omega), show index + 1 - newer.length =
      (index - newer.length) + 1 by omega, List.getElem?_cons_succ, found]

theorem sublist_withdrawn : (newer ++ older).Sublist (newer ++ permit :: older) :=
  (List.Sublist.refl newer).append (List.sublist_cons_self permit older)

/-- A permit that is withdrawn while the bucket stays as it is. -/
theorem Paced.forget (paced : Paced gap burst due last latest (newer ++ permit :: older))
    (positive : 0 ≤ gap) : Paced gap burst due last latest (newer ++ older) := by
  have keeps := (sublist_withdrawn : (newer ++ older).Sublist (newer ++ permit :: older)).subset
  refine ⟨fun other mem => paced.passed other (keeps mem), ?_, ?_,
    fun other mem => paced.latest other (keeps mem), paced.apart.sublist sublist_withdrawn,
    paced.bounded.sublist positive sublist_withdrawn⟩
  · intro index other found waits
    rcases getElem?_withdrawn permit found with ⟨_, before⟩ | before
    · exact paced.delayed index other before waits
    · have spaced := paced.delayed (index + 1) other before waits
      push_cast at spaced
      linarith
  · intro index other found
    rcases getElem?_withdrawn permit found with ⟨_, before⟩ | before
    · exact paced.saved index other before
    · have spaced := paced.saved (index + 1) other before
      push_cast at spaced
      linarith

section Withdraw

variable (paced : Paced gap burst due last latest (newer ++ permit :: older))
  (returned : Returned gap due due' last now latest latest' permit)
include paced returned

/-- The permits after a withdrawn one were given behind it, and stay there. -/
theorem Paced.newer_le {index : ℕ} {other : Permit} (positive : 0 ≤ gap)
    (before : index < newer.length)
    (found : (newer ++ permit :: older)[index]? = some other) :
    other.act + index * gap ≤ due' := by
  have itself : (newer ++ permit :: older)[newer.length]? = some permit := by simp
  have spaced := paced.delayed newer.length permit itself returned.delayed
  have upper : (other.act : ℚ) ≤ latest := by
    exact_mod_cast paced.latest other (List.mem_of_getElem? found)
  have counts : ((index : ℚ) + 1) * gap ≤ newer.length * gap :=
    mul_le_mul_of_nonneg_right (by exact_mod_cast before) positive
  have share := returned.share
  push_cast at share
  linarith

/-- The permits before a withdrawn one were not built on it. -/
theorem Paced.share_le : due - gap ≤ due' := by
  have upper : (permit.act : ℚ) ≤ latest := by
    exact_mod_cast paced.latest permit (by simp)
  have share := returned.share
  push_cast at share
  linarith

/-- If the latest time moves back, it stays behind all permits that are left. -/
theorem Paced.latest_le {other : Permit} (positive : 0 ≤ gap) (mem : other ∈ newer ++ older) :
    other.act ≤ latest' := by
  have known := paced.latest other (sublist_withdrawn.subset mem)
  rcases returned.latest with same | ⟨itself, moved, behind⟩
  · omega
  cases waits : other.delayed with
  | false =>
      have passed := paced.passed other (sublist_withdrawn.subset mem) waits
      have ordered := returned.ordered
      omega
  | true =>
      have nonneg := Int.floor_nonneg.mpr positive
      obtain ⟨_, behind, across⟩ := List.pairwise_append.mp paced.apart
      rcases List.mem_append.mp mem with after | before
      · have distance := across other after permit (by simp) waits returned.delayed
        omega
      · have distance := (List.pairwise_cons.mp behind).1 other before returned.delayed waits
        omega

theorem Paced.withdraw (positive : 0 ≤ gap) (room : 1 ≤ burst) :
    Paced gap burst due' now latest' (newer ++ older) := by
  have back := paced.share_le returned
  refine ⟨?_, ?_, ?_, fun other mem => paced.latest_le returned positive mem,
    paced.apart.sublist sublist_withdrawn, paced.bounded.sublist positive sublist_withdrawn⟩
  · intro other mem passed
    exact (paced.passed other (sublist_withdrawn.subset mem) passed).trans returned.ordered
  · intro index other found waits
    rcases getElem?_withdrawn permit found with ⟨before, old⟩ | old
    · exact paced.newer_le returned positive before old
    · have spaced := paced.delayed (index + 1) other old waits
      push_cast at spaced
      linarith
  · intro index other found
    rcases getElem?_withdrawn permit found with ⟨before, old⟩ | old
    · have spaced := paced.newer_le returned positive before old
      have one : (1 : ℚ) ≤ burst := by exact_mod_cast room
      have less : (1 - burst : ℚ) * gap ≤ 0 :=
        mul_nonpos_of_nonpos_of_nonneg (by linarith) positive
      linarith
    · have spaced := paced.saved (index + 1) other old
      push_cast at spaced
      linarith

end Withdraw

end Permit

end CommonGo.Program
