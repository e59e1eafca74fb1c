import CommonGo.Program.Run

/-!
# Endless runs

A run that never ends, in which nothing may happen at some moments, so that it may also come to
rest.  It is fair to a kind of actions if they are not put off forever: not if one of them is
possible at every moment from some moment on.  If such actions lower a measure and others do not
raise it, a fair run comes to its goal.
-/

namespace CommonGo.Program

variable {S A : Type} {step : S → A → Option S}

/-- A state for every moment, and what leads to the next one. -/
structure Endless (step : S → A → Option S) where
  /-- The state at a moment. -/
  state : Nat → S
  /-- The action that is taken at a moment, if any. -/
  taken : Nat → Option A
  /-- The next state is the one after the action, or the same one. -/
  moves : ∀ moment, (taken moment).elim (some (state moment)) (step (state moment)) =
    some (state (moment + 1))

/-- An action of a kind is possible. -/
def Enabled (step : S → A → Option S) (kind : A → Bool) (state : S) : Prop :=
  ∃ action, kind action = true ∧ (step state action).isSome = true

namespace Endless

/-- An action of a kind is taken at a moment. -/
def takes (run : Endless step) (kind : A → Bool) (moment : Nat) : Bool :=
  (run.taken moment).any kind

/-- Actions of a kind are not put off forever. -/
def Fair (run : Endless step) (kind : A → Bool) : Prop :=
  ∀ moment, (∀ later, moment ≤ later → Enabled step kind (run.state later)) →
    ∃ later, moment ≤ later ∧ run.takes kind later = true

/-- How many actions of a kind are taken before a moment. -/
def count (run : Endless step) (kind : A → Bool) (moment : Nat) : Nat :=
  (List.range moment).countP (run.takes kind)

variable (run : Endless step) {kind : A → Bool} {inv goal : S → Prop} {measure : S → Nat}

theorem moves_cases (moment : Nat) :
    (run.taken moment = none ∧ run.state (moment + 1) = run.state moment) ∨
      ∃ action, run.taken moment = some action ∧
        step (run.state moment) action = some (run.state (moment + 1)) := by
  have moves := run.moves moment
  cases taken : run.taken moment with
  | none =>
      rw [taken] at moves
      exact Or.inl ⟨rfl, (Option.some.inj moves).symm⟩
  | some action =>
      rw [taken] at moves
      exact Or.inr ⟨action, rfl, moves⟩

/-- What every step keeps holds at every moment. -/
theorem invariant
    (keeps : ∀ {state action next}, inv state → step state action = some next → inv next)
    (initial : inv (run.state 0)) (moment : Nat) : inv (run.state moment) := by
  induction moment with
  | zero => exact initial
  | succ moment ih =>
      rcases run.moves_cases moment with ⟨_, same⟩ | ⟨action, _, stepped⟩
      · rw [same]
        exact ih
      · exact keeps ih stepped

theorem count_succ (kind : A → Bool) (moment : Nat) :
    run.count kind (moment + 1) =
      run.count kind moment + if run.takes kind moment then 1 else 0 := by
  rw [count, List.range_succ, List.countP_append, List.countP_singleton, count]

theorem count_mono (kind : A → Bool) {moment later : Nat} (after : moment ≤ later) :
    run.count kind moment ≤ run.count kind later :=
  (List.range_sublist.mpr after).countP_le

/-- If one of its actions is always possible, a kind that a run is fair to comes up any number of
times. -/
theorem Fair.unbounded {run : Endless step} (fair : run.Fair kind)
    (always : ∀ moment, Enabled step kind (run.state moment)) (number : Nat) :
    ∃ moment, number ≤ run.count kind moment := by
  induction number with
  | zero => exact ⟨0, Nat.zero_le _⟩
  | succ number ih =>
      obtain ⟨moment, enough⟩ := ih
      obtain ⟨later, after, helps⟩ := fair moment fun later _ => always later
      have before := run.count_mono kind after
      refine ⟨later + 1, ?_⟩
      rw [count_succ, helps, if_pos rfl]
      omega

section Measure

variable
  (keeps : ∀ {state action next}, inv state → step state action = some next → inv next)
  (others : ∀ {state action next}, inv state → step state action = some next →
    measure next ≤ measure state)
  (lowers : ∀ {state action next}, inv state → step state action = some next →
    kind action = true → measure next < measure state)
  (initial : inv (run.state 0))

include keeps others lowers initial

/-- A moment takes from the measure what it adds to the count. -/
theorem measure_succ (moment : Nat) :
    (if run.takes kind moment then 1 else 0) + measure (run.state (moment + 1)) ≤
      measure (run.state moment) := by
  have held := run.invariant keeps initial moment
  rcases run.moves_cases moment with ⟨nothing, same⟩ | ⟨action, taken, stepped⟩
  · simp [takes, nothing, same]
  · have le := others held stepped
    cases helps : kind action with
    | false => simpa [takes, taken, helps] using le
    | true =>
        have less := lowers held stepped helps
        simp only [takes, taken, Option.any_some, helps, if_true]
        omega

theorem count_add_measure_le (moment : Nat) :
    run.count kind moment + measure (run.state moment) ≤ measure (run.state 0) := by
  induction moment with
  | zero => simp [count]
  | succ moment ih =>
      have lost := run.measure_succ keeps others lowers initial moment
      rw [count_succ]
      omega

/-- A fair run comes to its goal if an action of the kind is possible until then. -/
theorem eventually (fair : run.Fair kind)
    (possible : ∀ {state}, inv state → ¬ goal state → Enabled step kind state) :
    ∃ moment, goal (run.state moment) := by
  by_contra never
  have always : ∀ moment, Enabled step kind (run.state moment) := fun moment =>
    possible (run.invariant keeps initial moment) fun reached => never ⟨moment, reached⟩
  obtain ⟨moment, many⟩ := fair.unbounded always (measure (run.state 0) + 1)
  have few := run.count_add_measure_le keeps others lowers initial moment
  omega

end Measure

end Endless

end CommonGo.Program
