import Mathlib.Data.List.Induction

/-!
# Runs of a step function

A system is a step function that gives the next state, or `none` where an action is not possible.
The rules here carry what one step keeps to every state that a run passes.
-/

namespace CommonGo.Program

variable {S A : Type} {step : S → A → Option S} {start state next middle : S} {actions : List A}
  {action : A}

/-- The state after a run of actions, each of which was possible. -/
def runFrom (step : S → A → Option S) (start : S) (actions : List A) : Option S :=
  actions.foldlM step start

/-- A state that a run passes. -/
def Passes (step : S → A → Option S) (start : S) (actions : List A) (middle : S) : Prop :=
  ∃ front, front <+: actions ∧ runFrom step start front = some middle

/-- A run takes an action in a state. -/
def Takes (step : S → A → Option S) (start : S) (actions : List A) (middle : S) (action : A) :
    Prop :=
  ∃ front, front ++ [action] <+: actions ∧ runFrom step start front = some middle

@[simp] theorem runFrom_nil : runFrom step start [] = some start := rfl

theorem runFrom_cons (stepped : step start action = some next) :
    runFrom step start (action :: actions) = runFrom step next actions := by
  rw [runFrom, List.foldlM_cons, stepped]
  rfl

theorem runFrom_snoc :
    runFrom step start (actions ++ [action]) = some next ↔
      ∃ middle, runFrom step start actions = some middle ∧ step middle action = some next := by
  rw [runFrom, List.foldlM_append, ← runFrom]
  cases runFrom step start actions <;> simp

/-! ## What a run passes -/

theorem passes_of_runFrom (ran : runFrom step start actions = some state) :
    Passes step start actions state :=
  ⟨actions, List.prefix_refl _, ran⟩

theorem Passes.longer {whole : List A} (passed : Passes step start actions middle)
    (initial : actions <+: whole) : Passes step start whole middle := by
  obtain ⟨front, shorter, ran⟩ := passed
  exact ⟨front, shorter.trans initial, ran⟩

theorem Takes.longer {whole : List A} (takes : Takes step start actions middle action)
    (initial : actions <+: whole) : Takes step start whole middle action := by
  obtain ⟨front, shorter, ran⟩ := takes
  exact ⟨front, shorter.trans initial, ran⟩

/-- The last action of a run is taken in the state before it. -/
theorem takes_last (ran : runFrom step start actions = some middle) :
    Takes step start (actions ++ [action]) middle action :=
  ⟨actions, List.prefix_refl _, ran⟩

/-- A longer run passes one more state. -/
theorem passes_snoc (passed : Passes step start (actions ++ [action]) middle) :
    Passes step start actions middle ∨ runFrom step start (actions ++ [action]) = some middle := by
  obtain ⟨front, initial, ran⟩ := passed
  rcases List.prefix_concat_iff.mp initial with rfl | shorter
  · exact Or.inr ran
  · exact Or.inl ⟨front, shorter, ran⟩

/-- A longer run takes one more action. -/
theorem takes_snoc {taken : A} :
    Takes step start (actions ++ [action]) middle taken ↔
      Takes step start actions middle taken ∨
        taken = action ∧ runFrom step start actions = some middle := by
  constructor
  · rintro ⟨front, initial, ran⟩
    rcases List.prefix_concat_iff.mp initial with whole | shorter
    · obtain ⟨rfl, same⟩ := List.append_inj' whole rfl
      cases same
      exact Or.inr ⟨rfl, ran⟩
    · exact Or.inl ⟨front, shorter, ran⟩
  · rintro (takes | ⟨rfl, ran⟩)
    · exact takes.longer (List.prefix_append _ _)
    · exact takes_last ran

theorem takes_nil : ¬ Takes step start [] middle action := by
  rintro ⟨front, initial, _⟩
  simp at initial

/-- Every action of a run is guarded if the first is and those after it are. -/
theorem takes_cons {guard : S → A → Prop} {first : A} (here : guard start first)
    (stepped : step start first = some next)
    (later : ∀ middle action, Takes step next actions middle action → guard middle action) :
    ∀ middle action, Takes step start (first :: actions) middle action → guard middle action := by
  rintro middle action ⟨front, initial, ran⟩
  cases front with
  | nil =>
      cases ran
      rw [List.nil_append, List.cons_prefix_cons] at initial
      rwa [initial.1]
  | cons taken front =>
      rw [List.cons_append, List.cons_prefix_cons] at initial
      obtain ⟨rfl, initial⟩ := initial
      rw [runFrom, List.foldlM_cons, stepped] at ran
      exact later middle action ⟨front, initial, ran⟩

/-- Goes through a run and tests every action that it takes. -/
def checks (step : S → A → Option S) (guard : S → A → Prop) [∀ state action,
    Decidable (guard state action)] : S → List A → Bool
  | _, [] => true
  | state, action :: actions =>
      guard state action && match step state action with
        | some next => checks step guard next actions
        | none => true

theorem takes_of_checks {guard : S → A → Prop} [∀ state action, Decidable (guard state action)]
    (checked : checks step guard start actions = true) :
    ∀ middle action, Takes step start actions middle action → guard middle action := by
  induction actions generalizing start with
  | nil => exact fun _ _ takes => absurd takes takes_nil
  | cons first rest ih =>
      rw [checks, Bool.and_eq_true, decide_eq_true_eq] at checked
      obtain ⟨here, later⟩ := checked
      cases stepped : step start first with
      | some next =>
          rw [stepped] at later
          exact takes_cons here stepped (ih later)
      | none =>
          rintro middle action ⟨front, initial, ran⟩
          cases front with
          | nil =>
              cases ran
              rw [List.nil_append, List.cons_prefix_cons] at initial
              rwa [initial.1]
          | cons taken front =>
              rw [List.cons_append, List.cons_prefix_cons] at initial
              rw [initial.1, runFrom, List.foldlM_cons, stepped] at ran
              cases ran

/-! ## Rules -/

section Rules

variable {inv safe : S → Prop} {guard : S → A → Prop}

/-- What every step keeps holds after every run, also where it speaks of the run so far. -/
theorem runFrom_history {inv : List A → S → Prop}
    (keeps : ∀ {actions state action next}, runFrom step start actions = some state →
      inv actions state → step state action = some next → inv (actions ++ [action]) next)
    (initial : inv [] start) (ran : runFrom step start actions = some state) :
    inv actions state := by
  induction actions using List.reverseRecOn generalizing state with
  | nil =>
      cases ran
      exact initial
  | append_singleton actions action ih =>
      obtain ⟨middle, before, stepped⟩ := runFrom_snoc.mp ran
      exact keeps before (ih before) stepped

/-- What every guarded step keeps holds after every run whose actions are all guarded. -/
theorem runFrom_guarded
    (keeps : ∀ {state action next}, inv state → guard state action →
      step state action = some next → inv next)
    (initial : inv start)
    (guarded : ∀ middle action, Takes step start actions middle action → guard middle action)
    (ran : runFrom step start actions = some state) : inv state := by
  induction actions using List.reverseRecOn generalizing state with
  | nil =>
      cases ran
      exact initial
  | append_singleton actions action ih =>
      obtain ⟨middle, before, stepped⟩ := runFrom_snoc.mp ran
      have held := ih (fun _ _ takes => guarded _ _ (takes.longer (List.prefix_append _ _))) before
      exact keeps held (guarded middle action (takes_last before)) stepped

/-- What every step keeps holds after every run. -/
theorem runFrom_invariant
    (keeps : ∀ {state action next}, inv state → step state action = some next → inv next)
    (initial : inv start) (ran : runFrom step start actions = some state) : inv state :=
  runFrom_guarded (fun held (_ : True) => keeps held) initial (fun _ _ _ => trivial) ran

/-- If every step is possible and kept, so is every run. -/
theorem exists_runFrom
    (keeps : ∀ {state} action, inv state → ∃ next, step state action = some next ∧ inv next)
    (initial : inv start) (actions : List A) :
    ∃ state, runFrom step start actions = some state ∧ inv state := by
  induction actions using List.reverseRecOn with
  | nil => exact ⟨start, rfl, initial⟩
  | append_singleton actions action ih =>
      obtain ⟨middle, before, held⟩ := ih
      obtain ⟨next, stepped, kept⟩ := keeps action held
      exact ⟨next, runFrom_snoc.mpr ⟨middle, before, stepped⟩, kept⟩

/-- If every step decreases a measure, no run has more steps than the measure of its start. -/
theorem runFrom_measure {measure : S → Nat}
    (keeps : ∀ {state action next}, inv state → step state action = some next → inv next)
    (decreases : ∀ {state action next}, inv state → step state action = some next →
      measure next < measure state)
    (initial : inv start) (ran : runFrom step start actions = some state) :
    actions.length + measure state ≤ measure start := by
  induction actions using List.reverseRecOn generalizing state with
  | nil =>
      cases ran
      simp
  | append_singleton actions action ih =>
      obtain ⟨middle, before, stepped⟩ := runFrom_snoc.mp ran
      have earlier := ih before
      have less := decreases (runFrom_invariant keeps initial before) stepped
      rw [List.length_append, List.length_singleton]
      omega

/-- If a step keeps a safe state safe exactly when it is guarded, then a run passes safe states
only exactly when all its actions are guarded. -/
theorem runFrom_always_iff
    (keeps : ∀ {state action next}, inv state → step state action = some next → inv next)
    (safe_iff : ∀ {state action next}, inv state → safe state →
      step state action = some next → (safe next ↔ guard state action))
    (initial : inv start) (first : safe start) (ran : runFrom step start actions = some state) :
    (∀ middle, Passes step start actions middle → safe middle) ↔
      ∀ middle action, Takes step start actions middle action → guard middle action := by
  induction actions using List.reverseRecOn generalizing state with
  | nil =>
      constructor
      · intro _ middle action takes
        exact absurd takes takes_nil
      · rintro _ middle ⟨front, initial, passed⟩
        rw [List.prefix_nil.mp initial] at passed
        cases passed
        exact first
  | append_singleton actions action ih =>
      obtain ⟨middle, before, stepped⟩ := runFrom_snoc.mp ran
      have held := runFrom_invariant keeps initial before
      have earlier := ih before
      constructor
      · intro always passing taken takes
        rcases takes_snoc.mp takes with shorter | ⟨rfl, ran'⟩
        · refine earlier.mp ?_ passing taken shorter
          exact fun _ passed => always _ (passed.longer (List.prefix_append _ _))
        · rw [before] at ran'
          cases ran'
          have here := always middle ((passes_of_runFrom before).longer (List.prefix_append _ _))
          exact (safe_iff held here stepped).mp (always state (passes_of_runFrom ran))
      · intro guarded passing passed
        have safes := earlier.mpr fun _ _ takes =>
          guarded _ _ (takes.longer (List.prefix_append _ _))
        rcases passes_snoc passed with shorter | ran'
        · exact safes passing shorter
        · rw [ran] at ran'
          cases ran'
          have here := safes middle (passes_of_runFrom before)
          exact (safe_iff held here stepped).mpr (guarded middle action (takes_last before))

end Rules

end CommonGo.Program
