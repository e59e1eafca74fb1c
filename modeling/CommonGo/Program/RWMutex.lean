import Mathlib.Data.Finset.Erase
import Mathlib.Data.Finset.Insert
import Mathlib.Logic.Function.Basic
import CommonGo.Program.Run

/-!
# Bodies guarded by a readers-writer lock

Clients acquire a lock in the mode their body asks for, perform the body on shared data and release
the lock.  A body that takes the lock in write mode is alone inside.  A body that takes it in read
mode and changes the data all the same is alone only if no other reader comes in, and the rule for
runs says exactly when that is so.
-/

namespace CommonGo.Program

variable {ι B S : Type}

/-! ## The lock -/

/-- How a lock is taken. -/
inductive Mode where
  | read
  | write
  deriving DecidableEq, Repr

/-- A lock and who holds it: any number of readers or one writer. -/
inductive RWMutex (ι : Type) where
  | readers (holders : Finset ι)
  | writer (holder : ι)

namespace RWMutex

/-- The lock that nobody holds. -/
def free : RWMutex ι := .readers ∅

/-- The client holds the lock in a mode. -/
def Holds (client : ι) : Mode → RWMutex ι → Prop
  | .read, .readers holders => client ∈ holders
  | .write, .writer holder => client = holder
  | _, _ => False

variable [DecidableEq ι]

/-- Take the lock; `none` while the client has to wait. -/
def acquire (client : ι) : Mode → RWMutex ι → Option (RWMutex ι)
  | .read, .readers holders => some (.readers (insert client holders))
  | .write, .readers holders => if holders = ∅ then some (.writer client) else none
  | _, .writer _ => none

/-- Give the lock back; `none` if it is not held in this mode. -/
def release (client : ι) : Mode → RWMutex ι → Option (RWMutex ι)
  | .read, .readers holders =>
      if client ∈ holders then some (.readers (holders.erase client)) else none
  | .write, .writer holder => if client = holder then some free else none
  | _, _ => none

variable {mutex next : RWMutex ι} {client other : ι} {mode held : Mode}

omit [DecidableEq ι] in
theorem not_holds_free : ¬ (free : RWMutex ι).Holds client mode := by
  cases mode with
  | read => exact Finset.notMem_empty client
  | write => exact id

omit [DecidableEq ι] in
theorem eq_writer_of_holds (holds : mutex.Holds client .write) : mutex = .writer client := by
  cases mutex with
  | readers holders => exact absurd holds id
  | writer holder => rw [show client = holder from holds]

omit [DecidableEq ι] in
/-- Nobody else holds the lock while a client may write. -/
theorem eq_of_holds_write (holds : mutex.Holds client .write) (held : mutex.Holds other mode) :
    other = client := by
  rw [eq_writer_of_holds holds] at held
  cases mode with
  | read => exact absurd held id
  | write => exact held

/-- Nobody takes the lock while a client may write. -/
theorem not_holds_of_acquire (acquired : mutex.acquire other mode = some next) :
    ¬ mutex.Holds client .write := by
  intro holds
  rw [eq_writer_of_holds holds] at acquired
  cases mode <;> cases acquired

/-- To write, a client waits until nobody holds the lock. -/
theorem not_holds_of_acquire_write (acquired : mutex.acquire client .write = some next) :
    ¬ mutex.Holds other mode := by
  cases mutex with
  | readers holders =>
      rw [acquire, Option.ite_none_right_eq_some] at acquired
      rw [acquired.1]
      exact not_holds_free
  | writer holder => cases acquired

/-- Acquiring adds the client to the holders. -/
theorem holds_acquire (acquired : mutex.acquire client mode = some next) :
    next.Holds other held ↔ (other = client ∧ held = mode) ∨ mutex.Holds other held := by
  cases mutex with
  | readers holders =>
      cases mode with
      | read =>
          cases acquired
          cases held <;> simp [Holds]
      | write =>
          rw [acquire, Option.ite_none_right_eq_some] at acquired
          obtain ⟨rfl, acquired⟩ := acquired
          cases acquired
          cases held <;> simp [Holds]
  | writer holder => cases mode <;> cases acquired

/-- Releasing takes the client from the holders. -/
theorem holds_release (released : mutex.release client mode = some next) :
    next.Holds other held ↔ other ≠ client ∧ mutex.Holds other held := by
  cases mutex with
  | readers holders =>
      cases mode with
      | read =>
          rw [release, Option.ite_none_right_eq_some] at released
          cases released.2
          cases held <;> simp [Holds]
      | write => cases released
  | writer holder =>
      cases mode with
      | read => cases released
      | write =>
          rw [release, Option.ite_none_right_eq_some] at released
          obtain ⟨rfl, released⟩ := released
          cases released
          cases held <;> simp [Holds, free]

end RWMutex

/-! ## Clients -/

/-- What bodies do to the data they share. -/
structure Bodies (B S : Type) where
  /-- The mode in which a body takes the lock. -/
  mode : B → Mode
  /-- The data after a body; `none` when the body does not return. -/
  perform : B → S → Option S
  /-- Whether a body changes the data. -/
  changes : B → S → Bool
  /-- A body that changes nothing leaves the data as they were. -/
  unchanged : ∀ {body shared next}, changes body shared = false →
    perform body shared = some next → next = shared

/-- Where a client is: outside, or inside a body that it has not performed yet, or inside one that
it has performed and that has changed the data or not. -/
inductive Phase (B : Type) where
  | outside
  | entered (body : B)
  | performed (body : B) (changed : Bool)

namespace Phase

/-- The body the client is inside. -/
def body : Phase B → Option B
  | outside => none
  | entered body => some body
  | performed body _ => some body

/-- The client is inside a body that changes the data. -/
def changing (bodies : Bodies B S) (shared : S) : Phase B → Bool
  | outside => false
  | entered body => bodies.changes body shared
  | performed _ changed => changed

theorem body_eq_none_iff {phase : Phase B} : phase.body = none ↔ phase = outside := by
  cases phase <;> simp [body]

end Phase

/-- Clients, the data they share and the lock that guards it. -/
structure Clients (ι B S : Type) where
  /-- The lock. -/
  mutex : RWMutex ι
  /-- The data. -/
  shared : S
  /-- Where each client is. -/
  phase : ι → Phase B

/-- What a client does next. -/
inductive Action (ι B : Type) where
  | enter (client : ι) (body : B)
  | perform (client : ι)
  | leave (client : ι)

namespace Clients

/-- Nobody is inside. -/
def start (shared : S) : Clients ι B S := ⟨.free, shared, fun _ => .outside⟩

/-- While a client is inside a body that changes the data, nobody else is inside. -/
def Exclusive (bodies : Bodies B S) (state : Clients ι B S) : Prop :=
  ∀ client, (state.phase client).changing bodies state.shared = true →
    ∀ other, other ≠ client → state.phase other = .outside

/-- The lock is held by those who are inside, in the modes of their bodies. -/
def Agrees (bodies : Bodies B S) (state : Clients ι B S) : Prop :=
  ∀ client mode, state.mutex.Holds client mode ↔
    (state.phase client).body.map bodies.mode = some mode

/-- A reader comes in to others only if neither it nor any of them changes the data. -/
def Apart (bodies : Bodies B S) (state : Clients ι B S) : Action ι B → Prop
  | .enter _ body => bodies.mode body = .read → ∀ other, state.phase other ≠ .outside →
      bodies.changes body state.shared = false ∧
        (state.phase other).changing bodies state.shared = false
  | _ => True

variable [DecidableEq ι]

/-- The client comes to a phase, with a lock and data. -/
def move (state : Clients ι B S) (client : ι) (phase : Phase B) (mutex : RWMutex ι) (shared : S) :
    Clients ι B S :=
  ⟨mutex, shared, Function.update state.phase client phase⟩

/-- One action; `none` if the client cannot do it, or not yet. -/
def step (bodies : Bodies B S) (state : Clients ι B S) : Action ι B → Option (Clients ι B S)
  | .enter client body =>
      match state.phase client with
      | .outside => (state.mutex.acquire client (bodies.mode body)).map fun mutex =>
          state.move client (.entered body) mutex state.shared
      | _ => none
  | .perform client =>
      match state.phase client with
      | .entered body => (bodies.perform body state.shared).map fun shared =>
          state.move client (.performed body (bodies.changes body state.shared)) state.mutex shared
      | _ => none
  | .leave client =>
      match state.phase client with
      | .performed body _ => (state.mutex.release client (bodies.mode body)).map fun mutex =>
          state.move client .outside mutex state.shared
      | _ => none

/-- The state after a run of actions, each of which was possible. -/
def run (bodies : Bodies B S) (state : Clients ι B S) (actions : List (Action ι B)) :
    Option (Clients ι B S) :=
  actions.foldlM (step bodies) state

variable {bodies : Bodies B S} {state next : Clients ι B S} {action : Action ι B}

section Move

variable {client other : ι} {phase : Phase B} {mutex : RWMutex ι} {shared : S}

@[simp] theorem move_mutex : (state.move client phase mutex shared).mutex = mutex := rfl

@[simp] theorem move_shared : (state.move client phase mutex shared).shared = shared := rfl

@[simp] theorem move_phase_self : (state.move client phase mutex shared).phase client = phase :=
  Function.update_self ..

theorem move_phase_of_ne (differs : other ≠ client) :
    (state.move client phase mutex shared).phase other = state.phase other :=
  Function.update_of_ne differs ..

end Move

/-- All that one action can do. -/
theorem step_cases (stepped : state.step bodies action = some next) :
    (∃ client body mutex, action = .enter client body ∧ state.phase client = .outside ∧
      state.mutex.acquire client (bodies.mode body) = some mutex ∧
      next = state.move client (.entered body) mutex state.shared) ∨
    (∃ client body shared, action = .perform client ∧ state.phase client = .entered body ∧
      bodies.perform body state.shared = some shared ∧
      next = state.move client (.performed body (bodies.changes body state.shared))
        state.mutex shared) ∨
    ∃ client body changed mutex, action = .leave client ∧
      state.phase client = .performed body changed ∧
      state.mutex.release client (bodies.mode body) = some mutex ∧
      next = state.move client .outside mutex state.shared := by
  cases action with
  | enter client body =>
      rw [step] at stepped
      split at stepped
      · next outside =>
          obtain ⟨mutex, acquired, rfl⟩ := Option.map_eq_some_iff.mp stepped
          exact Or.inl ⟨client, body, mutex, rfl, outside, acquired, rfl⟩
      · cases stepped
  | perform client =>
      rw [step] at stepped
      split at stepped
      · next body entered =>
          obtain ⟨shared, performed, rfl⟩ := Option.map_eq_some_iff.mp stepped
          exact Or.inr (Or.inl ⟨client, body, shared, rfl, entered, performed, rfl⟩)
      · cases stepped
  | leave client =>
      rw [step] at stepped
      split at stepped
      · next body changed performed =>
          obtain ⟨mutex, released, rfl⟩ := Option.map_eq_some_iff.mp stepped
          exact Or.inr (Or.inr ⟨client, body, changed, mutex, rfl, performed, released, rfl⟩)
      · cases stepped

/-! ## The lock agrees with the clients -/

omit [DecidableEq ι] in
theorem start_agrees (shared : S) : (start shared : Clients ι B S).Agrees bodies := by
  intro client mode
  constructor
  · intro holds
    exact absurd holds RWMutex.not_holds_free
  · nofun

theorem Agrees.step (agrees : state.Agrees bodies)
    (stepped : state.step bodies action = some next) : next.Agrees bodies := by
  intro client mode
  obtain ⟨actor, body, mutex, rfl, outside, acquired, rfl⟩ |
    ⟨actor, body, shared, rfl, entered, performed, rfl⟩ |
    ⟨actor, body, changed, mutex, rfl, performed, released, rfl⟩ := step_cases stepped
  · rw [move_mutex, RWMutex.holds_acquire acquired, agrees client mode]
    by_cases same : client = actor
    · subst same
      simp [outside, Phase.body, eq_comm]
    · simp [same, move_phase_of_ne same]
  · rw [move_mutex, agrees client mode]
    by_cases same : client = actor
    · subst same
      simp [entered, Phase.body]
    · simp [move_phase_of_ne same]
  · rw [move_mutex, RWMutex.holds_release released, agrees client mode]
    by_cases same : client = actor
    · subst same
      simp [Phase.body]
    · simp [same, move_phase_of_ne same]

/-- Who may write found nobody inside. -/
theorem Agrees.outside_of_acquire {client other : ι} {mutex : RWMutex ι}
    (agrees : state.Agrees bodies) (acquired : state.mutex.acquire client .write = some mutex) :
    state.phase other = .outside := by
  rw [← Phase.body_eq_none_iff, Option.eq_none_iff_forall_ne_some]
  intro body inside
  have holds : state.mutex.Holds other (bodies.mode body) :=
    (agrees other _).mpr (by simp [inside])
  exact RWMutex.not_holds_of_acquire_write acquired holds

/-! ## Exclusion -/

omit [DecidableEq ι] in
theorem start_exclusive (shared : S) : (start shared : Clients ι B S).Exclusive bodies :=
  fun _ _ _ _ => rfl

section Step

variable {client : ι} {body : B} {phase : Phase B} {mutex : RWMutex ι} {shared : S}

/-- Exclusion after a move, in terms of the others before it. -/
theorem exclusive_move_iff :
    (state.move client phase mutex shared).Exclusive bodies ↔
      (phase.changing bodies shared = true → ∀ other, other ≠ client →
        state.phase other = .outside) ∧
      ∀ changer, changer ≠ client → (state.phase changer).changing bodies shared = true →
        phase = .outside ∧ ∀ other, other ≠ changer → other ≠ client →
          state.phase other = .outside := by
  constructor
  · intro exclusive
    constructor
    · intro changes other differs
      rw [← move_phase_of_ne differs]
      exact exclusive client (by simpa using changes) other differs
    · intro changer away changes
      have alone := exclusive changer (by simpa [move_phase_of_ne away] using changes)
      refine ⟨by simpa using alone client away.symm, ?_⟩
      intro other differs apart
      rw [← move_phase_of_ne apart]
      exact alone other differs
  · rintro ⟨moved, stayed⟩ changer changes other differs
    by_cases same : changer = client
    · subst same
      rw [move_phase_of_ne differs]
      exact moved (by simpa using changes) other differs
    · obtain ⟨outside, alone⟩ :=
        stayed changer same (by simpa [move_phase_of_ne same] using changes)
      by_cases apart : other = client
      · rw [apart, move_phase_self]
        exact outside
      · rw [move_phase_of_ne apart]
        exact alone other differs apart

/-- A client that enters keeps exclusion exactly if it stays apart. -/
theorem Agrees.exclusive_enter_iff (agrees : state.Agrees bodies)
    (outside : state.phase client = .outside)
    (acquired : state.mutex.acquire client (bodies.mode body) = some mutex) :
    (state.move client (.entered body) mutex state.shared).Exclusive bodies ↔
      state.Apart bodies (.enter client body) := by
  rw [exclusive_move_iff]
  constructor
  · rintro ⟨moved, stayed⟩ _ other inside
    have differs : other ≠ client := by
      rintro rfl
      exact inside outside
    constructor
    · exact Bool.eq_false_of_not_eq_true fun changes => inside (moved changes other differs)
    · exact Bool.eq_false_of_not_eq_true fun changes => nomatch (stayed other differs changes).1
  · intro apart
    cases mode : bodies.mode body with
    | read =>
        constructor
        · intro changes other _
          by_contra inside
          exact Bool.false_ne_true ((apart mode other inside).1.symm.trans changes)
        · intro changer _ changes
          have inside : state.phase changer ≠ .outside := by
            intro away
            rw [away] at changes
            cases changes
          exact absurd ((apart mode changer inside).2.symm.trans changes) Bool.false_ne_true
    | write =>
        rw [mode] at acquired
        have empty : ∀ other, state.phase other = .outside := fun other =>
          agrees.outside_of_acquire acquired
        refine ⟨fun _ other _ => empty other, ?_⟩
        intro changer _ changes
        rw [empty changer] at changes
        cases changes

theorem Exclusive.perform (exclusive : state.Exclusive bodies)
    (entered : state.phase client = .entered body)
    (performed : bodies.perform body state.shared = some shared) :
    (state.move client (.performed body (bodies.changes body state.shared)) state.mutex
      shared).Exclusive bodies := by
  have alone : bodies.changes body state.shared = true →
      ∀ other, other ≠ client → state.phase other = .outside := by
    intro changes
    exact exclusive client (by rw [entered]; exact changes)
  rw [exclusive_move_iff]
  refine ⟨alone, ?_⟩
  intro changer away changes
  cases changing : bodies.changes body state.shared with
  | true =>
      rw [alone changing changer away] at changes
      cases changes
  | false =>
      -- The data are as before, and a changer that was there kept the client outside.
      cases bodies.unchanged changing performed
      have outside := exclusive changer changes client away.symm
      rw [entered] at outside
      cases outside

theorem Exclusive.leave (exclusive : state.Exclusive bodies) :
    (state.move client .outside mutex state.shared).Exclusive bodies := by
  rw [exclusive_move_iff]
  constructor
  · nofun
  · intro changer _ changes
    exact ⟨rfl, fun other differs _ => exclusive changer changes other differs⟩

/-- An action keeps exclusion exactly if it stays apart. -/
theorem Exclusive.step_iff (exclusive : state.Exclusive bodies) (agrees : state.Agrees bodies)
    (stepped : state.step bodies action = some next) :
    next.Exclusive bodies ↔ state.Apart bodies action := by
  obtain ⟨actor, body, mutex, rfl, outside, acquired, rfl⟩ |
    ⟨actor, body, shared, rfl, entered, performed, rfl⟩ |
    ⟨actor, body, changed, mutex, rfl, performed, released, rfl⟩ := step_cases stepped
  · exact agrees.exclusive_enter_iff outside acquired
  · exact iff_of_true (exclusive.perform entered performed) trivial
  · exact iff_of_true exclusive.leave trivial

end Step

omit [DecidableEq ι] in
/-- A writer that is inside holds the lock. -/
theorem Agrees.holds_write {client : ι} {body : B} (agrees : state.Agrees bodies)
    (entered : state.phase client = .entered body) (writes : bodies.mode body = .write) :
    state.mutex.Holds client .write := by
  rw [agrees client .write, entered, Phase.body, Option.map_some, writes]

/-- A writer that its body does not let go stops everybody. -/
theorem Agrees.step_eq_none {client : ι} {body : B} (agrees : state.Agrees bodies)
    (entered : state.phase client = .entered body) (writes : bodies.mode body = .write)
    (stuck : bodies.perform body state.shared = none) : state.step bodies action = none := by
  have holds := agrees.holds_write entered writes
  have alone : ∀ other inside, (state.phase other).body = some inside → other = client := by
    intro other inside within
    have held := (agrees other (bodies.mode inside)).mpr (by rw [within, Option.map_some])
    exact RWMutex.eq_of_holds_write holds held
  rw [Option.eq_none_iff_forall_ne_some]
  intro next stepped
  obtain ⟨actor, other, mutex, rfl, outside, acquired, rfl⟩ |
    ⟨actor, other, shared, rfl, before, performed, rfl⟩ |
    ⟨actor, other, changed, mutex, rfl, after, released, rfl⟩ := step_cases stepped
  · exact RWMutex.not_holds_of_acquire acquired holds
  · cases alone actor other (by rw [before]; rfl)
    rw [entered] at before
    cases before
    rw [stuck] at performed
    cases performed
  · cases alone actor other (by rw [after]; rfl)
    rw [entered] at after
    cases after

/-! ## Runs -/

/-- What every body keeps of the data holds after every run. -/
theorem run_shared (inv : S → Prop)
    (keeps : ∀ {body shared next}, inv shared → bodies.perform body shared = some next → inv next)
    (initial : inv state.shared) {actions : List (Action ι B)}
    (ran : state.run bodies actions = some next) : inv next.shared := by
  refine @runFrom_invariant _ _ (step bodies) state next actions (fun state => inv state.shared)
    ?_ initial ran
  intro state action next held stepped
  obtain ⟨actor, body, mutex, rfl, outside, acquired, rfl⟩ |
    ⟨actor, body, shared, rfl, entered, performed, rfl⟩ |
    ⟨actor, body, changed, mutex, rfl, performed, released, rfl⟩ := step_cases stepped
  · exact held
  · exact keeps held performed
  · exact held

theorem Agrees.run (agrees : state.Agrees bodies) {actions : List (Action ι B)}
    (ran : state.run bodies actions = some next) : next.Agrees bodies :=
  runFrom_invariant Agrees.step agrees ran

/-- A writer whose body returns gives the lock back, and then nobody holds it. -/
theorem Agrees.run_leave {client : ι} {body : B} {shared : S} (agrees : state.Agrees bodies)
    (entered : state.phase client = .entered body) (writes : bodies.mode body = .write)
    (performed : bodies.perform body state.shared = some shared) :
    state.run bodies [.perform client, .leave client] =
      some ⟨.free, shared, Function.update state.phase client .outside⟩ := by
  have locked := RWMutex.eq_writer_of_holds (agrees.holds_write entered writes)
  simp [Clients.run, Clients.step, entered, performed, locked, writes, RWMutex.release, move]

/-- A run keeps exclusion in every state it passes exactly if all its actions stay apart. -/
theorem Exclusive.run_iff (exclusive : state.Exclusive bodies) (agrees : state.Agrees bodies)
    {actions : List (Action ι B)} (ran : state.run bodies actions = some next) :
    (∀ front middle, front <+: actions → state.run bodies front = some middle →
        middle.Exclusive bodies) ↔
      ∀ front action middle, front ++ [action] <+: actions →
        state.run bodies front = some middle → middle.Apart bodies action := by
  have always : (∀ middle, Passes (step bodies) state actions middle → middle.Exclusive bodies) ↔
      ∀ middle action, Takes (step bodies) state actions middle action →
        middle.Apart bodies action :=
    runFrom_always_iff Agrees.step (fun held alone stepped => alone.step_iff held stepped) agrees
      exclusive ran
  constructor
  · intro passing front action middle initial passed
    refine always.mp ?_ middle action ⟨front, initial, passed⟩
    rintro other ⟨shorter, begins, reached⟩
    exact passing shorter other begins reached
  · intro apart front middle initial passed
    refine always.mpr ?_ middle ⟨front, initial, passed⟩
    rintro other action ⟨shorter, begins, reached⟩
    exact apart shorter action other begins reached

end Clients

end CommonGo.Program
