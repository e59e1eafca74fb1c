import CommonGo.Program.Procedure
import CommonGo.Program.RWMutex

/-!
# Methods that run step by step under a readers-writer lock

The body of a method takes many steps on shared data, and the steps of different callers interleave.
Every body holds the lock from its first step to its last, and one that holds it in read mode has
only operations that leave the data alone.  Then every call takes effect at once: the calls that
have returned returned what they would have returned one after another, in the order in which they
gave the lock back.
-/

namespace CommonGo.Program

variable {ι C R S Look Change : Type} {Seen : Look → Type} {Done : Change → Type}

/-! ## Methods -/

/-- The code of a call, by the mode in which it holds the lock. -/
inductive Body (Look : Type) (Seen : Look → Type) (Change : Type) (Done : Change → Type)
    (R : Type) where
  | reading (code : Procedure Look Seen R)
  | writing (code : Procedure Change Done R)

/-- Shared data with the operations that bodies are made of, and the body of every call. -/
structure Methods (C R S Look : Type) (Seen : Look → Type) (Change : Type)
    (Done : Change → Type) where
  /-- What a read operation sees. -/
  look : (op : Look) → S → Seen op
  /-- What a write operation does. -/
  change : Handler Change Done S
  /-- What is done for a call under the lock. -/
  body : C → Body Look Seen Change Done R

/-- The mode in which a body takes the lock. -/
def Body.mode : Body Look Seen Change Done R → Mode
  | reading _ => .read
  | writing _ => .write

namespace Methods

variable (methods : Methods C R S Look Seen Change Done)

/-- What a body returns if it runs alone, and the data it leaves. -/
def finish : Body Look Seen Change Done R → S → R × S
  | .reading code, shared => code.run (fun op shared => (methods.look op shared, shared)) shared
  | .writing code, shared => code.run methods.change shared

/-- A call that is alone. -/
def perform (call : C) (shared : S) : R × S := methods.finish (methods.body call) shared

end Methods

/-- A call with what it returned, and to whom. -/
structure Completed (ι C R : Type) where
  /-- Who called. -/
  client : ι
  /-- The call. -/
  call : C
  /-- What it returned. -/
  value : R

/-- Who called what. -/
def Completed.origin (completed : Completed ι C R) : ι × C := (completed.client, completed.call)

/-- Calls one after another, with what each of them returns and the data they leave. -/
def Methods.sequence (methods : Methods C R S Look Seen Change Done) (shared : S)
    (calls : List (ι × C)) : List (Completed ι C R) × S :=
  calls.foldl (fun (completed, shared) (client, call) =>
    (completed ++ [⟨client, call, (methods.perform call shared).1⟩],
      (methods.perform call shared).2)) ([], shared)

/-! ## Callers -/

/-- Where a caller is. -/
inductive Stage (C R Look : Type) (Seen : Look → Type) (Change : Type) (Done : Change → Type) where
  | outside
  | inside (call : C) (rest : Body Look Seen Change Done R)
  | returning (call : C) (value : R)

/-- The call a caller is in. -/
def Stage.call : Stage C R Look Seen Change Done → Option C
  | outside => none
  | inside call _ => some call
  | returning call _ => some call

/-- Callers, the lock, the data it guards and the calls that have returned. -/
structure Callers (ι C R S Look : Type) (Seen : Look → Type) (Change : Type)
    (Done : Change → Type) where
  /-- The lock. -/
  mutex : RWMutex ι
  /-- The data. -/
  shared : S
  /-- Where each caller is. -/
  stage : ι → Stage C R Look Seen Change Done
  /-- The calls that have returned, in the order in which they took effect. -/
  completed : List (Completed ι C R)

/-- What a caller does next. -/
inductive Move (ι C : Type) where
  | lock (client : ι) (call : C)
  | work (client : ι)
  | unlock (client : ι)

namespace Callers

/-- Nobody has called yet. -/
def start (shared : S) : Callers ι C R S Look Seen Change Done :=
  ⟨.free, shared, fun _ => .outside, []⟩

variable [DecidableEq ι]

/-- The caller comes to a stage. -/
def put (state : Callers ι C R S Look Seen Change Done) (client : ι)
    (stage : Stage C R Look Seen Change Done) (shared : S) :
    Callers ι C R S Look Seen Change Done :=
  { state with stage := Function.update state.stage client stage, shared }

/-- One move; `none` if the caller cannot make it, or not yet. -/
def step (methods : Methods C R S Look Seen Change Done)
    (state : Callers ι C R S Look Seen Change Done) :
    Move ι C → Option (Callers ι C R S Look Seen Change Done)
  | .lock client call =>
      match state.stage client with
      | .outside => (state.mutex.acquire client (methods.body call).mode).map fun mutex =>
          { state.put client (.inside call (methods.body call)) state.shared with mutex }
      | _ => none
  | .work client =>
      match state.stage client with
      | .inside call (.reading (.done value)) =>
          some (state.put client (.returning call value) state.shared)
      | .inside call (.reading (.call op next)) =>
          some (state.put client (.inside call (.reading (next (methods.look op state.shared))))
            state.shared)
      | .inside call (.writing (.done value)) =>
          some (state.put client (.returning call value) state.shared)
      | .inside call (.writing (.call op next)) =>
          some (state.put client (.inside call
            (.writing (next (methods.change op state.shared).1)))
            (methods.change op state.shared).2)
      | _ => none
  | .unlock client =>
      match state.stage client with
      | .returning call value =>
          (state.mutex.release client (methods.body call).mode).map fun mutex =>
            { state.put client .outside state.shared with
              mutex, completed := state.completed ++ [⟨client, call, value⟩] }
      | _ => none

variable {methods : Methods C R S Look Seen Change Done}
  {state next : Callers ι C R S Look Seen Change Done} {move : Move ι C}

section Put

variable {client other : ι} {stage : Stage C R Look Seen Change Done} {shared : S}

@[simp] theorem put_stage_self : (state.put client stage shared).stage client = stage :=
  Function.update_self ..

theorem put_stage_of_ne (differs : other ≠ client) :
    (state.put client stage shared).stage other = state.stage other :=
  Function.update_of_ne differs ..

end Put

/-- All that one move can do: take the lock, go on with a body without changing what it returns
alone, and only in write mode changing the data, come to its end, or give the lock back. -/
theorem step_cases (stepped : state.step methods move = some next) :
    (∃ client call mutex, move = .lock client call ∧ state.stage client = .outside ∧
      state.mutex.acquire client (methods.body call).mode = some mutex ∧
      next = { state.put client (.inside call (methods.body call)) state.shared with mutex }) ∨
    (∃ client call rest later shared, move = .work client ∧
      state.stage client = .inside call rest ∧ later.mode = rest.mode ∧
      methods.finish later shared = methods.finish rest state.shared ∧
      (rest.mode = .read → shared = state.shared) ∧
      next = state.put client (.inside call later) shared) ∨
    (∃ client call rest value, move = .work client ∧ state.stage client = .inside call rest ∧
      methods.finish rest state.shared = (value, state.shared) ∧
      next = state.put client (.returning call value) state.shared) ∨
    ∃ client call value mutex, move = .unlock client ∧
      state.stage client = .returning call value ∧
      state.mutex.release client (methods.body call).mode = some mutex ∧
      next = { state.put client .outside state.shared with
        mutex, completed := state.completed ++ [⟨client, call, value⟩] } := by
  cases move with
  | lock client call =>
      rw [step] at stepped
      split at stepped
      · next outside =>
          obtain ⟨mutex, acquired, rfl⟩ := Option.map_eq_some_iff.mp stepped
          exact Or.inl ⟨client, call, mutex, rfl, outside, acquired, rfl⟩
      · cases stepped
  | work client =>
      rw [step] at stepped
      split at stepped
      · next call value inside =>
          cases stepped
          exact Or.inr (Or.inr (Or.inl ⟨client, call, _, value, rfl, inside, rfl, rfl⟩))
      · next call op code inside =>
          cases stepped
          exact Or.inr (Or.inl ⟨client, call, _, .reading (code (methods.look op state.shared)),
            state.shared, rfl, inside, rfl, rfl, fun _ => rfl, rfl⟩)
      · next call value inside =>
          cases stepped
          exact Or.inr (Or.inr (Or.inl ⟨client, call, _, value, rfl, inside, rfl, rfl⟩))
      · next call op code inside =>
          cases stepped
          have writes : (.writing (.call op code) : Body Look Seen Change Done R).mode ≠ .read :=
            Mode.noConfusion
          exact Or.inr (Or.inl ⟨client, call, _, .writing (code (methods.change op state.shared).1),
            (methods.change op state.shared).2, rfl, inside, rfl, rfl,
            fun reads => absurd reads writes, rfl⟩)
      · cases stepped
  | unlock client =>
      rw [step] at stepped
      split at stepped
      · next call value returning =>
          obtain ⟨mutex, released, rfl⟩ := Option.map_eq_some_iff.mp stepped
          exact Or.inr (Or.inr (Or.inr
            ⟨client, call, value, mutex, rfl, returning, released, rfl⟩))
      · cases stepped

/-! ## The lock -/

/-- The lock is held by those who are in a call, in the modes of their calls. -/
def Agrees (methods : Methods C R S Look Seen Change Done)
    (state : Callers ι C R S Look Seen Change Done) : Prop :=
  ∀ client mode, state.mutex.Holds client mode ↔
    (state.stage client).call.map (fun call => (methods.body call).mode) = some mode

omit [DecidableEq ι] in
theorem start_agrees (shared : S) :
    (start shared : Callers ι C R S Look Seen Change Done).Agrees methods := by
  intro client mode
  constructor
  · intro holds
    exact absurd holds RWMutex.not_holds_free
  · nofun

/-- A caller that stays in its call leaves the holders as they are. -/
theorem Agrees.put {client : ι} {call : C} {stage : Stage C R Look Seen Change Done} {shared : S}
    (agrees : state.Agrees methods) (before : (state.stage client).call = some call)
    (after : stage.call = some call) : (state.put client stage shared).Agrees methods := by
  intro other mode
  change state.mutex.Holds other mode ↔ _
  rw [agrees other mode]
  by_cases same : other = client
  · subst same
    rw [put_stage_self, before, after]
  · rw [put_stage_of_ne same]

theorem Agrees.step (agrees : state.Agrees methods)
    (stepped : state.step methods move = some next) : next.Agrees methods := by
  obtain ⟨actor, call, mutex, rfl, outside, acquired, rfl⟩ |
    ⟨actor, call, rest, later, shared, rfl, inside, _, _, _, rfl⟩ |
    ⟨actor, call, rest, value, rfl, inside, _, rfl⟩ |
    ⟨actor, call, value, mutex, rfl, returning, released, rfl⟩ := step_cases stepped
  · intro client mode
    change mutex.Holds client mode ↔ _
    rw [RWMutex.holds_acquire acquired, agrees client mode]
    by_cases same : client = actor
    · subst same
      simp [outside, Stage.call, eq_comm]
    · simp [same, put_stage_of_ne same]
  · exact agrees.put (by rw [inside]; rfl) rfl
  · exact agrees.put (by rw [inside]; rfl) rfl
  · intro client mode
    change mutex.Holds client mode ↔ _
    rw [RWMutex.holds_release released, agrees client mode]
    by_cases same : client = actor
    · subst same
      simp [Stage.call]
    · simp [same, put_stage_of_ne same]

section Within

variable {client other : ι} {call called : C}

omit [DecidableEq ι] in
/-- A caller in a call holds the lock in its mode. -/
theorem Agrees.holds (agrees : state.Agrees methods)
    (within : (state.stage client).call = some call) :
    state.mutex.Holds client (methods.body call).mode := by
  rw [agrees client, within, Option.map_some]

omit [DecidableEq ι] in
/-- A caller that may write is alone. -/
theorem Agrees.eq_of_writes (agrees : state.Agrees methods)
    (within : (state.stage client).call = some call) (writes : (methods.body call).mode = .write)
    (inside : (state.stage other).call = some called) : other = client := by
  have holds := agrees.holds within
  rw [writes] at holds
  exact RWMutex.eq_of_holds_write holds (agrees.holds inside)

omit [DecidableEq ι] in
theorem Agrees.outside_of_writes (agrees : state.Agrees methods)
    (within : (state.stage client).call = some call) (writes : (methods.body call).mode = .write)
    (differs : other ≠ client) : state.stage other = .outside := by
  cases away : state.stage other with
  | outside => rfl
  | inside called rest =>
      exact absurd (agrees.eq_of_writes within writes (by rw [away]; rfl)) differs
  | returning called value =>
      exact absurd (agrees.eq_of_writes within writes (by rw [away]; rfl)) differs

omit [DecidableEq ι] in
/-- Beside a reader there are only readers. -/
theorem Agrees.reads (agrees : state.Agrees methods)
    (within : (state.stage client).call = some call) (reads : (methods.body call).mode = .read)
    (inside : (state.stage other).call = some called) : (methods.body called).mode = .read := by
  cases mode : (methods.body called).mode with
  | read => rfl
  | write =>
      cases agrees.eq_of_writes inside mode within
      rw [within] at inside
      cases inside
      rw [mode] at reads
      cases reads

/-- Who comes in finds only readers. -/
theorem Agrees.reads_of_acquire {mode : Mode} {mutex : RWMutex ι} (agrees : state.Agrees methods)
    (acquired : state.mutex.acquire client mode = some mutex)
    (inside : (state.stage other).call = some called) : (methods.body called).mode = .read := by
  cases writes : (methods.body called).mode with
  | read => rfl
  | write =>
      have holds := agrees.holds inside
      rw [writes] at holds
      exact absurd holds (RWMutex.not_holds_of_acquire acquired)

end Within

/-! ## Every call takes effect at once -/

/-- What a caller will return, and leave, is what its call would return and leave if it were
performed at once on these data. -/
def Follows (methods : Methods C R S Look Seen Change Done) (base shared : S) :
    Stage C R Look Seen Change Done → Prop
  | .outside => True
  | .inside call rest => rest.mode = (methods.body call).mode ∧
      methods.finish rest shared = methods.perform call base
  | .returning call value => (value, shared) = methods.perform call base

/-- The calls that have returned are a sequence of calls that leaves these data, all callers follow
them, and unless somebody writes they are the shared data. -/
structure Explains (methods : Methods C R S Look Seen Change Done) (initial : S)
    (state : Callers ι C R S Look Seen Change Done) (base : S) : Prop where
  /-- One after the other, the calls return what they did and leave these data. -/
  sequence : methods.sequence initial (state.completed.map Completed.origin) =
    (state.completed, base)
  /-- Every caller is where its body is on these data. -/
  follows : ∀ client, Follows methods base state.shared (state.stage client)
  /-- Unless somebody writes, the data are the shared ones. -/
  settled : (∀ client call, (state.stage client).call = some call →
    (methods.body call).mode = .read) → base = state.shared

omit [DecidableEq ι] in
theorem start_explains (initial : S) :
    (start initial : Callers ι C R S Look Seen Change Done).Explains methods initial initial where
  sequence := rfl
  follows := fun _ => trivial
  settled := fun _ => rfl

variable {initial base : S}

section Moves

variable {client : ι} {call : C} {rest later : Body Look Seen Change Done R} {value : R}
  {shared : S} {mutex : RWMutex ι}

theorem follows_put {stage : Stage C R Look Seen Change Done}
    (own : Follows methods base shared stage)
    (others : ∀ other, other ≠ client → Follows methods base shared (state.stage other))
    (other : ι) : Follows methods base shared ((state.put client stage shared).stage other) := by
  by_cases actor : other = client
  · subst actor
    rw [put_stage_self]
    exact own
  · rw [put_stage_of_ne actor]
    exact others other actor

omit [DecidableEq ι] in
/-- While a caller reads, the shared data are those that the calls before have left. -/
theorem Explains.settled_of_reads (explains : state.Explains methods initial base)
    (agrees : state.Agrees methods) (within : (state.stage client).call = some call)
    (reads : (methods.body call).mode = .read) : base = state.shared :=
  explains.settled fun _ _ inside => agrees.reads within reads inside

/-- Who comes in finds the data that the calls before it have left. -/
theorem Explains.lock (explains : state.Explains methods initial base)
    (agrees : state.Agrees methods)
    (acquired : state.mutex.acquire client (methods.body call).mode = some mutex) :
    ({ state.put client (.inside call (methods.body call)) state.shared with mutex } :
      Callers ι C R S Look Seen Change Done).Explains methods initial base := by
  have same : base = state.shared :=
    explains.settled fun _ _ inside => agrees.reads_of_acquire acquired inside
  have begins : Follows methods base state.shared (.inside call (methods.body call)) := by
    rw [same]
    exact ⟨rfl, rfl⟩
  exact ⟨explains.sequence, follows_put begins fun other _ => explains.follows other,
    fun _ => same⟩

/-- A step of a body changes the data only where nobody else follows them. -/
theorem Explains.work (explains : state.Explains methods initial base)
    (agrees : state.Agrees methods) (inside : state.stage client = .inside call rest)
    (mode : later.mode = rest.mode)
    (finish : methods.finish later shared = methods.finish rest state.shared)
    (quiet : rest.mode = .read → shared = state.shared) :
    (state.put client (.inside call later) shared).Explains methods initial base := by
  have within : (state.stage client).call = some call := by rw [inside]; rfl
  have followed := explains.follows client
  rw [inside] at followed
  refine ⟨explains.sequence, follows_put ⟨mode.trans followed.1, finish.trans followed.2⟩ ?_, ?_⟩
  · intro other differs
    cases taken : rest.mode with
    | read =>
        cases quiet taken
        exact explains.follows other
    | write =>
        rw [agrees.outside_of_writes within (followed.1.symm.trans taken) differs]
        trivial
  · intro reads
    have taken : (methods.body call).mode = .read :=
      reads client call (by rw [put_stage_self]; rfl)
    cases quiet (followed.1.trans taken)
    exact explains.settled_of_reads agrees within taken

theorem Explains.result (explains : state.Explains methods initial base)
    (agrees : state.Agrees methods) (inside : state.stage client = .inside call rest)
    (finish : methods.finish rest state.shared = (value, state.shared)) :
    (state.put client (.returning call value) state.shared).Explains methods initial base := by
  have within : (state.stage client).call = some call := by rw [inside]; rfl
  have followed := explains.follows client
  rw [inside] at followed
  refine ⟨explains.sequence,
    follows_put (finish.symm.trans followed.2) fun other _ => explains.follows other, ?_⟩
  intro reads
  have taken : (methods.body call).mode = .read := reads client call (by rw [put_stage_self]; rfl)
  exact explains.settled_of_reads agrees within taken

/-- The call that gives the lock back is the next of the sequence. -/
theorem Explains.unlock (explains : state.Explains methods initial base)
    (agrees : state.Agrees methods) (returning : state.stage client = .returning call value) :
    ({ state.put client .outside state.shared with
        mutex, completed := state.completed ++ [⟨client, call, value⟩] } :
      Callers ι C R S Look Seen Change Done).Explains methods initial state.shared := by
  have within : (state.stage client).call = some call := by rw [returning]; rfl
  have followed := explains.follows client
  rw [returning] at followed
  refine ⟨?_, follows_put trivial ?_, fun _ => rfl⟩
  · have before := explains.sequence
    rw [Methods.sequence] at before ⊢
    rw [List.map_append, List.foldl_append, before]
    simp only [List.map_cons, List.map_nil, List.foldl_cons, List.foldl_nil, Completed.origin]
    rw [← show (value, state.shared) = methods.perform call base from followed]
  · intro other differs
    cases taken : (methods.body call).mode with
    | read =>
        have follows := explains.follows other
        rwa [explains.settled_of_reads agrees within taken] at follows
    | write =>
        rw [agrees.outside_of_writes within taken differs]
        trivial

end Moves

theorem Explains.step (explains : state.Explains methods initial base)
    (agrees : state.Agrees methods) (stepped : state.step methods move = some next) :
    ∃ base, next.Explains methods initial base := by
  obtain ⟨actor, call, mutex, rfl, _, acquired, rfl⟩ |
    ⟨actor, call, rest, later, shared, rfl, inside, mode, finish, quiet, rfl⟩ |
    ⟨actor, call, rest, value, rfl, inside, finish, rfl⟩ |
    ⟨actor, call, value, mutex, rfl, returning, _, rfl⟩ := step_cases stepped
  · exact ⟨base, explains.lock agrees acquired⟩
  · exact ⟨base, explains.work agrees inside mode finish quiet⟩
  · exact ⟨base, explains.result agrees inside finish⟩
  · exact ⟨state.shared, explains.unlock agrees returning⟩

/-- In every run the calls that have returned are a sequence of calls. -/
theorem exists_explains {moves : List (Move ι C)}
    (ran : runFrom (step methods) (start initial) moves = some state) :
    ∃ base, state.Explains methods initial base := by
  have both : state.Agrees methods ∧ ∃ base, state.Explains methods initial base := by
    refine @runFrom_invariant _ _ (Callers.step methods) _ _ _
      (fun state => state.Agrees methods ∧ ∃ base, state.Explains methods initial base) ?_
      ⟨start_agrees initial, initial, start_explains initial⟩ ran
    rintro state move next ⟨agrees, base, explains⟩ stepped
    exact ⟨agrees.step stepped, explains.step agrees stepped⟩
  exact both.2

end Callers

end CommonGo.Program
