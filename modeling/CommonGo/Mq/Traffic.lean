import Mathlib.Data.Finset.Erase
import Mathlib.Data.Finset.Insert
import Mathlib.Data.Finset.Prod
import Mathlib.Logic.Function.Basic
import CommonGo.Mq.Consume
import CommonGo.Program.Run

/-!
# At-least-once handling

The server keeps the unacknowledged messages of every consumer and may send any of them, to any
subscriber of the consumer and as often as it likes.  It forgets a message when an acknowledgement
for it arrives.  Messages and acknowledgements may be lost on the way.  Every subscriber runs
`consumeLoop`, and its handler does not acknowledge messages itself.
-/

namespace CommonGo.Mq

open Program

variable {ι γ μ ε : Type}

/-- What is recorded of a run. -/
inductive Event (ι γ μ ε : Type) where
  /-- `NextMsgWithContext` returned a message to a subscriber. -/
  | delivered (subscriber : ι) (msg : Delivery γ μ)
  /-- The handler of a subscriber was called and returned. -/
  | handled (subscriber : ι) (m : Message γ μ) (result : Option ε)
  /-- A subscriber sent an acknowledgement. -/
  | acked (subscriber : ι) (msg : Delivery γ μ)
  deriving DecidableEq

/-- The event is a call of a handler with the message made of a delivery. -/
def Event.hands [DecidableEq γ] [DecidableEq μ] (msg : Delivery γ μ) : Event ι γ μ ε → Bool
  | .handled _ m _ => m == newMessage msg
  | _ => false

/-- The server, what is on the way between it and the subscribers, and the subscribers. -/
structure Traffic (ι γ μ ε : Type) where
  /-- The messages for each consumer. -/
  published : Finset (γ × μ)
  /-- Those that the server still has to deliver. -/
  unacked : Finset (γ × μ)
  /-- Messages sent to subscribers and not returned by `NextMsgWithContext`. -/
  pending : List (ι × μ)
  /-- The number of the next delivery. -/
  next : Nat
  /-- Acknowledgements sent to the server. -/
  acks : List (Delivery γ μ)
  /-- Where the loop of each subscriber is. -/
  loop : ι → Loop γ μ ε
  /-- Why each context is done, if it is. -/
  ctx : ι → Option (ContextError ε)
  /-- What has happened so far. -/
  log : List (Event ι γ μ ε)

/-- What happens next. -/
inductive TrafficAction (ι γ μ ε : Type) where
  | publish (consumer : γ) (message : μ)
  | send (subscriber : ι) (message : μ)
  | lose (subscriber : ι) (message : μ)
  | cancel (subscriber : ι) (err : ContextError ε)
  | enter (subscriber : ι)
  | expire (subscriber : ι)
  | fail (subscriber : ι) (err : ε)
  | receive (subscriber : ι) (message : μ)
  | handle (subscriber : ι) (result : Option ε)
  /-- `m.Ack()` returns; `sent` says whether the acknowledgement went out. -/
  | ack (subscriber : ι) (sent : Bool)
  | arrive (msg : Delivery γ μ)
  | loseAck (msg : Delivery γ μ)

namespace Traffic

/-- Nothing has been published, and every subscriber is about to ask for its first message. -/
def start : Traffic ι γ μ ε :=
  { published := ∅, unacked := ∅, pending := [], next := 0, acks := []
    loop := fun _ => .calling, ctx := fun _ => none, log := [] }

variable [DecidableEq ι] [DecidableEq γ] [DecidableEq μ]

/-- A subscriber comes to a new place in its loop, and events are recorded. -/
def advance (state : Traffic ι γ μ ε) (subscriber : ι) (loop : Loop γ μ ε)
    (events : List (Event ι γ μ ε)) : Traffic ι γ μ ε :=
  { state with loop := Function.update state.loop subscriber loop, log := events ++ state.log }

/-- The turn of a subscriber that concerns nobody else. -/
def quiet (state : Traffic ι γ μ ε) (subscriber : ι) (turn : Turn γ μ ε) :
    Option (Traffic ι γ μ ε) :=
  ((state.loop subscriber).step (state.ctx subscriber) turn).map fun loop =>
    state.advance subscriber loop []

/-- The delivery with which the next message reaches a subscriber. -/
def nextDelivery (consumerOf : ι → γ) (state : Traffic ι γ μ ε) (subscriber : ι) (message : μ) :
    Delivery γ μ :=
  ⟨consumerOf subscriber, message, state.next⟩

/-- One action; `none` if it cannot happen.  A subscriber has the consumer `consumerOf` it. -/
def step (consumerOf : ι → γ) (state : Traffic ι γ μ ε) :
    TrafficAction ι γ μ ε → Option (Traffic ι γ μ ε)
  | .publish consumer message =>
      if (consumer, message) ∈ state.published then none
      else some { state with
        published := insert (consumer, message) state.published
        unacked := insert (consumer, message) state.unacked }
  | .send subscriber message =>
      if (consumerOf subscriber, message) ∈ state.unacked then
        some { state with pending := (subscriber, message) :: state.pending }
      else none
  | .lose subscriber message =>
      some { state with pending := state.pending.erase (subscriber, message) }
  | .cancel subscriber err =>
      match state.ctx subscriber with
      | none => some { state with ctx := Function.update state.ctx subscriber (some err) }
      | some _ => none
  | .enter subscriber => state.quiet subscriber .enter
  | .expire subscriber => state.quiet subscriber .expire
  | .fail subscriber err => state.quiet subscriber (.fail err)
  | .receive subscriber message =>
      if (subscriber, message) ∈ state.pending then
        ((state.loop subscriber).step (state.ctx subscriber)
            (.receive (state.nextDelivery consumerOf subscriber message))).map fun loop =>
          { state.advance subscriber loop
              [.delivered subscriber (state.nextDelivery consumerOf subscriber message)] with
            pending := state.pending.erase (subscriber, message), next := state.next + 1 }
      else none
  | .handle subscriber result =>
      match state.loop subscriber with
      | .handling m =>
          ((state.loop subscriber).step (state.ctx subscriber) (.handle result)).map fun loop =>
            state.advance subscriber loop [.handled subscriber m result]
      | _ => none
  | .ack subscriber sent =>
      match state.loop subscriber with
      | .acking m =>
          ((state.loop subscriber).step (state.ctx subscriber) .ack).map fun loop =>
            if sent then
              { state.advance subscriber loop [.acked subscriber m.ack] with
                acks := m.ack :: state.acks }
            else state.advance subscriber loop []
      | _ => none
  | .arrive msg =>
      if msg ∈ state.acks then
        some { state with
          unacked := state.unacked.erase (msg.consumer, msg.message)
          acks := state.acks.erase msg }
      else none
  | .loseAck msg => some { state with acks := state.acks.erase msg }

end Traffic

/-! ## Every delivery is handed over once -/

/-- The loop is about to call the handler with the message made of a delivery. -/
def Loop.holds [DecidableEq γ] [DecidableEq μ] (msg : Delivery γ μ) : Loop γ μ ε → Bool
  | .handling m => m == newMessage msg
  | _ => false

theorem Loop.holds_eq_false [DecidableEq γ] [DecidableEq μ] {loop : Loop γ μ ε}
    {msg : Delivery γ μ} (free : ∀ m, loop ≠ .handling m) : loop.holds msg = false := by
  cases loop with
  | handling m => exact absurd rfl (free m)
  | _ => rfl

variable {next : Nat} {loop : ι → Loop γ μ ε} {log : List (Event ι γ μ ε)} {subscriber : ι}
  {msg : Delivery γ μ} {m : Message γ μ} {place : Loop γ μ ε}

section Handed

variable [DecidableEq γ] [DecidableEq μ]

/-- Every delivery went to one subscriber, which calls its handler once with it. -/
structure Handed (next : Nat) (loop : ι → Loop γ μ ε) (log : List (Event ι γ μ ε)) : Prop where
  /-- Deliveries are numbered in their order. -/
  delivered_lt : ∀ {subscriber msg}, .delivered subscriber msg ∈ log → msg.number < next
  /-- A delivery has one receiver. -/
  receiver : ∀ {subscriber other msg}, .delivered subscriber msg ∈ log →
    .delivered other msg ∈ log → subscriber = other
  /-- A handler runs on a message that was delivered to its subscriber. -/
  holding : ∀ {subscriber m}, loop subscriber = .handling m →
    m = newMessage m.ack ∧ .delivered subscriber m.ack ∈ log
  /-- A handler has run on messages delivered to its subscriber only. -/
  handled : ∀ {subscriber m result}, .handled subscriber m result ∈ log →
    m = newMessage m.ack ∧ .delivered subscriber m.ack ∈ log
  /-- For a delivery the handler has been called once, or is being called. -/
  once : ∀ {subscriber msg}, .delivered subscriber msg ∈ log →
    log.countP (·.hands msg) = if (loop subscriber).holds msg then 0 else 1

namespace Handed

theorem start : Handed 0 (fun _ : ι => (.calling : Loop γ μ ε)) [] where
  delivered_lt := nofun
  receiver := nofun
  holding := nofun
  handled := nofun
  once := nofun

/-- Nothing was handed over before it was delivered. -/
theorem countP_eq_zero (handed : Handed next loop log)
    (undelivered : ∀ subscriber, .delivered subscriber msg ∉ log) :
    log.countP (·.hands msg) = 0 := by
  rw [List.countP_eq_zero]
  intro event member hands
  cases event with
  | handled subscriber m result =>
      obtain rfl : m = newMessage msg := by simpa [Event.hands] using hands
      exact undelivered subscriber (handed.handled member).2
  | delivered _ _ => cases hands
  | acked _ _ => cases hands

theorem acked (handed : Handed next loop log) :
    Handed next loop (.acked subscriber msg :: log) where
  delivered_lt member := handed.delivered_lt (by simpa using member)
  receiver here there := handed.receiver (by simpa using here) (by simpa using there)
  holding held := by simpa using handed.holding held
  handled member := by simpa using handed.handled (by simpa using member)
  once member := by
    rw [List.countP_cons_of_neg (by simp [Event.hands])]
    exact handed.once (by simpa using member)

variable [DecidableEq ι]

/-- A turn from a place without a message to a place without a message. -/
theorem pass (handed : Handed next loop log) (before : ∀ m, loop subscriber ≠ .handling m)
    (after : ∀ m, place ≠ .handling m) :
    Handed next (Function.update loop subscriber place) log where
  delivered_lt := handed.delivered_lt
  receiver := handed.receiver
  handled := handed.handled
  holding := by
    intro other m held
    by_cases same : other = subscriber
    · subst same
      rw [Function.update_self] at held
      exact absurd held (after m)
    · rw [Function.update_of_ne same] at held
      exact handed.holding held
  once := by
    intro other msg member
    rw [handed.once member]
    by_cases same : other = subscriber
    · subst same
      rw [Function.update_self, Loop.holds_eq_false before, Loop.holds_eq_false after]
    · rw [Function.update_of_ne same]

/-- A subscriber without a message gets the next delivery. -/
theorem receive (handed : Handed next loop log) (free : ∀ m, loop subscriber ≠ .handling m)
    (numbered : msg.number = next) :
    Handed (next + 1) (Function.update loop subscriber (.handling (newMessage msg)))
      (.delivered subscriber msg :: log) := by
  have fresh : ∀ other, .delivered other msg ∉ log := by
    intro other member
    exact absurd (handed.delivered_lt member) (by omega)
  have delivered : ∀ {other : ι} {old : Delivery γ μ},
      .delivered other old ∈ (.delivered subscriber msg :: log : List (Event ι γ μ ε)) →
        other = subscriber ∧ old = msg ∨ .delivered other old ∈ log := by
    intro other old member
    simpa using member
  constructor
  case delivered_lt =>
    intro other old member
    rcases delivered member with ⟨rfl, rfl⟩ | member
    · omega
    · exact (handed.delivered_lt member).trans (by omega)
  case receiver =>
    intro one other old here there
    rcases delivered here with ⟨rfl, rfl⟩ | earlier
    · rcases delivered there with ⟨rfl, _⟩ | later
      · rfl
      · exact absurd later (fresh other)
    · rcases delivered there with ⟨rfl, rfl⟩ | later
      · exact absurd earlier (fresh one)
      · exact handed.receiver earlier later
  case holding =>
    intro other m held
    by_cases same : other = subscriber
    · subst same
      rw [Function.update_self] at held
      cases held
      exact ⟨rfl, List.mem_cons_self⟩
    · rw [Function.update_of_ne same] at held
      obtain ⟨whole, member⟩ := handed.holding held
      exact ⟨whole, List.mem_cons_of_mem _ member⟩
  case handled =>
    intro other m result member
    obtain ⟨whole, member⟩ := handed.handled (by simpa using member)
    exact ⟨whole, List.mem_cons_of_mem _ member⟩
  case once =>
    intro other old member
    rw [List.countP_cons_of_neg (by simp [Event.hands])]
    rcases delivered member with ⟨rfl, rfl⟩ | earlier
    · rw [Function.update_self, handed.countP_eq_zero fresh]
      simp [Loop.holds]
    · rw [handed.once earlier]
      by_cases same : other = subscriber
      · -- The subscriber held nothing, and it holds another delivery now.
        subst same
        have differs : msg ≠ old := by
          rintro rfl
          exact fresh other earlier
        rw [Function.update_self, Loop.holds_eq_false free]
        simp [Loop.holds, newMessage_inj, differs]
      · rw [Function.update_of_ne same]

/-- The handler of a subscriber returns. -/
theorem handle (handed : Handed next loop log) {result : Option ε}
    (held : loop subscriber = .handling m) (after : ∀ m, place ≠ .handling m) :
    Handed next (Function.update loop subscriber place) (.handled subscriber m result :: log) := by
  obtain ⟨whole, received⟩ := handed.holding held
  have moved : ∀ {other m'}, Function.update loop subscriber place other = .handling m' →
      loop other = .handling m' := by
    intro other m' held'
    by_cases same : other = subscriber
    · subst same
      rw [Function.update_self] at held'
      exact absurd held' (after m')
    · rwa [Function.update_of_ne same] at held'
  constructor
  case delivered_lt =>
    intro other old member
    exact handed.delivered_lt (by simpa using member)
  case receiver =>
    intro one other old here there
    exact handed.receiver (by simpa using here) (by simpa using there)
  case holding =>
    intro other m' held'
    simpa using handed.holding (moved held')
  case handled =>
    intro other m' result' member
    rcases List.mem_cons.mp member with same | member
    · cases same
      exact ⟨whole, List.mem_cons_of_mem _ received⟩
    · obtain ⟨whole', member⟩ := handed.handled member
      exact ⟨whole', List.mem_cons_of_mem _ member⟩
  case once =>
    intro other old member
    replace member : .delivered other old ∈ log := by simpa using member
    have before := handed.once member
    by_cases same : m = newMessage old
    · obtain rfl : m.ack = old := by rw [same, newMessage_ack]
      obtain rfl := handed.receiver member received
      rw [List.countP_cons_of_pos (by simpa [Event.hands] using same), before, held,
        Function.update_self, Loop.holds_eq_false after]
      simp [Loop.holds, ← same]
    · rw [List.countP_cons_of_neg (by simpa [Event.hands] using same), before]
      by_cases there : other = subscriber
      · subst there
        rw [held, Function.update_self, Loop.holds_eq_false after]
        simp [Loop.holds, same]
      · rw [Function.update_of_ne there]

end Handed

end Handed

/-! ## Only a message that was handled is acknowledged -/

/-- Acknowledgements are sent for messages whose handler returned nil, and the server forgets no
other message. -/
structure Answered (published unacked : Finset (γ × μ)) (acks : List (Delivery γ μ))
    (loop : ι → Loop γ μ ε) (log : List (Event ι γ μ ε)) : Prop where
  /-- Before an acknowledgement, the handler has returned nil. -/
  acking : ∀ {subscriber m}, loop subscriber = .acking m → .handled subscriber m none ∈ log
  /-- An acknowledgement was sent after the handler returned nil. -/
  acked : ∀ {subscriber msg}, .acked subscriber msg ∈ log →
    ∃ m, m.ack = msg ∧ .handled subscriber m none ∈ log
  /-- So was one that is on its way. -/
  flight : ∀ {msg}, msg ∈ acks → ∃ subscriber m, m.ack = msg ∧ .handled subscriber m none ∈ log
  /-- A message that is delivered no more has been handled. -/
  removed : ∀ {consumer message}, (consumer, message) ∈ published →
    (consumer, message) ∉ unacked → ∃ subscriber m, m.ack.consumer = consumer ∧
      m.ack.message = message ∧ .handled subscriber m none ∈ log

namespace Answered

variable {published unacked : Finset (γ × μ)} {acks : List (Delivery γ μ)}

theorem start :
    Answered (∅ : Finset (γ × μ)) ∅ [] (fun _ : ι => (.calling : Loop γ μ ε)) [] where
  acking := nofun
  acked := nofun
  flight := nofun
  removed := nofun

theorem publish [DecidableEq γ] [DecidableEq μ]
    (answered : Answered published unacked acks loop log) (pair : γ × μ) :
    Answered (insert pair published) (insert pair unacked) acks loop log where
  acking := answered.acking
  acked := answered.acked
  flight := answered.flight
  removed := by
    intro consumer message member gone
    rw [Finset.mem_insert, not_or] at gone
    exact answered.removed (Finset.mem_of_mem_insert_of_ne member gone.1) gone.2

/-- Some acknowledgements are lost. -/
theorem lose (answered : Answered published unacked acks loop log) {fewer : List (Delivery γ μ)}
    (subset : fewer ⊆ acks) : Answered published unacked fewer loop log where
  acking := answered.acking
  acked := answered.acked
  flight member := answered.flight (subset member)
  removed := answered.removed

theorem arrive [DecidableEq γ] [DecidableEq μ]
    (answered : Answered published unacked acks loop log) (member : msg ∈ acks) :
    Answered published (unacked.erase (msg.consumer, msg.message)) acks loop log where
  acking := answered.acking
  acked := answered.acked
  flight := answered.flight
  removed := by
    intro consumer message known gone
    by_cases held : (consumer, message) ∈ unacked
    · have same : (consumer, message) = (msg.consumer, msg.message) := by
        by_contra differs
        exact gone (Finset.mem_erase.mpr ⟨differs, held⟩)
      cases same
      obtain ⟨subscriber, m, rfl, handled⟩ := answered.flight member
      exact ⟨subscriber, m, rfl, rfl, handled⟩
    · exact answered.removed known held

/-- An event that is no acknowledgement is recorded. -/
theorem record (answered : Answered published unacked acks loop log) {event : Event ι γ μ ε}
    (silent : ∀ subscriber msg, .acked subscriber msg ≠ event) :
    Answered published unacked acks loop (event :: log) where
  acking held := List.mem_cons_of_mem _ (answered.acking held)
  acked := by
    intro subscriber msg member
    obtain ⟨m, same, handled⟩ :=
      answered.acked ((List.mem_cons.mp member).resolve_left (silent subscriber msg))
    exact ⟨m, same, List.mem_cons_of_mem _ handled⟩
  flight := by
    intro msg member
    obtain ⟨subscriber, m, same, handled⟩ := answered.flight member
    exact ⟨subscriber, m, same, List.mem_cons_of_mem _ handled⟩
  removed := by
    intro consumer message known gone
    obtain ⟨subscriber, m, here, same, handled⟩ := answered.removed known gone
    exact ⟨subscriber, m, here, same, List.mem_cons_of_mem _ handled⟩

/-- An acknowledgement is sent for a message whose handler returned nil. -/
theorem ack (answered : Answered published unacked acks loop log)
    (held : loop subscriber = .acking m) :
    Answered published unacked (m.ack :: acks) loop (.acked subscriber m.ack :: log) := by
  have handled : .handled subscriber m none ∈
      (.acked subscriber m.ack :: log : List (Event ι γ μ ε)) :=
    List.mem_cons_of_mem _ (answered.acking held)
  constructor
  case acking =>
    intro other m' held'
    exact List.mem_cons_of_mem _ (answered.acking held')
  case acked =>
    intro other msg member
    rcases List.mem_cons.mp member with same | earlier
    · cases same
      exact ⟨m, rfl, handled⟩
    · obtain ⟨m', same, handled'⟩ := answered.acked earlier
      exact ⟨m', same, List.mem_cons_of_mem _ handled'⟩
  case flight =>
    intro msg member
    rcases List.mem_cons.mp member with rfl | earlier
    · exact ⟨subscriber, m, rfl, handled⟩
    · obtain ⟨other, m', same, handled'⟩ := answered.flight earlier
      exact ⟨other, m', same, List.mem_cons_of_mem _ handled'⟩
  case removed =>
    intro consumer message known gone
    obtain ⟨other, m', here, same, handled'⟩ := answered.removed known gone
    exact ⟨other, m', here, same, List.mem_cons_of_mem _ handled'⟩

/-- A subscriber comes to a place where it acknowledges only what it has handled. -/
theorem come [DecidableEq ι] (answered : Answered published unacked acks loop log)
    (handled : ∀ m, place = .acking m → .handled subscriber m none ∈ log) :
    Answered published unacked acks (Function.update loop subscriber place) log where
  acked := answered.acked
  flight := answered.flight
  removed := answered.removed
  acking := by
    intro other m held
    by_cases same : other = subscriber
    · subst same
      rw [Function.update_self] at held
      exact handled m held
    · rw [Function.update_of_ne same] at held
      exact answered.acking held

end Answered

/-! ## Runs -/

namespace Traffic

variable [DecidableEq ι] [DecidableEq γ] [DecidableEq μ] {consumerOf : ι → γ}
  {state next : Traffic ι γ μ ε} {action : TrafficAction ι γ μ ε}

/-- What every run keeps. -/
structure Sound (state : Traffic ι γ μ ε) : Prop where
  /-- Every delivery is handed to one handler, once. -/
  handed : Handed state.next state.loop state.log
  /-- Acknowledgements answer for handled messages. -/
  answered : Answered state.published state.unacked state.acks state.loop state.log
  /-- A loop returns nil only when its context is done. -/
  excused : ∀ {subscriber}, state.loop subscriber = .returned none →
    (state.ctx subscriber).isSome

omit [DecidableEq ι] in
theorem start_sound : (start : Traffic ι γ μ ε).Sound where
  handed := Handed.start
  answered := Answered.start
  excused := nofun

namespace Sound

/-- A subscriber that comes to a place without an excuse to need keeps the others excused. -/
theorem excused_update (sound : state.Sound)
    (own : place = .returned none → (state.ctx subscriber).isSome) {other : ι}
    (returned : Function.update state.loop subscriber place other = .returned none) :
    (state.ctx other).isSome := by
  by_cases same : other = subscriber
  · subst same
    rw [Function.update_self] at returned
    exact own returned
  · rw [Function.update_of_ne same] at returned
    exact sound.excused returned

theorem quiet (sound : state.Sound) {turn : Turn γ μ ε} (idle : turn.idle = true)
    (stepped : state.quiet subscriber turn = some next) : next.Sound := by
  obtain ⟨place, turned, rfl⟩ := Option.map_eq_some_iff.mp stepped
  obtain ⟨before, after⟩ := Loop.step_idle idle turned
  have free : ∀ m, state.loop subscriber ≠ .handling m := by
    rcases before with before | before <;> rw [before] <;> nofun
  constructor
  · refine sound.handed.pass free ?_
    rcases after with rfl | ⟨result, rfl, _⟩ <;> nofun
  · refine sound.answered.come ?_
    rcases after with rfl | ⟨result, rfl, _⟩ <;> nofun
  · refine sound.excused_update ?_
    rcases after with rfl | ⟨result, rfl, excuse⟩
    · nofun
    · intro returned
      exact excuse (Loop.returned.inj returned)

theorem cancel (sound : state.Sound) {err : ContextError ε} :
    Sound { state with ctx := Function.update state.ctx subscriber (some err) } where
  handed := sound.handed
  answered := sound.answered
  excused := by
    intro other returned
    by_cases same : other = subscriber
    · subst same
      simp
    · simpa [Function.update_of_ne same] using sound.excused returned

theorem receive (sound : state.Sound) {message : μ}
    (turned : (state.loop subscriber).step (state.ctx subscriber)
      (.receive (state.nextDelivery consumerOf subscriber message)) = some place) :
    Sound { state.advance subscriber place
        [.delivered subscriber (state.nextDelivery consumerOf subscriber message)] with
      pending := state.pending.erase (subscriber, message), next := state.next + 1 } := by
  obtain ⟨waiting, rfl⟩ := Loop.step_receive turned
  constructor
  · exact sound.handed.receive (by rw [waiting]; nofun) rfl
  · exact (sound.answered.record (by nofun)).come (by nofun)
  · exact sound.excused_update (by nofun)

theorem handle (sound : state.Sound) {result : Option ε}
    (held : state.loop subscriber = .handling m)
    (turned : (state.loop subscriber).step (state.ctx subscriber) (.handle result) = some place) :
    (state.advance subscriber place [.handled subscriber m result]).Sound := by
  rw [held] at turned
  cases result with
  | none =>
      cases turned
      constructor
      · exact sound.handed.handle held nofun
      · refine (sound.answered.record (by nofun)).come ?_
        intro m' same
        cases same
        exact List.mem_cons_self
      · exact sound.excused_update (by nofun)
  | some err =>
      cases turned
      constructor
      · exact sound.handed.handle held nofun
      · exact (sound.answered.record (by nofun)).come (by nofun)
      · exact sound.excused_update (by nofun)

theorem ack (sound : state.Sound) {sent : Bool} (held : state.loop subscriber = .acking m)
    (turned : (state.loop subscriber).step (state.ctx subscriber) .ack = some place) :
    Sound (if sent then
      { state.advance subscriber place [.acked subscriber m.ack] with acks := m.ack :: state.acks }
      else state.advance subscriber place []) := by
  rw [held] at turned
  cases turned
  have passed : Handed state.next (Function.update state.loop subscriber .calling) state.log :=
    sound.handed.pass (by rw [held]; nofun) nofun
  cases sent with
  | true =>
      rw [if_pos rfl]
      constructor
      · exact passed.acked
      · exact (sound.answered.ack held).come nofun
      · exact sound.excused_update (by nofun)
  | false =>
      rw [if_neg Bool.false_ne_true]
      constructor
      · exact passed
      · exact sound.answered.come nofun
      · exact sound.excused_update (by nofun)

theorem step (sound : state.Sound) (stepped : state.step consumerOf action = some next) :
    next.Sound := by
  cases action with
  | publish consumer message =>
      rw [Traffic.step, Option.ite_none_left_eq_some] at stepped
      cases stepped.2
      exact ⟨sound.handed, sound.answered.publish _, sound.excused⟩
  | send subscriber message =>
      rw [Traffic.step, Option.ite_none_right_eq_some] at stepped
      cases stepped.2
      exact ⟨sound.handed, sound.answered, sound.excused⟩
  | lose subscriber message =>
      cases stepped
      exact ⟨sound.handed, sound.answered, sound.excused⟩
  | cancel subscriber err =>
      rw [Traffic.step] at stepped
      split at stepped
      · cases stepped
        exact sound.cancel
      · cases stepped
  | enter subscriber => exact sound.quiet rfl stepped
  | expire subscriber => exact sound.quiet rfl stepped
  | fail subscriber err => exact sound.quiet rfl stepped
  | receive subscriber message =>
      rw [Traffic.step, Option.ite_none_right_eq_some] at stepped
      obtain ⟨place, turned, rfl⟩ := Option.map_eq_some_iff.mp stepped.2
      exact sound.receive turned
  | handle subscriber result =>
      rw [Traffic.step] at stepped
      split at stepped
      · next m held =>
          obtain ⟨place, turned, rfl⟩ := Option.map_eq_some_iff.mp stepped
          exact sound.handle held turned
      · cases stepped
  | ack subscriber sent =>
      rw [Traffic.step] at stepped
      split at stepped
      · next m held =>
          obtain ⟨place, turned, rfl⟩ := Option.map_eq_some_iff.mp stepped
          exact sound.ack held turned
      · cases stepped
  | arrive msg =>
      rw [Traffic.step, Option.ite_none_right_eq_some] at stepped
      obtain ⟨member, same⟩ := stepped
      cases same
      exact ⟨sound.handed, (sound.answered.arrive member).lose List.erase_subset, sound.excused⟩
  | loseAck msg =>
      cases stepped
      exact ⟨sound.handed, sound.answered.lose List.erase_subset, sound.excused⟩

omit [DecidableEq ι] in
/-- A delivery whose handler returned an error is not acknowledged, for its handler was called
only once. -/
theorem not_acked_of_failed (sound : state.Sound) {err : ε} {other : ι}
    (failed : .handled subscriber m (some err) ∈ state.log) :
    .acked other m.ack ∉ state.log := by
  intro acked
  obtain ⟨m', same, succeeded⟩ := sound.answered.acked acked
  obtain ⟨whole, delivered⟩ := sound.handed.handled failed
  obtain ⟨whole', -⟩ := sound.handed.handled succeeded
  have both : [Event.handled subscriber m (some err), .handled other m' none].Subperm
      (state.log.filter (·.hands m.ack)) := by
    refine List.subperm_of_subset (by simp) ?_
    obtain rfl : m' = m := by rw [whole', same, ← whole]
    simp [failed, succeeded, Event.hands, ← whole]
  have twice := both.length_le
  rw [← List.countP_eq_length_filter, sound.handed.once delivered] at twice
  split at twice <;> simp at twice

end Sound

/-- What holds after every run: a message that the server has forgotten was handled successfully,
a delivery whose handler failed is not acknowledged, a delivery is handed over once, and a loop
that returned nil has a context that is done. -/
theorem at_least_once {actions : List (TrafficAction ι γ μ ε)}
    (ran : runFrom (step consumerOf) start actions = some state) :
    (∀ consumer message, (consumer, message) ∈ state.published →
      (consumer, message) ∉ state.unacked → ∃ subscriber m, m.data = message ∧
        m.ack.consumer = consumer ∧ .handled subscriber m none ∈ state.log) ∧
    (∀ subscriber m err, .handled subscriber m (some err) ∈ state.log →
      ∀ other, .acked other m.ack ∉ state.log) ∧
    (∀ subscriber msg, .delivered subscriber msg ∈ state.log →
      state.log.countP (·.hands msg) = if (state.loop subscriber).holds msg then 0 else 1) ∧
    ∀ subscriber, state.loop subscriber = .returned none → (state.ctx subscriber).isSome := by
  have sound : state.Sound := runFrom_invariant Sound.step start_sound ran
  refine ⟨?_, ?_, ?_, ?_⟩
  · intro consumer message known gone
    obtain ⟨subscriber, m, here, same, handled⟩ := sound.answered.removed known gone
    refine ⟨subscriber, m, ?_, here, handled⟩
    rw [(sound.handed.handled handled).1, newMessage_data, same]
  · intro subscriber m err failed other
    exact sound.not_acked_of_failed failed
  · intro subscriber msg delivered
    exact sound.handed.once delivered
  · intro subscriber returned
    exact sound.excused returned

/-- A message fails with one subscriber and is redelivered to another. -/
private def redelivered : List (TrafficAction Bool Unit Nat Unit) :=
  [.publish () 7, .send false 7, .enter false, .receive false 7, .handle false (some ()),
    .send true 7, .enter true, .receive true 7, .handle true none, .ack true true,
    .arrive ⟨(), 7, 1⟩, .cancel true .canceled, .enter true]

theorem at_least_once_redelivered :
    ∃ state : Traffic Bool Unit Nat Unit,
      runFrom (step fun _ => ()) start redelivered = some state ∧
      (∃ subscriber m, m.data = 7 ∧ m.ack.consumer = () ∧
        .handled subscriber m none ∈ state.log) ∧
      .acked true ⟨(), 7, 0⟩ ∉ state.log ∧ (state.ctx true).isSome := by
  have ran : runFrom (step fun _ => ()) start redelivered = some _ := rfl
  obtain ⟨forgotten, failed, -, excused⟩ := at_least_once ran
  exact ⟨_, ran, forgotten () 7 (by decide) (by decide),
    failed false ⟨7, ⟨(), 7, 0⟩⟩ () (by decide) true, excused true rfl⟩

end Traffic

end CommonGo.Mq
