import CommonGo.CtxErrors

/-!
# The loop of a NATS subscriber

`consumeLoop` takes one message after another from its subscription, hands each to the handler and
acknowledges it if the handler returned nil.  It stops when the subscription gives an error, and
the result is nil if the context is done by then.  The loop is given by its turns: each is one
thing that happens between the loop and the world around it.
-/

namespace CommonGo.Mq

variable {γ μ ε : Type}

/-- A message as the server delivers it to a consumer; deliveries are numbered. -/
structure Delivery (γ μ : Type) where
  /-- The consumer it is delivered to. -/
  consumer : γ
  /-- The message. -/
  message : μ
  /-- The number of the delivery. -/
  number : Nat
  deriving DecidableEq, Repr

/-- `mq.Message`: the data, and the delivery that its `ack` function acknowledges. -/
structure Message (γ μ : Type) where
  /-- What the handler gets to read. -/
  data : μ
  /-- The delivery that is acknowledged. -/
  ack : Delivery γ μ
  deriving DecidableEq, Repr

/-- `mq.NewMessage(msg.Data, func() error { return msg.Ack() })`. -/
def newMessage (msg : Delivery γ μ) : Message γ μ := ⟨msg.message, msg⟩

@[simp] theorem newMessage_ack (msg : Delivery γ μ) : (newMessage msg).ack = msg := rfl

@[simp] theorem newMessage_data (msg : Delivery γ μ) : (newMessage msg).data = msg.message := rfl

theorem newMessage_inj {left right : Delivery γ μ} :
    newMessage left = newMessage right ↔ left = right := by
  constructor
  · intro same
    exact congrArg Message.ack same
  · rintro rfl
    rfl

/-- `ctx.Err()` of a context that is done. -/
inductive ContextError (ε : Type) where
  | canceled
  | deadlineExceeded
  | other (err : ε)
  deriving DecidableEq, Repr

/-- What `NextMsgWithContext` returns instead of a message. -/
inductive NextError (ε : Type) where
  | context (err : ContextError ε)
  | subscription (err : ε)
  deriving DecidableEq, Repr

/-- The result of `consumeLoop` once the subscription gives an error. -/
def giveUp (ctx : Option (ContextError ε)) (err : NextError ε) : Option (Error (NextError ε)) :=
  match ctx with
  | some .canceled => none
  | some .deadlineExceeded => none
  | _ => wrap (some (.base err)) "next message"

/-- The loop gives up without an error only when its context is done. -/
theorem isSome_of_giveUp_eq_none {ctx : Option (ContextError ε)} {err : NextError ε}
    (quiet : giveUp ctx err = none) : ctx.isSome := by
  cases ctx with
  | none => cases quiet
  | some _ => rfl

/-- Where a loop is. -/
inductive Loop (γ μ ε : Type) where
  /-- It is about to call `NextMsgWithContext`. -/
  | calling
  /-- It waits for the message channel or for the context. -/
  | waiting
  | handling (m : Message γ μ)
  | acking (m : Message γ μ)
  | returned (result : Option (Error (NextError ε)))
  deriving DecidableEq

/-- What a loop does next. -/
inductive Turn (γ μ ε : Type) where
  /-- `NextMsgWithContext` looks at `ctx.Err()` before it waits. -/
  | enter
  | receive (msg : Delivery γ μ)
  /-- `NextMsgWithContext` sees that the context is done. -/
  | expire
  /-- `NextMsgWithContext` gives an error of the subscription. -/
  | fail (err : ε)
  /-- `h.Handle(ctx, m)` returns. -/
  | handle (result : Option ε)
  /-- `m.Ack()` returns; an error is only logged. -/
  | ack
  deriving DecidableEq

/-- The turn of a loop that neither has a message nor gets one. -/
def Turn.idle : Turn γ μ ε → Bool
  | .enter => true
  | .expire => true
  | .fail _ => true
  | _ => false

/-- One turn of `consumeLoop`; `none` where the loop cannot take it. -/
def Loop.step (ctx : Option (ContextError ε)) : Loop γ μ ε → Turn γ μ ε → Option (Loop γ μ ε)
  | .calling, .enter =>
      match ctx with
      | some err => some (.returned (giveUp ctx (.context err)))
      | none => some .waiting
  | .calling, .fail err =>
      match ctx with
      | some _ => none
      | none => some (.returned (giveUp ctx (.subscription err)))
  | .waiting, .receive msg => some (.handling (newMessage msg))
  | .waiting, .expire => ctx.map fun err => .returned (giveUp ctx (.context err))
  | .waiting, .fail err => some (.returned (giveUp ctx (.subscription err)))
  | .handling _, .handle (some _) => some .calling
  | .handling m, .handle none => some (.acking m)
  | .acking _, .ack => some .calling
  | _, _ => none

namespace Loop

variable {loop place : Loop γ μ ε} {ctx : Option (ContextError ε)}

theorem step_receive {msg : Delivery γ μ} (stepped : loop.step ctx (.receive msg) = some place) :
    loop = .waiting ∧ place = .handling (newMessage msg) := by
  cases loop with
  | waiting =>
      cases stepped
      exact ⟨rfl, rfl⟩
  | _ => cases stepped

/-- Without a message the loop waits or gives up, and it gives up without an error only when its
context is done. -/
theorem step_idle {turn : Turn γ μ ε} (idle : turn.idle = true)
    (stepped : loop.step ctx turn = some place) :
    (loop = .calling ∨ loop = .waiting) ∧
      (place = .waiting ∨ ∃ result, place = .returned result ∧ (result = none → ctx.isSome)) := by
  cases turn with
  | enter =>
      cases loop with
      | calling =>
          cases ctx with
          | none =>
              cases stepped
              exact ⟨Or.inl rfl, Or.inl rfl⟩
          | some err =>
              cases stepped
              exact ⟨Or.inl rfl, Or.inr ⟨_, rfl, fun _ => rfl⟩⟩
      | _ => cases stepped
  | expire =>
      cases loop with
      | waiting =>
          obtain ⟨err, rfl, rfl⟩ := Option.map_eq_some_iff.mp stepped
          exact ⟨Or.inr rfl, Or.inr ⟨_, rfl, fun _ => rfl⟩⟩
      | _ => cases stepped
  | fail err =>
      cases loop with
      | calling =>
          cases ctx with
          | none =>
              cases stepped
              exact ⟨Or.inl rfl, Or.inr ⟨_, rfl, isSome_of_giveUp_eq_none⟩⟩
          | some _ => cases stepped
      | waiting =>
          cases stepped
          exact ⟨Or.inr rfl, Or.inr ⟨_, rfl, isSome_of_giveUp_eq_none⟩⟩
      | _ => cases stepped
  | _ => cases idle

end Loop

end CommonGo.Mq
