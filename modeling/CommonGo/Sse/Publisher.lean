import CommonGo.CtxErrors
import CommonGo.Go.Json

/-!
# Publishing a stream of events

A publisher writes the events of one message to a topic.  Every event goes out as JSON, so that its
strings arrive as valid UTF-8.  A publish may fail; the events of a wire are those of the publishes
that succeeded.
-/

namespace CommonGo.Sse

open Go

variable {ε : Type}

/-! ## Events -/

/-- `EventType`. -/
inductive EventType where
  | messageStart
  | contentBlockStart
  | ping
  | contentBlockDelta
  | contentBlockStop
  | messageDelta
  | messageStop
  deriving DecidableEq, Repr

/-- `ContentBlockType`. -/
inductive ContentBlockType where
  | message
  | text
  | textDelta
  | toolUse
  | toolResult
  | inputJSON
  | jsonPartial
  deriving DecidableEq, Repr

/-- `StopReason`, which may be any string. -/
abbrev StopReason := Bytes

/-- `StopReasonEndTurn`. -/
def stopReasonEndTurn : StopReason := ascii "end_turn"

/-- `llm.Role`, as far as a publisher uses it. -/
inductive Role where
  | assistant
  deriving DecidableEq, Repr

/-- `MessageMeta`; its content is always an empty list. -/
structure MessageMeta where
  /-- The id of the message. -/
  id : Bytes
  /-- The id of the conversation. -/
  conversationID : Bytes
  /-- The field `type`. -/
  type : ContentBlockType
  /-- Who speaks. -/
  role : Role
  /-- The model that answers. -/
  model : Bytes
  /-- Why the message ended, if it has. -/
  stopReason : Option StopReason
  /-- The sequence it ended at, if it did so. -/
  stopSequence : Option Bytes
  /-- The tokens of the question. -/
  inputTokens : Int
  /-- The tokens of the answer. -/
  outputTokens : Int
  deriving DecidableEq, Repr

/-- What the publisher hands to `json.Marshal`: one case for each of the data types.  The input of a
tool use block is always an empty object. -/
inductive Data where
  | messageStart (type : EventType) (message : MessageMeta)
  | contentBlockStart (type : EventType) (index : Int) (block : ContentBlockType) (text : Bytes)
  | ping (type : EventType)
  | contentBlockDelta (type : EventType) (index : Int) (delta : ContentBlockType) (text : Bytes)
  | contentBlockStop (type : EventType) (index : Int)
  | messageDelta (type : EventType) (stopReason : StopReason) (stopSequence : Option Bytes)
      (outputTokens : Int)
  | messageStop (type : EventType)
  | toolUseStart (type : EventType) (index : Int) (block : ContentBlockType) (id name : Bytes)
  | toolResultStart (type : EventType) (index : Int) (block : ContentBlockType)
      (toolUseID content : Bytes)
  | toolInputDelta (type : EventType) (index : Int) (delta : ContentBlockType)
      (partialJSON : Bytes)
  | toolResultDelta (type : EventType) (index : Int) (delta : ContentBlockType) (text : Bytes)
  deriving DecidableEq, Repr

namespace Data

/-- The data as a reader of `json.Marshal` gets them. -/
def marshal : Data → Data
  | messageStart type message => messageStart type
      { message with
        id := jsonString message.id, conversationID := jsonString message.conversationID
        model := jsonString message.model, stopReason := message.stopReason.map jsonString
        stopSequence := message.stopSequence.map jsonString }
  | contentBlockStart type index block text =>
      contentBlockStart type index block (jsonString text)
  | ping type => ping type
  | contentBlockDelta type index delta text =>
      contentBlockDelta type index delta (jsonString text)
  | contentBlockStop type index => contentBlockStop type index
  | messageDelta type stopReason stopSequence outputTokens =>
      messageDelta type (jsonString stopReason) (stopSequence.map jsonString) outputTokens
  | messageStop type => messageStop type
  | toolUseStart type index block id name =>
      toolUseStart type index block (jsonString id) (jsonString name)
  | toolResultStart type index block toolUseID content =>
      toolResultStart type index block (jsonString toolUseID) (jsonString content)
  | toolInputDelta type index delta partialJSON =>
      toolInputDelta type index delta (jsonString partialJSON)
  | toolResultDelta type index delta text => toolResultDelta type index delta (jsonString text)

/-- The index of the block that the data belong to. -/
def index : Data → Int
  | contentBlockStart _ index _ _ => index
  | contentBlockDelta _ index _ _ => index
  | contentBlockStop _ index => index
  | toolUseStart _ index _ _ _ => index
  | toolResultStart _ index _ _ _ => index
  | toolInputDelta _ index _ _ => index
  | toolResultDelta _ index _ _ => index
  | _ => 0

end Data

/-- An event as it arrives. -/
structure Event where
  /-- The name of the event. -/
  event : EventType
  /-- What it carries. -/
  data : Data
  deriving DecidableEq, Repr

/-- The text of a text delta; other events have none. -/
def Event.text : Event → Bytes
  | ⟨.contentBlockDelta, .contentBlockDelta _ _ .textDelta text⟩ => text
  | _ => []

/-! ## The publisher -/

/-- The way to the topic. -/
structure Wire (ε : Type) where
  /-- How the broker answers each attempt to publish. -/
  answers : Nat → Option ε
  /-- How many attempts were made. -/
  attempts : Nat
  /-- The events of the attempts that succeeded. -/
  events : List Event

/-- No attempt to publish has failed. -/
def Wire.Flawless (wire : Wire ε) : Prop := ∀ attempt < wire.attempts, wire.answers attempt = none

/-- A method of the publisher: what it does to the way to the topic, and its error. -/
abbrev Send (ε : Type) := Wire ε → Wire ε × Option (Error ε)

/-- `Publisher.Publish`; marshalling these data types does not fail. -/
def publish (eventType : EventType) (data : Data) : Send ε := fun wire =>
  match wire.answers wire.attempts with
  | some err =>
      ({ wire with attempts := wire.attempts + 1 }, wrap (some (.base err)) "publish event")
  | none =>
      ({ wire with
          attempts := wire.attempts + 1
          events := wire.events ++ [⟨eventType, data.marshal⟩] }, none)

/-- The first method, and if it returns no error the second. -/
def andThen (first second : Send ε) : Send ε := fun wire =>
  match first wire with
  | (wire, some err) => (wire, some err)
  | (wire, none) => second wire

/-- `Publisher.SendMessageStart`. -/
def sendMessageStart (msgID conversationID model : Bytes) : Send ε :=
  publish .messageStart (.messageStart .messageStart
    { id := msgID, conversationID, type := .message, role := .assistant, model
      stopReason := none, stopSequence := none, inputTokens := 0, outputTokens := 0 })

/-- `Publisher.SendPing`. -/
def sendPing : Send ε := publish .ping (.ping .ping)

/-- `Publisher.SendContentBlockStartText`. -/
def sendContentBlockStartText (index : Int) : Send ε :=
  publish .contentBlockStart (.contentBlockStart .contentBlockStart index .text [])

/-- `Publisher.SendContentBlockDeltaText`. -/
def sendContentBlockDeltaText (index : Int) (text : Bytes) : Send ε :=
  publish .contentBlockDelta (.contentBlockDelta .contentBlockDelta index .textDelta text)

/-- `Publisher.SendContentBlockStop`. -/
def sendContentBlockStop (index : Int) : Send ε :=
  publish .contentBlockStop (.contentBlockStop .contentBlockStop index)

/-- `Publisher.SendMessageDelta`. -/
def sendMessageDelta (stopReason : StopReason) (outputTokens : Int) : Send ε :=
  publish .messageDelta (.messageDelta .messageDelta stopReason none outputTokens)

/-- `Publisher.SendMessageStop`. -/
def sendMessageStop : Send ε := publish .messageStop (.messageStop .messageStop)

/-- `Publisher.SendToolUseStart`. -/
def sendToolUseStart (index : Int) (toolUseID name : Bytes) : Send ε :=
  publish .contentBlockStart (.toolUseStart .contentBlockStart index .toolUse toolUseID name)

/-- `Publisher.SendToolInputDelta`. -/
def sendToolInputDelta (index : Int) (inputJSON : Bytes) : Send ε :=
  publish .contentBlockDelta (.toolInputDelta .contentBlockDelta index .inputJSON inputJSON)

/-- `Publisher.SendToolResultStart`. -/
def sendToolResultStart (index : Int) (toolUseID : Bytes) : Send ε :=
  publish .contentBlockStart
    (.toolResultStart .contentBlockStart index .toolResult toolUseID [])

/-- `Publisher.SendToolResultDelta`. -/
def sendToolResultDelta (index : Int) (text : Bytes) : Send ε :=
  publish .contentBlockDelta (.toolResultDelta .contentBlockDelta index .jsonPartial text)

/-- `Publisher.SendStreamPreamble`. -/
def sendStreamPreamble (msgID conversationID model : Bytes) : Send ε :=
  andThen (sendMessageStart msgID conversationID model) sendPing

/-- `Publisher.SendStreamEpilogue`. -/
def sendStreamEpilogue (outputTokens : Int) : Send ε :=
  andThen (sendMessageDelta stopReasonEndTurn outputTokens) sendMessageStop

/-- `Publisher.SendToolUseBlock`. -/
def sendToolUseBlock (index : Int) (toolUseID name inputJSON : Bytes) : Send ε :=
  andThen (sendToolUseStart index toolUseID name)
    (andThen (sendToolInputDelta index inputJSON) (sendContentBlockStop index))

/-- `Publisher.SendToolResultBlock`. -/
def sendToolResultBlock (index : Int) (toolUseID resultText : Bytes) : Send ε :=
  andThen (sendToolResultStart index toolUseID)
    (andThen (sendToolResultDelta index resultText) (sendContentBlockStop index))

/-! ## What a method publishes -/

/-- A method publishes events in order until a publish fails, and then returns an error. -/
structure Emits (send : Send ε) (events : List Event) : Prop where
  /-- The broker is the same. -/
  answers (wire : Wire ε) : (send wire).1.answers = wire.answers
  /-- A part of the events has been published, and all of them exactly if there is no error. -/
  sent (wire : Wire ε) : ∃ part, part <+: events ∧ (send wire).1.events = wire.events ++ part ∧
    ((send wire).2 = none ↔ part = events)
  /-- If no publish has ever failed, there is no error. -/
  flawless (wire : Wire ε) : (send wire).1.Flawless → wire.Flawless ∧ (send wire).2 = none

theorem emits_publish (eventType : EventType) (data : Data) :
    Emits (publish eventType data : Send ε) [⟨eventType, data.marshal⟩] := by
  constructor
  case answers =>
    intro wire
    unfold publish
    split <;> rfl
  case sent =>
    intro wire
    unfold publish
    split
    · exact ⟨[], List.nil_prefix, (List.append_nil _).symm, by simp⟩
    · exact ⟨_, List.prefix_refl _, rfl, by simp⟩
  case flawless =>
    intro wire
    unfold publish
    split
    · next err failed =>
        intro flawless
        have succeeded : wire.answers wire.attempts = none :=
          flawless wire.attempts (Nat.lt_succ_self _)
        rw [failed] at succeeded
        cases succeeded
    · intro flawless
      exact ⟨fun attempt earlier => flawless attempt (Nat.lt_succ_of_lt earlier), rfl⟩

theorem Emits.andThen {first second : Send ε} {front back : List Event}
    (emitsFirst : Emits first front) (emitsSecond : Emits second back) :
    Emits (andThen first second) (front ++ back) := by
  constructor
  case answers =>
    intro wire
    have answers := emitsFirst.answers wire
    unfold Sse.andThen
    split
    · next stopped =>
        rwa [stopped] at answers
    · next went =>
        rw [went] at answers
        rw [emitsSecond.answers, answers]
  case sent =>
    intro wire
    obtain ⟨part, initial, arrived, whole⟩ := emitsFirst.sent wire
    unfold Sse.andThen
    split
    · next stopped =>
        rw [stopped] at arrived whole
        refine ⟨part, initial.trans (List.prefix_append _ _), arrived, iff_of_false nofun ?_⟩
        rintro rfl
        -- All of the first part would have arrived.
        have all : front <+: front ++ back := List.prefix_append _ _
        exact nomatch whole.mpr (initial.eq_of_length_le all.length_le)
    · next wire' went =>
        rw [went] at arrived whole
        obtain rfl := whole.mp rfl
        obtain ⟨rest, initial', arrived', whole'⟩ := emitsSecond.sent wire'
        refine ⟨part ++ rest, (List.prefix_append_right_inj part).mpr initial', ?_, ?_⟩
        · rw [arrived', arrived, List.append_assoc]
        · rw [whole', List.append_cancel_left_eq]
  case flawless =>
    intro wire
    have earlier := emitsFirst.flawless wire
    unfold Sse.andThen
    split
    · next err stopped =>
        rw [stopped] at earlier
        intro flawless
        cases (earlier flawless).2
    · next wire' went =>
        rw [went] at earlier
        intro flawless
        obtain ⟨here, succeeded⟩ := emitsSecond.flawless wire' flawless
        exact ⟨(earlier here).1, succeeded⟩

end CommonGo.Sse
