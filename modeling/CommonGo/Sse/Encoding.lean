import CommonGo.Go.JsonValues
import CommonGo.Sse.Publisher

/-!
# The bytes of a topic

`Publisher.Publish` marshals the data of an event and puts the text into an `Event` as a string, and
the client of the queue marshals that once more.  Here are the bytes, and a reader that takes them
apart again with `Message.Decode`.  A publish that fails may have stored its message or not; what is
read are the events of the calls that succeeded and of those whose message was stored all the same.
-/

namespace CommonGo.Sse

open Go

variable {ε : Type}

/-! ## Names -/

/-- The string of an event type. -/
def EventType.name : EventType → Bytes
  | messageStart => ascii "message_start"
  | contentBlockStart => ascii "content_block_start"
  | ping => ascii "ping"
  | contentBlockDelta => ascii "content_block_delta"
  | contentBlockStop => ascii "content_block_stop"
  | messageDelta => ascii "message_delta"
  | messageStop => ascii "message_stop"

/-- The string of a type of blocks. -/
def ContentBlockType.name : ContentBlockType → Bytes
  | message => ascii "message"
  | text => ascii "text"
  | textDelta => ascii "text_delta"
  | toolUse => ascii "tool_use"
  | toolResult => ascii "tool_result"
  | inputJSON => ascii "input_json_delta"
  | jsonPartial => ascii "json_partial"

/-- The string of a role. -/
def Role.name : Role → Bytes
  | assistant => ascii "assistant"

/-- The event type with a string. -/
def EventType.ofName (name : Bytes) : Option EventType :=
  [messageStart, contentBlockStart, ping, contentBlockDelta, contentBlockStop, messageDelta,
    messageStop].find? fun type => type.name == name

/-- The type of blocks with a string. -/
def ContentBlockType.ofName (name : Bytes) : Option ContentBlockType :=
  [message, text, textDelta, toolUse, toolResult, inputJSON, jsonPartial].find? fun type =>
    type.name == name

/-- The role with a string. -/
def Role.ofName (name : Bytes) : Option Role :=
  [assistant].find? fun role => role.name == name

/-! ## Writing -/

/-- A pointer to a string. -/
def pointer : Option Bytes → Json
  | none => .null
  | some text => .string text

/-- A field that is left out when it is empty. -/
def omitEmpty (name text : Bytes) : List (Bytes × Json) :=
  if text = [] then [] else [(name, .string text)]

/-- `MessageMeta` by its fields. -/
def MessageMeta.toJson (message : MessageMeta) : Json :=
  .object [(ascii "id", .string message.id),
    (ascii "conversation_id", .string message.conversationID),
    (ascii "type", .string message.type.name),
    (ascii "role", .string message.role.name),
    (ascii "content", .array []),
    (ascii "model", .string message.model),
    (ascii "stop_reason", pointer message.stopReason),
    (ascii "stop_sequence", pointer message.stopSequence),
    (ascii "usage", .object [(ascii "input_tokens", .int message.inputTokens),
      (ascii "output_tokens", .int message.outputTokens)])]

/-- The data of an event with an index, and what stands in the field for its block. -/
def indexed (type : EventType) (index : Int) (name : Bytes) (block : List (Bytes × Json)) : Json :=
  .object [(ascii "type", .string type.name), (ascii "index", .int index), (name, .object block)]

/-- The data types by their fields. -/
def Data.toJson : Data → Json
  | messageStart type message =>
      .object [(ascii "type", .string type.name), (ascii "message", message.toJson)]
  | contentBlockStart type index block text =>
      indexed type index (ascii "content_block")
        ((ascii "type", .string block.name) :: omitEmpty (ascii "text") text)
  | ping type => .object [(ascii "type", .string type.name)]
  | contentBlockDelta type index delta text =>
      indexed type index (ascii "delta")
        [(ascii "type", .string delta.name), (ascii "text", .string text)]
  | contentBlockStop type index =>
      .object [(ascii "type", .string type.name), (ascii "index", .int index)]
  | messageDelta type stopReason stopSequence outputTokens =>
      .object [(ascii "type", .string type.name),
        (ascii "delta", .object [(ascii "stop_reason", .string stopReason),
          (ascii "stop_sequence", pointer stopSequence)]),
        (ascii "usage", .object [(ascii "output_tokens", .int outputTokens)])]
  | messageStop type => .object [(ascii "type", .string type.name)]
  | toolUseStart type index block id name =>
      indexed type index (ascii "content_block")
        [(ascii "type", .string block.name), (ascii "id", .string id),
          (ascii "name", .string name), (ascii "input", .object [])]
  | toolResultStart type index block toolUseID content =>
      indexed type index (ascii "content_block") ((ascii "type", .string block.name) ::
        (ascii "tool_use_id", .string toolUseID) :: omitEmpty (ascii "content") content)
  | toolInputDelta type index delta partialJSON =>
      indexed type index (ascii "delta")
        [(ascii "type", .string delta.name), (ascii "partial_json", .string partialJSON)]
  | toolResultDelta type index delta text =>
      indexed type index (ascii "delta")
        [(ascii "type", .string delta.name), (ascii "text", .string text)]

/-- The message that `Publisher.Publish` gives to the queue. -/
def payload (eventType : EventType) (data : Data) : Bytes :=
  Json.encode (.object
    [(ascii "event", .string eventType.name), (ascii "data", .string data.toJson.encode)])

/-! ## Reading -/

/-- A string field of a struct; it stays empty if it is missing or null. -/
def stringField (name : String) (json : Json) : Option Bytes :=
  match json.field? name with
  | none => some []
  | some .null => some []
  | some value => value.text?

/-- A field that is a pointer to a string. -/
def pointerField (name : String) (json : Json) : Option (Option Bytes) :=
  match json.field? name with
  | none => some none
  | some .null => some none
  | some value => value.text?.map some

/-- An integer field of a struct; it stays zero if it is missing or null. -/
def intField (name : String) (json : Json) : Option Int :=
  match json.field? name with
  | none => some 0
  | some .null => some 0
  | some value => value.int?

/-- `Message.Decode` into an `Event`. -/
def decodeEvent (message : Bytes) : Option (Bytes × Bytes) := do
  let json ← readJson message
  let event ← stringField "event" json
  let data ← stringField "data" json
  return (event, data)

/-- A `MessageMeta` from its fields. -/
def MessageMeta.ofJson (json : Json) : Option MessageMeta := do
  let id ← stringField "id" json
  let conversationID ← stringField "conversation_id" json
  let type ← stringField "type" json >>= ContentBlockType.ofName
  let role ← stringField "role" json >>= Role.ofName
  let model ← stringField "model" json
  let stopReason ← pointerField "stop_reason" json
  let stopSequence ← pointerField "stop_sequence" json
  let usage ← json.field? "usage"
  let inputTokens ← intField "input_tokens" usage
  let outputTokens ← intField "output_tokens" usage
  return { id, conversationID, type, role, model, stopReason, stopSequence, inputTokens,
           outputTokens }

/-- The start of a block, by the type of the block. -/
def readStart (type : EventType) (index : Int) (block : Json) : Option Data := do
  let blockType ← stringField "type" block >>= ContentBlockType.ofName
  match blockType with
  | .toolUse =>
      let id ← stringField "id" block
      let name ← stringField "name" block
      return .toolUseStart type index blockType id name
  | .toolResult =>
      let toolUseID ← stringField "tool_use_id" block
      let content ← stringField "content" block
      return .toolResultStart type index blockType toolUseID content
  | _ =>
      let text ← stringField "text" block
      return .contentBlockStart type index blockType text

/-- A delta, by its type. -/
def readDelta (type : EventType) (index : Int) (delta : Json) : Option Data := do
  let deltaType ← stringField "type" delta >>= ContentBlockType.ofName
  match deltaType with
  | .inputJSON =>
      let partialJSON ← stringField "partial_json" delta
      return .toolInputDelta type index deltaType partialJSON
  | .jsonPartial =>
      let text ← stringField "text" delta
      return .toolResultDelta type index deltaType text
  | _ =>
      let text ← stringField "text" delta
      return .contentBlockDelta type index deltaType text

/-- The data of an event, by its type. -/
def Data.ofJson (event : EventType) (json : Json) : Option Data := do
  let type ← stringField "type" json >>= EventType.ofName
  match event with
  | .messageStart => return .messageStart type (← json.field? "message" >>= MessageMeta.ofJson)
  | .contentBlockStart => readStart type (← intField "index" json) (← json.field? "content_block")
  | .ping => return .ping type
  | .contentBlockDelta => readDelta type (← intField "index" json) (← json.field? "delta")
  | .contentBlockStop => return .contentBlockStop type (← intField "index" json)
  | .messageDelta =>
      let delta ← json.field? "delta"
      let usage ← json.field? "usage"
      let stopReason ← stringField "stop_reason" delta
      let stopSequence ← pointerField "stop_sequence" delta
      let outputTokens ← intField "output_tokens" usage
      return .messageDelta type stopReason stopSequence outputTokens
  | .messageStop => return .messageStop type

/-- What a consumer makes of a message. -/
def readEvent (message : Bytes) : Option Event := do
  let (name, text) ← decodeEvent message
  let event ← EventType.ofName name
  let json ← readJson text
  let data ← Data.ofJson event json
  return ⟨event, data⟩

/-! ## The methods of the publisher -/

/-- A method that publishes one event. -/
inductive Method where
  | messageStart (msgID conversationID model : Bytes)
  | ping
  | contentBlockStartText (index : Int)
  | contentBlockDeltaText (index : Int) (text : Bytes)
  | contentBlockStop (index : Int)
  | messageDelta (stopReason : StopReason) (outputTokens : Int)
  | messageStop
  | toolUseStart (index : Int) (toolUseID name : Bytes)
  | toolInputDelta (index : Int) (inputJSON : Bytes)
  | toolResultStart (index : Int) (toolUseID : Bytes)
  | toolResultDelta (index : Int) (text : Bytes)

namespace Method

/-- The call of the method. -/
def send : Method → Send ε
  | messageStart msgID conversationID model => sendMessageStart msgID conversationID model
  | ping => sendPing
  | contentBlockStartText index => sendContentBlockStartText index
  | contentBlockDeltaText index text => sendContentBlockDeltaText index text
  | contentBlockStop index => sendContentBlockStop index
  | messageDelta stopReason outputTokens => sendMessageDelta stopReason outputTokens
  | messageStop => sendMessageStop
  | toolUseStart index toolUseID name => sendToolUseStart index toolUseID name
  | toolInputDelta index inputJSON => sendToolInputDelta index inputJSON
  | toolResultStart index toolUseID => sendToolResultStart index toolUseID
  | toolResultDelta index text => sendToolResultDelta index text

/-- The type of the event that a method publishes. -/
def eventType : Method → EventType
  | messageStart _ _ _ => .messageStart
  | ping => .ping
  | contentBlockStartText _ => .contentBlockStart
  | contentBlockDeltaText _ _ => .contentBlockDelta
  | contentBlockStop _ => .contentBlockStop
  | messageDelta _ _ => .messageDelta
  | messageStop => .messageStop
  | toolUseStart _ _ _ => .contentBlockStart
  | toolInputDelta _ _ => .contentBlockDelta
  | toolResultStart _ _ => .contentBlockStart
  | toolResultDelta _ _ => .contentBlockDelta

/-- The data of that event. -/
def data : Method → Data
  | messageStart msgID conversationID model => .messageStart .messageStart
      { id := msgID, conversationID, type := .message, role := .assistant, model
        stopReason := none, stopSequence := none, inputTokens := 0, outputTokens := 0 }
  | ping => .ping .ping
  | contentBlockStartText index => .contentBlockStart .contentBlockStart index .text []
  | contentBlockDeltaText index text =>
      .contentBlockDelta .contentBlockDelta index .textDelta text
  | contentBlockStop index => .contentBlockStop .contentBlockStop index
  | messageDelta stopReason outputTokens =>
      .messageDelta .messageDelta stopReason none outputTokens
  | messageStop => .messageStop .messageStop
  | toolUseStart index toolUseID name =>
      .toolUseStart .contentBlockStart index .toolUse toolUseID name
  | toolInputDelta index inputJSON =>
      .toolInputDelta .contentBlockDelta index .inputJSON inputJSON
  | toolResultStart index toolUseID =>
      .toolResultStart .contentBlockStart index .toolResult toolUseID []
  | toolResultDelta index text => .toolResultDelta .contentBlockDelta index .jsonPartial text

/-- The event as it arrives. -/
def event (method : Method) : Event := ⟨method.eventType, method.data.marshal⟩

theorem send_eq (method : Method) :
    (method.send : Send ε) = publish method.eventType method.data := by
  cases method <;> rfl

/-- The integers of a call are of type `int`. -/
def Fits : Method → Prop
  | contentBlockStartText index => IsInt64 index
  | contentBlockDeltaText index _ => IsInt64 index
  | contentBlockStop index => IsInt64 index
  | messageDelta _ outputTokens => IsInt64 outputTokens
  | toolUseStart index _ _ => IsInt64 index
  | toolInputDelta index _ => IsInt64 index
  | toolResultStart index _ => IsInt64 index
  | toolResultDelta index _ => IsInt64 index
  | _ => True

end Method

/-! ## What arrives -/

theorem EventType.ascii_name (type : EventType) : type.name.all isAscii = true := by
  cases type <;> rfl

theorem ContentBlockType.ascii_name (type : ContentBlockType) : type.name.all isAscii = true := by
  cases type <;> rfl

theorem Role.ascii_name (role : Role) : role.name.all isAscii = true := by
  cases role
  rfl

theorem arrived_text {text : Bytes} (ascii : text.all isAscii = true) :
    (Json.string text).arrived = .string text := by
  rw [Json.arrived, jsonString_of_ascii ascii]

theorem arrived_int (n : Int) : (Json.int n).arrived = .int n := by
  rw [Json.int, Json.arrived]

theorem arrived_pointer (text : Option Bytes) :
    (pointer text).arrived = pointer (text.map jsonString) := by
  cases text <;> rw [pointer, Json.arrived] <;> rfl

theorem jsonString_eq_nil_iff {text : Bytes} : jsonString text = [] ↔ text = [] := by
  rw [jsonString_eq_encodeRunes, encodeRunes_eq_nil_iff]
  constructor
  · intro none
    by_contra some
    rw [runes_eq some] at none
    cases none
  · rintro rfl
    exact runes_nil

theorem arrived_indexed {type : EventType} {index : Int} {name : Bytes}
    {block : List (Bytes × Json)}
    (named : [ascii "type", ascii "index", name].all (fun name => name.all isAscii) = true)
    (names : (block.map Prod.fst).all (fun name => name.all isAscii) = true) :
    (indexed type index name block).arrived =
      indexed type index name (block.map fun field => (field.1, field.2.arrived)) := by
  rw [indexed, Json.arrived_object]
  · simp only [List.map_cons, List.map_nil]
    rw [arrived_text type.ascii_name, arrived_int, Json.arrived_object names, indexed]
  · exact named

theorem arrived_delta {type : EventType} {index : Int} {delta : ContentBlockType}
    {name text : Bytes} (named : name.all isAscii = true) :
    (indexed type index (ascii "delta")
        [(ascii "type", .string delta.name), (name, .string text)]).arrived =
      indexed type index (ascii "delta")
        [(ascii "type", .string delta.name), (name, .string (jsonString text))] := by
  rw [arrived_indexed rfl]
  · simp only [List.map_cons, List.map_nil]
    rw [arrived_text delta.ascii_name, Json.arrived]
  · simp only [List.map_cons, List.map_nil, List.all_cons, named]
    rfl

theorem arrived_typed {type : EventType} {fields : List (Bytes × Json)}
    (names : (fields.map Prod.fst).all (fun name => name.all isAscii) = true) :
    (Json.object ((ascii "type", .string type.name) :: fields)).arrived =
      .object ((ascii "type", .string type.name) ::
        fields.map fun field => (field.1, field.2.arrived)) := by
  rw [Json.arrived_object, List.map_cons, arrived_text type.ascii_name]
  rw [List.map_cons, List.all_cons, names]
  rfl

theorem map_omitEmpty (name text : Bytes) :
    (omitEmpty name text).map (fun field => (field.1, field.2.arrived)) =
      omitEmpty name (jsonString text) := by
  rw [omitEmpty, omitEmpty]
  split
  · next empty => rw [if_pos (jsonString_eq_nil_iff.mpr empty), List.map_nil]
  · next nonempty =>
      rw [if_neg (fun empty => nonempty (jsonString_eq_nil_iff.mp empty)), List.map_singleton,
        Json.arrived]

theorem MessageMeta.arrived_toJson (message : MessageMeta) :
    message.toJson.arrived = MessageMeta.toJson
      { message with
        id := jsonString message.id, conversationID := jsonString message.conversationID
        model := jsonString message.model, stopReason := message.stopReason.map jsonString
        stopSequence := message.stopSequence.map jsonString } := by
  rw [toJson, toJson, Json.arrived_object]
  · simp only [List.map_cons, List.map_nil, arrived_pointer]
    rw [arrived_text message.type.ascii_name, arrived_text message.role.ascii_name,
      Json.arrived_object]
    · simp only [List.map_cons, List.map_nil, arrived_int, Json.arrived]
    · rfl
  · rfl

/-- The data arrive as the abstract wire has them. -/
theorem Data.arrived_toJson (data : Data) : data.toJson.arrived = data.marshal.toJson := by
  cases data with
  | messageStart type message =>
      rw [toJson, arrived_typed rfl, List.map_singleton, message.arrived_toJson]
      rfl
  | contentBlockStart type index block text =>
      rw [toJson, arrived_indexed rfl]
      · rw [List.map_cons, map_omitEmpty, arrived_text block.ascii_name]
        rfl
      · rw [omitEmpty]
        split <;> rfl
  | ping type => exact arrived_typed rfl
  | contentBlockDelta type index delta text => exact arrived_delta rfl
  | contentBlockStop type index =>
      rw [toJson, arrived_typed rfl, List.map_singleton, arrived_int]
      rfl
  | messageDelta type stopReason stopSequence outputTokens =>
      rw [toJson, arrived_typed rfl]
      simp only [List.map_cons, List.map_nil]
      rw [Json.arrived_object, Json.arrived_object]
      · simp only [List.map_cons, List.map_nil, arrived_pointer, arrived_int, Json.arrived]
        rfl
      · rfl
      · rfl
  | messageStop type => exact arrived_typed rfl
  | toolUseStart type index block id name =>
      rw [toJson, arrived_indexed rfl rfl]
      simp only [List.map_cons, List.map_nil]
      rw [arrived_text block.ascii_name]
      simp only [Json.arrived, List.map_nil]
      rfl
  | toolResultStart type index block toolUseID content =>
      rw [toJson, arrived_indexed rfl]
      · rw [List.map_cons, List.map_cons, map_omitEmpty, arrived_text block.ascii_name,
          Json.arrived]
        rfl
      · rw [omitEmpty]
        split <;> rfl
  | toolInputDelta type index delta partialJSON => exact arrived_delta rfl
  | toolResultDelta type index delta text => exact arrived_delta rfl

/-! ## What a reader makes of it -/

/-- An index that arrived is read. -/
theorem intField_int {name : String} {json : Json} {n : Int}
    (found : json.field? name = some (.int n)) (fits : IsInt64 n) :
    intField name json = some n := by
  rw [intField, found]
  exact parseInt_formatInt fits

theorem ofName_typeField {json : Json} {type : EventType}
    (found : json.field? "type" = some (.string type.name)) :
    stringField "type" json >>= EventType.ofName = some type := by
  rw [stringField, found]
  cases type <;> rfl

section Indexed

variable {type : EventType} {index : Int} {block : List (Bytes × Json)}

theorem ofJson_start (fits : IsInt64 index) :
    Data.ofJson .contentBlockStart (indexed type index (ascii "content_block") block) =
      readStart type index (.object block) := by
  have number := @intField_int "index" (indexed type index (ascii "content_block") block) _ rfl fits
  rw [Data.ofJson, ofName_typeField rfl, number]
  rfl

theorem ofJson_delta (fits : IsInt64 index) :
    Data.ofJson .contentBlockDelta (indexed type index (ascii "delta") block) =
      readDelta type index (.object block) := by
  have number := @intField_int "index" (indexed type index (ascii "delta") block) _ rfl fits
  rw [Data.ofJson, ofName_typeField rfl, number]
  rfl

end Indexed

/-- What arrived is read as the data that the abstract wire has. -/
theorem Method.ofJson_toJson (method : Method) (fits : method.Fits) :
    Data.ofJson method.eventType method.data.marshal.toJson = some method.data.marshal := by
  have empty : jsonString [] = [] := jsonString_eq_nil_iff.mpr rfl
  cases method with
  | messageStart msgID conversationID model => rfl
  | ping => rfl
  | contentBlockStartText index =>
      rw [data, Data.marshal, empty]
      exact ofJson_start fits
  | contentBlockDeltaText index text => exact ofJson_delta fits
  | contentBlockStop index =>
      have number := @intField_int "index"
        (Data.contentBlockStop .contentBlockStop index).toJson index rfl fits
      rw [data, Data.marshal, eventType, Data.ofJson, ofName_typeField rfl, number]
      rfl
  | messageDelta stopReason outputTokens =>
      have number := @intField_int "output_tokens"
        (.object [(ascii "output_tokens", .int outputTokens)]) outputTokens rfl fits
      change (do
        let tokens ← intField "output_tokens" (.object [(ascii "output_tokens", .int outputTokens)])
        return Data.messageDelta .messageDelta (jsonString stopReason) none tokens) = _
      rw [number]
      rfl
  | messageStop => rfl
  | toolUseStart index toolUseID name => exact ofJson_start fits
  | toolInputDelta index inputJSON => exact ofJson_delta fits
  | toolResultStart index toolUseID =>
      rw [data, Data.marshal, empty]
      exact ofJson_start fits
  | toolResultDelta index text => exact ofJson_delta fits

/-- No data type has more than three levels. -/
theorem Data.fits_toJson (data : Data) : data.toJson.Fits maxNestingDepth := by
  have three : data.toJson.Fits 3 := by
    have pointers : ∀ levels text, (pointer text).Fits levels := by
      intro levels text
      cases levels <;> cases text <;> trivial
    have omits : ∀ name text, ∀ field ∈ omitEmpty name text, field.2.Fits 1 := by
      intro name text field member
      rw [omitEmpty] at member
      split at member
      · cases member
      · rw [List.mem_singleton.mp member]
        trivial
    cases data <;>
      simp [toJson, indexed, MessageMeta.toJson, Json.Fits, Json.fits_int, pointers]
    all_goals exact fun name value member => omits _ _ _ member
  exact three.mono (by decide)

/-- `Message.Decode` gives back the name of an event and its data as they were marshalled first. -/
theorem decodeEvent_payload (eventType : EventType) (data : Data) :
    decodeEvent (payload eventType data) = some (eventType.name, data.toJson.encode) := by
  have written : (Json.object [(ascii "event", .string eventType.name),
      (ascii "data", .string data.toJson.encode)]).Fits 1 := by
    simp [Json.Fits]
  have arrived : (Json.object [(ascii "event", .string eventType.name),
      (ascii "data", .string data.toJson.encode)]).arrived =
      .object [(ascii "event", .string eventType.name),
        (ascii "data", .string data.toJson.encode)] := by
    rw [Json.arrived_object]
    · simp only [List.map_cons, List.map_nil]
      rw [arrived_text eventType.ascii_name, Json.arrived, Json.jsonString_encode data.fits_toJson]
    · rfl
  rw [decodeEvent, payload, readJson_encode (written.mono (by decide)), arrived]
  rfl

/-- A message is read as the event that the abstract wire has. -/
theorem Method.readEvent_payload (method : Method) (fits : method.Fits) :
    readEvent (payload method.eventType method.data) = some method.event := by
  have named : EventType.ofName method.eventType.name = some method.eventType := by
    cases method.eventType <;> rfl
  rw [readEvent, decodeEvent_payload]
  simp only [Option.bind_eq_bind, Option.bind_some]
  rw [named, Option.bind_some, readJson_encode method.data.fits_toJson, Option.bind_some,
    Data.arrived_toJson, method.ofJson_toJson fits]
  rfl

/-! ## Whole topics -/

/-- What becomes of an attempt to publish.  `js.Publish` also fails when its context ends while the
acknowledgement is awaited, and then the message may have been stored. -/
inductive Outcome (ε : Type) where
  | acknowledged
  | failed (err : ε) (stored : Bool)

/-- The stream has the message. -/
def Outcome.stores : Outcome ε → Bool
  | .acknowledged => true
  | .failed _ stored => stored

/-- The error of `js.Publish`. -/
def Outcome.error : Outcome ε → Option ε
  | .acknowledged => none
  | .failed err _ => some err

/-- The messages of a topic, which are stored in the order in which they were sent. -/
structure Topic (ε : Type) where
  /-- What becomes of each attempt to publish. -/
  outcomes : Nat → Outcome ε
  /-- How many attempts were made. -/
  attempts : Nat
  /-- The messages stored. -/
  messages : List Bytes

namespace Topic

variable {topic : Topic ε}

/-- `Publisher.Publish` over `Client.Publish`; marshalling does not fail. -/
def publish (topic : Topic ε) (eventType : EventType) (data : Data) :
    Topic ε × Option (Error ε) :=
  ({ topic with
      attempts := topic.attempts + 1
      messages := topic.messages ++
        if (topic.outcomes topic.attempts).stores then [payload eventType data] else [] },
    wrap (wrap ((topic.outcomes topic.attempts).error.map .base) "jetstream publish")
      "publish event")

/-- Methods are called one after another, whatever they return. -/
def publishAll (topic : Topic ε) : List Method → Topic ε × List (Option (Error ε))
  | [] => (topic, [])
  | method :: rest =>
      let later := (topic.publish method.eventType method.data).1.publishAll rest
      (later.1, (topic.publish method.eventType method.data).2 :: later.2)

/-- The abstract wire to the same topic. -/
def wire (topic : Topic ε) (events : List Event) : Wire ε :=
  ⟨fun attempt => (topic.outcomes attempt).error, topic.attempts, events⟩

/-- The calls among some whose attempt has an outcome of a kind. -/
def calls (topic : Topic ε) (kind : Outcome ε → Bool) (methods : List Method) : List Method :=
  ((methods.zipIdx topic.attempts).filter fun call => kind (topic.outcomes call.2)).map Prod.fst

/-- The calls whose message is stored. -/
abbrev storedCalls (topic : Topic ε) (methods : List Method) : List Method :=
  topic.calls Outcome.stores methods

theorem calls_cons (kind : Outcome ε → Bool) (method : Method) (rest : List Method) :
    topic.calls kind (method :: rest) =
      (if kind (topic.outcomes topic.attempts) then [method] else []) ++
        (topic.publish method.eventType method.data).1.calls kind rest := by
  rw [calls, List.zipIdx_cons, List.filter_cons]
  split <;> rfl

/-- Kinds of outcomes that imply each other select calls in the same order. -/
theorem calls_sublist {kind other : Outcome ε → Bool}
    (implies : ∀ outcome, kind outcome = true → other outcome = true) (methods : List Method) :
    (topic.calls kind methods).Sublist (topic.calls other methods) :=
  (List.monotone_filter_right _ fun _ selected => implies _ selected).map Prod.fst

/-- The calls that succeed are those of the abstract wire. -/
theorem events_wire (methods : List Method) (events : List Event) :
    (methods.foldl (fun wire method => (method.send wire).1) (topic.wire events)).events =
      events ++ (topic.calls (fun outcome => outcome.error.isNone) methods).map Method.event := by
  induction methods generalizing topic events with
  | nil => simp [calls, wire]
  | cons method rest ih =>
      have onwards : (method.send (topic.wire events)).1 =
          (topic.publish method.eventType method.data).1.wire
            (events ++ if (topic.outcomes topic.attempts).error.isNone then [method.event]
              else []) := by
        rw [method.send_eq, Sse.publish, wire]
        cases answer : (topic.outcomes topic.attempts).error with
        | none => simp [answer, publish, wire, Method.event]
        | some err => simp [answer, publish, wire]
      rw [List.foldl_cons, onwards, ih, calls_cons, List.map_append, List.append_assoc]
      split <;> rfl

end Topic

/-- Whatever methods are called and whatever becomes of the attempts, a consumer of the topic reads,
in order, exactly the events of the calls whose message is stored.  The events of the abstract wire,
which are those of the calls that succeed, are among them in the same order, and they are all if no
attempt that fails stores its message. -/
theorem topic_reads (methods : List Method) (fits : ∀ method ∈ methods, method.Fits)
    (topic : Topic ε) :
    (topic.publishAll methods).1.messages.map readEvent =
        topic.messages.map readEvent ++
          ((topic.storedCalls methods).map Method.event).map some ∧
      (methods.foldl (fun wire method => (method.send wire).1) (topic.wire [])).events.Sublist
        ((topic.storedCalls methods).map Method.event) ∧
      ((∀ attempt, (topic.outcomes attempt).stores = true →
          (topic.outcomes attempt).error = none) →
        (methods.foldl (fun wire method => (method.send wire).1) (topic.wire [])).events =
          (topic.storedCalls methods).map Method.event) := by
  have stored : ∀ outcome : Outcome ε, outcome.error.isNone = true → outcome.stores = true := by
    intro outcome succeeded
    cases outcome with
    | acknowledged => rfl
    | failed err stored => cases succeeded
  rw [Topic.events_wire, List.nil_append]
  refine ⟨?_, (Topic.calls_sublist stored methods).map _, fun clean => ?_⟩
  · induction methods generalizing topic with
    | nil => simp [Topic.publishAll, Topic.calls]
    | cons method rest ih =>
        have read := method.readEvent_payload (fits method List.mem_cons_self)
        rw [Topic.publishAll, Topic.storedCalls, Topic.calls_cons,
          ih (fun other member => fits other (List.mem_cons_of_mem _ member)), Topic.publish]
        split <;> simp [read, Method.event]
  · congr 1
    rw [Topic.calls, Topic.storedCalls, Topic.calls]
    congr 1
    refine List.filter_congr fun call _ => ?_
    rw [Bool.eq_iff_iff]
    exact ⟨stored _, fun kept => by rw [clean _ kept]; rfl⟩

/-- The second publish fails and stores its message all the same, the third fails and does not, and
the text of the fourth is no valid UTF-8. -/
theorem topic_reads_invalid_text :
    let methods := [.ping, .messageStop, .ping, .contentBlockDeltaText 0 [0x3C, 0xFF]]
    let topic : Topic Unit := ⟨fun attempt =>
      if attempt = 1 then .failed () true else if attempt = 2 then .failed () false
      else .acknowledged, 0, []⟩
    (topic.publishAll methods).1.messages.map readEvent =
      [some ⟨.ping, .ping .ping⟩, some ⟨.messageStop, .messageStop .messageStop⟩,
        some ⟨.contentBlockDelta,
          .contentBlockDelta .contentBlockDelta 0 .textDelta [0x3C, 0xEF, 0xBF, 0xBD]⟩] := by
  intro methods topic
  rw [(topic_reads methods (by simp [methods, Method.Fits, IsInt64]) topic).1]
  decide +kernel

end CommonGo.Sse
