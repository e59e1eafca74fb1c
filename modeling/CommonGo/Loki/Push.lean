import CommonGo.Go.JsonMap
import CommonGo.Loki.Keys

/-!
# What Loki receives

`Handle` gives the labels and the line of an entry to the client, which puts them into the body of a
request as JSON.  Read as JSON again, the body of a record that any chain of derived handlers has
handled has the labels and the line that the attributes of the chain and of the record say.
-/

namespace CommonGo.Loki

open Go

/-! ## `Client.Push` -/

/-- `Client`, as far as `Push` reads it. -/
structure Client where
  /-- The address of the server, without a slash at its end. -/
  url : Bytes

/-- What `NewClientWithConfig` refuses. -/
inductive ClientError where
  | urlRequired
  deriving DecidableEq, Repr

/-- `NewClientWithConfig`, for the URL of the configuration. -/
def newClientWithConfig (url : Bytes) : Except (Error ClientError) Client :=
  if url = [] then .error (.wrapped "could not validate client config" (.base .urlRequired))
  else .ok ⟨trimRightByte url 0x2F⟩

/-- A request with the method `POST`. -/
structure Request where
  /-- The URL it is sent to. -/
  url : Bytes
  /-- The header field `Content-Type`. -/
  contentType : Bytes
  /-- The body. -/
  body : Bytes
  deriving DecidableEq, Repr

/-- A stream with one value. -/
def stream (labels : Json) (ts : Int) (line : Bytes) : Json :=
  .object [(ascii "stream", labels),
    (ascii "values", .array [.array [.string (formatInt ts), .string line]])]

/-- The payload with the one stream that `Push` makes. -/
def payload (labels : Json) (ts : Int) (line : Bytes) : Json :=
  .object [(ascii "streams", .array [stream labels ts line])]

/-- The request of `Push` at a time, for a map of labels whose keys are all in a list. -/
def Client.push (client : Client) (names : List Bytes) (labels : Bytes → Option Bytes) (ts : Int)
    (line : Bytes) : Request where
  url := client.url ++ ascii "/loki/api/v1/push"
  contentType := ascii "application/json"
  body := (payload (.ofMap names labels) ts line).encode

/-- The keys under which `Handle` can set a label. -/
def Handler.labelNames (h : Handler) (pairs : List (Bytes × Bytes)) : List Bytes :=
  [ascii "app", ascii "level", ascii "source_file", ascii "source_func", ascii "service"] ++
    (pairs.map Prod.fst).filter h.labelKeys

/-- The request that `Handle` sends for a record at a time. -/
def Handler.request (h : Handler) (client : Client) (store : Store) (r : Record) (ts : Int) :
    Request :=
  client.push (h.labelNames (h.placed store r)) (h.handle store r).labels ts (h.handle store r).line

/-! ## Reading -/

/-- A stream as it is received: its labels, and for every line its time and its text. -/
structure Received where
  /-- The labels. -/
  labels : Bytes → Option Bytes
  /-- For every line, its time and its text. -/
  values : List (List Bytes)

/-- The elements of an array. -/
def items? : Json → Option (List Json)
  | .array items => some items
  | _ => none

/-- One stream of a body. -/
def readStream (json : Json) : Option Received := do
  let labels ← json.field? "stream" >>= Json.map?
  let values ← json.field? "values" >>= items?
  let values ← values.mapM fun value => items? value >>= List.mapM Json.text?
  return ⟨labels, values⟩

/-- The streams of a body. -/
def received (body : Bytes) : Option (List Received) := do
  let json ← readJson body
  let streams ← json.field? "streams" >>= items?
  streams.mapM readStream

/-! ## The labels and the line -/

/-- The labels that attributes give: the last one with a key counts. -/
def given (labelKeys : Bytes → Bool) : List (Bytes × Bytes) → Bytes → Option Bytes
  | [], _ => none
  | pair :: pairs, key =>
      (given labelKeys pairs key).or
        (if labelKeys pair.1 ∧ pair.1 = key then some pair.2 else none)

/-- The text that attributes add to a line: those that are no labels, in their order. -/
def written (labelKeys : Bytes → Bool) (pairs : List (Bytes × Bytes)) : Bytes :=
  (pairs.filter fun pair => !labelKeys pair.1).flatMap fun pair =>
    ascii " " ++ pair.1 ++ ascii "=" ++ pair.2

/-- The labels that a record has before its attributes. -/
def recordLabels (appName : Bytes) (r : Record) (key : Bytes) : Option Bytes :=
  if key = ascii "source_func" ∧ r.function ≠ [] then some r.function
  else if key = ascii "source_file" ∧ r.file ≠ [] then some r.file
  else if key = ascii "level" then some (levelText r.level)
  else if key = ascii "app" then some appName
  else none

/-- The label that is set where no other one has its key. -/
def defaultLabel (key : Bytes) : Option Bytes :=
  if key = ascii "service" then some (ascii "system") else none

variable {labelKeys : Bytes → Bool} {key : Bytes}

theorem setLabel_labels (entry : Entry) (name value : Bytes) :
    (entry.setLabel name value).labels key =
      if key = name then some value else entry.labels key := by
  simp [Entry.setLabel, Function.update_apply]

theorem setSource_labels (entry : Entry) (name value : Bytes) :
    (entry.setSource name value).labels key =
      if key = name ∧ value ≠ [] then some value else entry.labels key := by
  unfold Entry.setSource
  by_cases empty : value = []
  · simp [empty]
  · simp [empty, setLabel_labels]

theorem start_labels (h : Handler) (r : Record) :
    (h.start r).labels key = recordLabels h.appName r key := by
  simp only [Handler.start, setSource_labels, setLabel_labels, recordLabels]

theorem foldl_place (pairs : List (Bytes × Bytes)) (entry : Entry) :
    (pairs.foldl (place labelKeys) entry).labels key =
        (given labelKeys pairs key).or (entry.labels key) ∧
      (pairs.foldl (place labelKeys) entry).line = entry.line ++ written labelKeys pairs := by
  induction pairs generalizing entry with
  | nil => simp [given, written]
  | cons pair pairs ih =>
      obtain ⟨labels, line⟩ := ih (place labelKeys entry pair)
      rw [List.foldl_cons, labels, line, given]
      by_cases label : labelKeys pair.1 = true
      · rw [place, if_pos label, setLabel_labels]
        refine ⟨?_, by simp [Entry.setLabel, written, label]⟩
        by_cases same : key = pair.1
        · simp [same, label]
        · simp [same, Ne.symm same]
      · rw [place, if_neg label]
        simp [Entry.writeString, written, label]

theorem defaultService_labels (entry : Entry) :
    entry.defaultService.labels key = (entry.labels key).or (defaultLabel key) := by
  unfold Entry.defaultService defaultLabel
  split
  · rename_i value found
    by_cases same : key = ascii "service"
    · rw [same, found]
      rfl
    · simp [same]
  · rename_i missing
    rw [setLabel_labels]
    by_cases same : key = ascii "service"
    · simp [same, missing]
    · simp [same]

theorem handle_labels (h : Handler) (store : Store) (r : Record) :
    (h.handle store r).labels key = ((given h.labelKeys (h.placed store r) key).or
      (recordLabels h.appName r key)).or (defaultLabel key) := by
  rw [h.handle_eq, Handler.entry, defaultService_labels, (foldl_place _ _).1, start_labels]

theorem handle_line (h : Handler) (store : Store) (r : Record) :
    (h.handle store r).line = r.message ++ written h.labelKeys (h.placed store r) := by
  have source : ∀ (entry : Entry) (name value : Bytes),
      (entry.setSource name value).line = entry.line := by
    intro entry name value
    unfold Entry.setSource
    split_ifs <;> rfl
  have service : ∀ entry : Entry, entry.defaultService.line = entry.line := by
    intro entry
    unfold Entry.defaultService
    split <;> rfl
  rw [h.handle_eq, Handler.entry, service, (@foldl_place _ [] _ _).2, Handler.start, source,
    source]
  rfl

/-- An attribute gives a label only under a key of its own that is a label key. -/
theorem mem_of_given {pairs : List (Bytes × Bytes)} (found : (given labelKeys pairs key).isSome) :
    key ∈ (pairs.map Prod.fst).filter labelKeys := by
  induction pairs with
  | nil => cases found
  | cons pair pairs ih =>
      rw [given, Option.isSome_or, Bool.or_eq_true] at found
      rw [List.map_cons, List.filter_cons]
      rcases found with later | here
      · split_ifs
        · exact List.mem_cons_of_mem _ (ih later)
        · exact ih later
      · split_ifs at here with label
        · rw [if_pos label.1, label.2]
          exact List.mem_cons_self
        · cases here

theorem mem_labelNames (h : Handler) (store : Store) (r : Record)
    (found : ((h.handle store r).labels key).isSome) :
    key ∈ h.labelNames (h.placed store r) := by
  rw [handle_labels, Option.isSome_or, Option.isSome_or, Bool.or_eq_true, Bool.or_eq_true] at found
  rw [Handler.labelNames, List.mem_append]
  rcases found with (own | record) | service
  · exact Or.inr (mem_of_given own)
  · left
    unfold recordLabels at record
    split_ifs at record <;> simp_all
  · left
    unfold defaultLabel at service
    split_ifs at service <;> simp_all

/-! ## What is received -/

theorem valid_labelNames {h : Handler} {pairs : List (Bytes × Bytes)}
    (valid : ∀ key, h.labelKeys key = true → validString key = true) {name : Bytes}
    (member : name ∈ h.labelNames pairs) : validString name = true := by
  rcases List.mem_append.mp member with fixed | own
  · have all : [ascii "app", ascii "level", ascii "source_file", ascii "source_func",
        ascii "service"].all (fun name => name.all isAscii) = true := by decide
    exact validString_of_ascii (List.all_eq_true.mp all name fixed)
  · exact valid name (List.mem_filter.mp own).2

theorem ascii_formatInt (n : Int) : (formatInt n).all isAscii = true := by
  have number := Json.fits_int 0 n
  exact number.2

theorem arrived_payload {labels : Json} (ts : Int) (line : Bytes) :
    (payload labels ts line).arrived = payload labels.arrived ts (jsonString line) := by
  have time := jsonString_of_ascii (ascii_formatInt ts)
  rw [payload, Json.arrived_object rfl, stream]
  simp only [List.map_cons, List.map_nil]
  rw [Json.arrived, List.map_singleton, Json.arrived_object rfl]
  simp only [List.map_cons, List.map_nil, Json.arrived, time]
  rfl

theorem readStream_stream {labels : Json} {map : Bytes → Option Bytes}
    (reads : labels.map? = some map) (ts : Int) (line : Bytes) :
    readStream (stream labels ts line) = some ⟨map, [[formatInt ts, line]]⟩ := by
  have found : (stream labels ts line).field? "stream" = some labels := rfl
  have values : (stream labels ts line).field? "values" =
      some (.array [.array [.string (formatInt ts), .string line]]) := rfl
  rw [readStream, found, values]
  simp [reads, items?, Json.text?]

/-- The body of a request, read as JSON, is what was pushed. -/
theorem received_push (client : Client) {names : List Bytes} {labels : Bytes → Option Bytes}
    (all : ∀ name, (labels name).isSome → name ∈ names)
    (valid : ∀ name ∈ names, validString name = true) (ts : Int) (line : Bytes) :
    received (client.push names labels ts line).body =
      some [⟨fun name => (labels name).map jsonString, [[formatInt ts, jsonString line]]⟩] := by
  have fits : (payload (.ofMap names labels) ts line).Fits 5 := by
    simp [payload, stream, Json.Fits, Json.fits_ofMap]
  have arrives : ∀ name, ((labels name).map jsonString).isSome → name ∈ names :=
    fun name found => all name (by simpa using found)
  have streams : ∀ labels line, (payload labels ts line).field? "streams" =
      some (.array [stream labels ts line]) := fun _ _ => rfl
  rw [received, Client.push, readJson_encode (fits.mono (by decide)), arrived_payload,
    Json.arrived_ofMap valid]
  simp [streams, items?, readStream_stream (Json.map?_ofMap arrives)]

/-- A derived handler keeps the name and the label keys. -/
theorem deriveAll_config (growth : Growth) (start : Store × Handler) (chain : List Derivation) :
    (deriveAll growth start chain).2.appName = start.2.appName ∧
      (deriveAll growth start chain).2.labelKeys = start.2.labelKeys := by
  induction chain generalizing start with
  | nil => exact ⟨rfl, rfl⟩
  | cons call chain ih =>
      obtain ⟨appName, labelKeys⟩ := ih (start.2.derive growth start.1 call)
      rw [deriveAll, List.foldl_cons, ← deriveAll, appName, labelKeys]
      cases call with
      | withAttrs attrs => exact ⟨rfl, rfl⟩
      | withGroup name => exact ⟨rfl, rfl⟩

/-- The keys and values that the last handler of a chain places. -/
def pairs (chain : List Derivation) (r : Record) : List (Bytes × Bytes) :=
  (chain.flatMap Derivation.attrs ++ r.attrs).map fun a =>
    (dotted (chain.flatMap Derivation.names).reverse ++ a.key, a.value)

theorem placed_deriveAll (growth : Growth) {cfg : HandlerConfig} {level : Int} {h : Handler}
    (created : newHandlerWithConfig cfg level = .ok h) (chain : List Derivation) (r : Record) :
    (deriveAll growth (Store.empty, h) chain).2.placed
      (deriveAll growth (Store.empty, h) chain).1 r = pairs chain r := by
  obtain ⟨valid, no_attrs, no_groups⟩ := valid_newHandler created
  have reads := @read_deriveAll growth chain (Store.empty, h) valid
  rw [no_attrs, no_groups, List.nil_append, List.nil_append] at reads
  simp only [Handler.placed, reads.1, reads.2, qualify_eq, pairs]

/-- For every chain of derived handlers and every record, Loki receives one line: the message with
the attributes that are no labels behind it, under the labels of the record and of the other
attributes. -/
theorem received_chain (growth : Growth) {cfg : HandlerConfig} {level : Int} {h : Handler}
    (created : newHandlerWithConfig cfg level = .ok h)
    (valid : ∀ key, cfg.labelKeys key = true → validString key = true)
    (chain : List Derivation) (r : Record) (client : Client) (ts : Int) :
    let last := deriveAll growth (Store.empty, h) chain
    received (last.2.request client last.1 r ts).body =
      some [⟨fun key => (((given cfg.labelKeys (pairs chain r) key).or
          (recordLabels cfg.appName r key)).or (defaultLabel key)).map jsonString,
        [[formatInt ts, jsonString (r.message ++ written cfg.labelKeys (pairs chain r))]]⟩] := by
  intro last
  have placed : last.2.placed last.1 r = pairs chain r := placed_deriveAll growth created chain r
  have kept := deriveAll_config growth (Store.empty, h) chain
  have fresh := newHandlerWithConfig_ok created
  have appName : last.2.appName = cfg.appName := kept.1.trans (by rw [fresh])
  have labelKeys : last.2.labelKeys = cfg.labelKeys := kept.2.trans (by rw [fresh])
  have keys : ∀ key, last.2.labelKeys key = true → validString key = true := by
    rw [labelKeys]
    exact valid
  have pushed := received_push client (fun name => mem_labelNames last.2 last.1 r)
    (fun name => valid_labelNames keys) ts (last.2.handle last.1 r).line
  rw [Handler.request, pushed, handle_line, placed, labelKeys]
  simp only [handle_labels, placed, labelKeys, appName]

/-- The users are labels. -/
def userLabels : HandlerConfig := ⟨ascii "app", (· == ascii "http.user")⟩

/-- A line that is no valid UTF-8, for a user. -/
def invalidLine : Record := ⟨0, [0xFF], [], [], [⟨ascii "user", ascii "7"⟩]⟩

theorem received_chain_invalidLine : ∃ h, newHandlerWithConfig userLabels 0 = .ok h ∧
    let chain := [.withGroup (ascii "http")]
    let last := deriveAll Growth.least (Store.empty, h) chain
    received (last.2.request ⟨ascii "http://loki:3100"⟩ last.1 invalidLine 1).body =
      some [⟨fun key => (((given userLabels.labelKeys (pairs chain invalidLine) key).or
          (recordLabels userLabels.appName invalidLine key)).or (defaultLabel key)).map jsonString,
        [[formatInt 1, jsonString (invalidLine.message ++
          written userLabels.labelKeys (pairs chain invalidLine))]]⟩] := by
  have valid : ∀ key, userLabels.labelKeys key = true → validString key = true := by
    intro key is
    rw [beq_iff_eq.mp is]
    exact validString_of_ascii rfl
  exact ⟨_, rfl, @received_chain _ _ 0 _ rfl valid _ _ _ _⟩

end CommonGo.Loki
