import CommonGo.CtxErrors
import CommonGo.Go.Slice
import CommonGo.Go.Strings

/-!
# The Loki handler

The `slog` handler that pushes records to Loki.  Its attributes and group names are slices, so a
handler is read in a store of backing arrays; `WithAttrs` and `WithGroup` append to them, and
`Handle` turns a record into the labels and the line of an entry.
-/

namespace CommonGo.Loki

open Go

/-- A top-level attribute, with the text of its value. -/
structure Attr where
  /-- The key. -/
  key : Bytes
  /-- The text of the value. -/
  value : Bytes
  deriving DecidableEq, Repr

/-- `HandlerConfig`, as far as it is read. -/
structure HandlerConfig where
  /-- The application, which is a label of every entry. -/
  appName : Bytes
  /-- The keys of the attributes that become labels. -/
  labelKeys : Bytes → Bool

/-- What `validate` refuses. -/
inductive HandlerError where
  | appNameRequired
  deriving DecidableEq, Repr

/-- `HandlerConfig.validate`. -/
def HandlerConfig.validate (cfg : HandlerConfig) : Option (Error HandlerError) :=
  if cfg.appName = [] then some (.base .appNameRequired) else none

/-- A handler.  The client that it shares with other handlers is where the entries go. -/
structure Handler where
  /-- The application. -/
  appName : Bytes
  /-- The keys of the attributes that become labels. -/
  labelKeys : Bytes → Bool
  /-- The least level that is handled. -/
  level : Int
  /-- The attributes of `WithAttrs`. -/
  attrs : Slice
  /-- The names of `WithGroup`, outermost first. -/
  groups : Slice

/-- The backing arrays of the attributes and of the group names. -/
structure Store where
  /-- The arrays of attributes. -/
  attrs : Heap Attr
  /-- The arrays of group names. -/
  groups : Heap Bytes

/-- The arrays before the first handler. -/
def Store.empty : Store := ⟨Heap.empty, Heap.empty⟩

/-- `NewHandlerWithConfig`. -/
def newHandlerWithConfig (cfg : HandlerConfig) (level : Int) :
    Except (Error HandlerError) Handler :=
  match cfg.validate with
  | some err => .error (.wrapped "could not validate handler config" err)
  | none => .ok ⟨cfg.appName, cfg.labelKeys, level, Slice.nil, Slice.nil⟩

/-- `Handler.Enabled`. -/
def Handler.enabled (h : Handler) (level : Int) : Bool := h.level ≤ level

/-! ## `Handle` -/

/-- What is pushed: the labels and the line. -/
structure Entry where
  /-- The labels of the stream. -/
  labels : Bytes → Option Bytes
  /-- The text of the line. -/
  line : Bytes

namespace Entry

/-- A label is set. -/
def setLabel (entry : Entry) (key value : Bytes) : Entry where
  labels := Function.update entry.labels key (some value)
  line := entry.line

/-- Text is added to the line. -/
def writeString (entry : Entry) (text : Bytes) : Entry where
  labels := entry.labels
  line := entry.line ++ text

/-- A label that is set only where its text is not empty. -/
def setSource (entry : Entry) (key value : Bytes) : Entry :=
  if value = [] then entry else entry.setLabel key value

/-- The label of the service, where no attribute gave one. -/
def defaultService (entry : Entry) : Entry :=
  match entry.labels (ascii "service") with
  | some _ => entry
  | none => entry.setLabel (ascii "service") (ascii "system")

end Entry

/-- A record, with the file and the function of its program counter, empty if not known. -/
structure Record where
  /-- The level. -/
  level : Int
  /-- The message. -/
  message : Bytes
  /-- The file of the call, or nothing. -/
  file : Bytes
  /-- The function of the call, or nothing. -/
  function : Bytes
  /-- The attributes of the record itself. -/
  attrs : List Attr

/-- A level as its distance from one of the named ones. -/
def levelFrom (base : String) (distance : Int) : Bytes :=
  if distance = 0 then ascii base
  else ascii base ++ ascii ((if 0 ≤ distance then "+" else "") ++ toString distance)

/-- `strings.ToLower` of `slog.Level.String`. -/
def levelText (level : Int) : Bytes :=
  if level < 0 then levelFrom "debug" (level + 4)
  else if level < 4 then levelFrom "info" level
  else if level < 8 then levelFrom "warn" (level - 4)
  else levelFrom "error" (level - 8)

/-- The labels and the line before the attributes. -/
def Handler.start (h : Handler) (r : Record) : Entry :=
  ((((⟨fun _ => none, r.message⟩ : Entry).setLabel (ascii "app") h.appName).setLabel
    (ascii "level") (levelText r.level)).setSource (ascii "source_file") r.file).setSource
      (ascii "source_func") r.function

/-- The key of an attribute: the loop over the group names in `processAttr`. -/
def qualify (groups : List Bytes) (key : Bytes) : Bytes :=
  groups.foldl (fun key g => g ++ ascii "." ++ key) key

/-- A value goes to the labels or to the line, as its key says. -/
def place (labelKeys : Bytes → Bool) (entry : Entry) (pair : Bytes × Bytes) : Entry :=
  if labelKeys pair.1 then entry.setLabel pair.1 pair.2
  else entry.writeString (ascii " " ++ pair.1 ++ ascii "=" ++ pair.2)

/-- `Handler.processAttr`. -/
def Handler.processAttr (h : Handler) (store : Store) (entry : Entry) (a : Attr) : Entry :=
  place h.labelKeys entry (qualify (store.groups.read h.groups) a.key, a.value)

/-- `Handler.Handle`, up to the push of the entry. -/
def Handler.handle (h : Handler) (store : Store) (r : Record) : Entry :=
  (r.attrs.foldl (h.processAttr store)
    ((store.attrs.read h.attrs).foldl (h.processAttr store) (h.start r))).defaultService

/-! ## `WithAttrs` and `WithGroup` -/

/-- A call that derives a handler. -/
inductive Derivation where
  | withAttrs (attrs : List Attr)
  | withGroup (name : Bytes)
  deriving DecidableEq, Repr

namespace Derivation

/-- The attributes that a call adds. -/
def attrs : Derivation → List Attr
  | withAttrs attrs => attrs
  | withGroup _ => []

/-- The group names that a call adds. -/
def names : Derivation → List Bytes
  | withAttrs _ => []
  | withGroup name => [name]

end Derivation

/-- `Handler.WithAttrs`. -/
def Handler.withAttrs (growth : Growth) (store : Store) (h : Handler) (attrs : List Attr) :
    Store × Handler :=
  let appended := h.attrs.append growth store.attrs attrs
  (⟨appended.1, store.groups⟩, ⟨h.appName, h.labelKeys, h.level, appended.2, h.groups⟩)

/-- `Handler.WithGroup`. -/
def Handler.withGroup (growth : Growth) (store : Store) (h : Handler) (name : Bytes) :
    Store × Handler :=
  let appended := h.groups.append growth store.groups [name]
  (⟨store.attrs, appended.1⟩, ⟨h.appName, h.labelKeys, h.level, h.attrs, appended.2⟩)

/-- A handler and one of the two calls. -/
def Handler.derive (growth : Growth) (store : Store) (h : Handler) :
    Derivation → Store × Handler
  | .withAttrs attrs => h.withAttrs growth store attrs
  | .withGroup name => h.withGroup growth store name

/-- A chain of calls, each on the handler that the one before returned. -/
def deriveAll (growth : Growth) (start : Store × Handler) (chain : List Derivation) :
    Store × Handler :=
  chain.foldl (fun state call => state.2.derive growth state.1 call) start

/-- The slices of a handler are slices of the store. -/
structure Handler.Valid (store : Store) (h : Handler) : Prop where
  /-- The attributes have been written in an array. -/
  attrs : Slice.Valid store.attrs h.attrs
  /-- The group names have been written in an array. -/
  groups : Slice.Valid store.groups h.groups

variable {growth : Growth} {store : Store} {h other : Handler}

/-- A derived handler is valid. -/
theorem Handler.Valid.derived (valid : h.Valid store) (growth : Growth) (call : Derivation) :
    (h.derive growth store call).2.Valid (h.derive growth store call).1 := by
  cases call with
  | withAttrs attrs => exact ⟨valid.attrs.appended growth attrs, valid.groups⟩
  | withGroup name => exact ⟨valid.attrs, valid.groups.appended growth [name]⟩

/-- A derived handler reads the attributes and the names of its parent, and its own. -/
theorem Handler.Valid.read_derived (valid : h.Valid store) (growth : Growth)
    (call : Derivation) :
    (h.derive growth store call).1.attrs.read (h.derive growth store call).2.attrs =
        store.attrs.read h.attrs ++ call.attrs ∧
      (h.derive growth store call).1.groups.read (h.derive growth store call).2.groups =
        store.groups.read h.groups ++ call.names := by
  cases call with
  | withAttrs attrs =>
      exact ⟨valid.attrs.read_appended growth attrs, (List.append_nil _).symm⟩
  | withGroup name =>
      exact ⟨(List.append_nil _).symm, valid.groups.read_appended growth [name]⟩

/-- What the last handler of a chain reads. -/
theorem read_deriveAll (chain : List Derivation) {start : Store × Handler}
    (valid : start.2.Valid start.1) :
    (deriveAll growth start chain).1.attrs.read (deriveAll growth start chain).2.attrs =
        start.1.attrs.read start.2.attrs ++ chain.flatMap Derivation.attrs ∧
      (deriveAll growth start chain).1.groups.read (deriveAll growth start chain).2.groups =
        start.1.groups.read start.2.groups ++ chain.flatMap Derivation.names := by
  induction chain generalizing start with
  | nil => exact ⟨(List.append_nil _).symm, (List.append_nil _).symm⟩
  | cons call chain ih =>
      obtain ⟨attrs, groups⟩ := valid.read_derived growth call
      obtain ⟨later_attrs, later_groups⟩ := ih (valid.derived growth call)
      constructor
      · rw [List.flatMap_cons, ← List.append_assoc, ← attrs]
        exact later_attrs
      · rw [List.flatMap_cons, ← List.append_assoc, ← groups]
        exact later_groups

theorem newHandlerWithConfig_ok {cfg : HandlerConfig} {level : Int}
    (created : newHandlerWithConfig cfg level = .ok h) :
    h = ⟨cfg.appName, cfg.labelKeys, level, Slice.nil, Slice.nil⟩ := by
  unfold newHandlerWithConfig at created
  split at created
  · cases created
  · exact (Except.ok.inj created).symm

/-- A new handler is valid, and has no attributes and no group names. -/
theorem valid_newHandler {cfg : HandlerConfig} {level : Int}
    (created : newHandlerWithConfig cfg level = .ok h) :
    h.Valid Store.empty ∧ Store.empty.attrs.read h.attrs = [] ∧
      Store.empty.groups.read h.groups = [] := by
  rw [newHandlerWithConfig_ok created]
  exact ⟨⟨Slice.valid_nil, Slice.valid_nil⟩, Slice.read_nil, Slice.read_nil⟩

end CommonGo.Loki
