import CommonGo.Go.Strconv
import CommonGo.Sse.Publisher

/-!
# The text streamer

A `TextStreamer` collects the text of a message.  With a publisher it also opens a text block with
the first chunk, sends every chunk as a delta and closes the block on request.  Without one it is
meant to keep the same books and to publish nothing.
-/

namespace CommonGo.Sse

open Go

variable {ε : Type}

/-- `TextStreamer`; the publisher may be nil. -/
structure TextStreamer (ε : Type) where
  /-- Where the events go, if anywhere. -/
  publisher : Option (Wire ε)
  /-- The text collected so far. -/
  text : Bytes
  /-- The index of the next block, or of the one that is open. -/
  blockIndex : Int
  /-- Whether a block is open. -/
  blockStarted : Bool

/-- `NewTextStreamer`. -/
def newTextStreamer (publisher : Option (Wire ε)) (startIndex : Int) : TextStreamer ε :=
  ⟨publisher, [], startIndex, false⟩

namespace TextStreamer

/-- A method of the publisher is called. -/
def send (s : TextStreamer ε) (method : Send ε) : TextStreamer ε × Option (Error ε) :=
  match s.publisher with
  | none => (s, none)
  | some wire => ({ s with publisher := some (method wire).1 }, (method wire).2)

/-- `messageBuilder.WriteString`. -/
def append (s : TextStreamer ε) (text : Bytes) : TextStreamer ε := { s with text := s.text ++ text }

/-- The part of `WriteChunk` that opens a block. -/
def startBlock (s : TextStreamer ε) : TextStreamer ε × Option (Error ε) :=
  if s.blockStarted then (s, none)
  else
    match s.send (sendContentBlockStartText s.blockIndex) with
    | (s, some err) => (s, wrap (some err) "send content block start")
    | (s, none) => ({ s with blockStarted := true }, none)

/-- The part of `WriteChunk` that sends a delta. -/
def sendDelta (s : TextStreamer ε) (text : Bytes) : TextStreamer ε × Option (Error ε) :=
  match s.send (sendContentBlockDeltaText s.blockIndex text) with
  | (s, some err) => (s, wrap (some err) "send content block delta")
  | (s, none) => (s, none)

/-- `TextStreamer.WriteChunk`. -/
def writeChunk (s : TextStreamer ε) (text : Bytes) : TextStreamer ε × Option (Error ε) :=
  if text.isEmpty then (s, none)
  else if s.publisher.isNone then (s.append text, none)
  else
    match (s.append text).startBlock with
    | (s, some err) => (s, some err)
    | (s, none) => s.sendDelta text

/-- The block is closed, and the next one has the next index; behind the largest `int` comes the
smallest. -/
def endBlock (s : TextStreamer ε) : TextStreamer ε :=
  { s with blockStarted := false, blockIndex := wrapInt (s.blockIndex + 1) }

/-- `TextStreamer.CloseBlock`. -/
def closeBlock (s : TextStreamer ε) : TextStreamer ε × Option (Error ε) :=
  if !s.blockStarted then (s, none)
  else if s.publisher.isNone then (s.endBlock, none)
  else
    match s.send (sendContentBlockStop s.blockIndex) with
    | (s, some err) => (s, wrap (some err) "send content block stop")
    | (s, none) => (s.endBlock, none)

/-! ## What the methods publish -/

/-- The events that arrived. -/
def events (s : TextStreamer ε) : List Event := (s.publisher.map Wire.events).getD []

/-- No attempt to publish has failed. -/
def Flawless (s : TextStreamer ε) : Prop := ∀ wire, s.publisher = some wire → wire.Flawless

variable {s : TextStreamer ε} {method : Send ε} {arriving : List Event} {text : Bytes}

section Send

@[simp] theorem send_text : (s.send method).1.text = s.text := by
  unfold send
  split <;> rfl

@[simp] theorem send_blockIndex : (s.send method).1.blockIndex = s.blockIndex := by
  unfold send
  split <;> rfl

@[simp] theorem send_blockStarted : (s.send method).1.blockStarted = s.blockStarted := by
  unfold send
  split <;> rfl

@[simp] theorem send_isSome : (s.send method).1.publisher.isSome = s.publisher.isSome := by
  unfold send
  split
  · rfl
  · next streaming => rw [streaming]; rfl

theorem send_sent (emits : Emits method arriving) (streaming : s.publisher.isSome) :
    ∃ part, part <+: arriving ∧ (s.send method).1.events = s.events ++ part ∧
      ((s.send method).2 = none ↔ part = arriving) := by
  obtain ⟨wire, publisher⟩ := Option.isSome_iff_exists.mp streaming
  obtain ⟨part, initial, arrived, whole⟩ := emits.sent wire
  refine ⟨part, initial, ?_, ?_⟩
  · simp [send, events, publisher, arrived]
  · simp [send, publisher, whole]

theorem send_flawless (emits : Emits method arriving) (flawless : (s.send method).1.Flawless) :
    s.Flawless ∧ (s.send method).2 = none := by
  unfold send at flawless ⊢
  split at flawless
  · next nil =>
      refine ⟨?_, rfl⟩
      rw [Flawless, nil]
      nofun
  · next wire publisher =>
      obtain ⟨before, succeeded⟩ := emits.flawless wire (flawless _ rfl)
      refine ⟨?_, succeeded⟩
      intro other same
      rw [publisher] at same
      cases same
      exact before

end Send

/-- The streamers differ at most in what has become of the publisher. -/
structure Kept (s s' : TextStreamer ε) : Prop where
  /-- There is a publisher. -/
  streaming : s'.publisher.isSome
  /-- The text is the same. -/
  text : s'.text = s.text
  /-- The index is the same. -/
  blockIndex : s'.blockIndex = s.blockIndex
  /-- The flag is the same. -/
  blockStarted : s'.blockStarted = s.blockStarted

/-- One event arrives, or the method returns an error. -/
theorem send_cases {event : Event} (emits : Emits method [event])
    (streaming : s.publisher.isSome) :
    (∃ s', s.send method = (s', none) ∧ s.Kept s' ∧ s'.events = s.events ++ [event] ∧
        (s'.Flawless → s.Flawless)) ∨
      ∃ s' err, s.send method = (s', some err) ∧ s.Kept s' ∧ s'.events = s.events ∧
        ¬ s'.Flawless := by
  obtain ⟨part, initial, arrived, whole⟩ := send_sent emits streaming
  have kept : s.Kept (s.send method).1 := by
    constructor
    · rwa [send_isSome]
    · exact send_text
    · exact send_blockIndex
    · exact send_blockStarted
  cases result : (s.send method).2 with
  | none =>
      rw [whole.mp result] at arrived
      exact Or.inl ⟨_, Prod.ext rfl result, kept, arrived,
        fun flawless => (send_flawless emits flawless).1⟩
  | some err =>
      have nothing : part = [] := by
        rcases List.prefix_cons_iff.mp initial with rfl | ⟨rest, rfl, empty⟩
        · rfl
        · rw [List.prefix_nil.mp empty, result] at whole
          cases whole.mpr rfl
      rw [nothing, List.append_nil] at arrived
      refine Or.inr ⟨_, err, Prod.ext rfl result, kept, arrived, ?_⟩
      intro flawless
      have succeeded := (send_flawless emits flawless).2
      rw [result] at succeeded
      cases succeeded

/-- The event that opens a text block. -/
def startEvent (index : Int) : Event :=
  ⟨.contentBlockStart, (Data.contentBlockStart .contentBlockStart index .text []).marshal⟩

/-- The event that carries a chunk of text. -/
def deltaEvent (index : Int) (text : Bytes) : Event :=
  ⟨.contentBlockDelta, (Data.contentBlockDelta .contentBlockDelta index .textDelta text).marshal⟩

/-- The event that closes a block. -/
def stopEvent (index : Int) : Event :=
  ⟨.contentBlockStop, (Data.contentBlockStop .contentBlockStop index).marshal⟩

/-- What `WriteChunk` publishes before the chunk. -/
def opening (s : TextStreamer ε) : List Event :=
  if s.blockStarted then [] else [startEvent s.blockIndex]

theorem startBlock_spec (streaming : s.publisher.isSome) :
    s.startBlock.1.publisher.isSome ∧ s.startBlock.1.text = s.text ∧
      s.startBlock.1.blockIndex = s.blockIndex ∧
      (s.startBlock.2 = none ∧ s.startBlock.1.blockStarted = true ∧
          s.startBlock.1.events = s.events ++ s.opening ∧
          (s.startBlock.1.Flawless → s.Flawless) ∨
        s.startBlock.2 ≠ none ∧ s.blockStarted = false ∧ s.startBlock.1.blockStarted = false ∧
          s.startBlock.1.events = s.events ∧ ¬ s.startBlock.1.Flawless) := by
  unfold startBlock opening
  cases started : s.blockStarted with
  | true =>
      exact ⟨streaming, rfl, rfl, Or.inl ⟨rfl, started, (List.append_nil _).symm, id⟩⟩
  | false =>
      have emits : Emits (sendContentBlockStartText s.blockIndex : Send ε)
          [startEvent s.blockIndex] := emits_publish _ _
      rcases send_cases emits streaming with
        ⟨s', sent, kept, arrived, clean⟩ | ⟨s', err, sent, kept, arrived, flawed⟩
      · simp only [sent, Bool.false_eq_true, if_false]
        exact ⟨kept.streaming, kept.text, kept.blockIndex,
          Or.inl ⟨trivial, trivial, arrived, clean⟩⟩
      · simp only [sent, Bool.false_eq_true, if_false]
        exact ⟨kept.streaming, kept.text, kept.blockIndex,
          Or.inr ⟨nofun, trivial, kept.blockStarted.trans started, arrived, flawed⟩⟩

theorem sendDelta_spec (streaming : s.publisher.isSome) :
    s.Kept (s.sendDelta text).1 ∧
      ((s.sendDelta text).2 = none ∧
          (s.sendDelta text).1.events = s.events ++ [deltaEvent s.blockIndex text] ∧
          ((s.sendDelta text).1.Flawless → s.Flawless) ∨
        (s.sendDelta text).2 ≠ none ∧ (s.sendDelta text).1.events = s.events ∧
          ¬ (s.sendDelta text).1.Flawless) := by
  have emits : Emits (sendContentBlockDeltaText s.blockIndex text : Send ε)
      [deltaEvent s.blockIndex text] := emits_publish _ _
  rcases send_cases emits streaming with
    ⟨s', sent, kept, arrived, clean⟩ | ⟨s', err, sent, kept, arrived, flawed⟩
  · simp only [sendDelta, sent]
    exact ⟨kept, Or.inl ⟨trivial, arrived, clean⟩⟩
  · simp only [sendDelta, sent]
    exact ⟨kept, Or.inr ⟨nofun, arrived, flawed⟩⟩

/-- `WriteChunk` adds the text in any case.  It publishes nothing, or only opens a block, and has
failed, or it publishes the chunk. -/
theorem writeChunk_spec (streaming : s.publisher.isSome) (nonempty : text ≠ []) :
    (s.writeChunk text).1.publisher.isSome ∧ (s.writeChunk text).1.text = s.text ++ text ∧
      (s.writeChunk text).1.blockIndex = s.blockIndex ∧
      ((s.writeChunk text).2 ≠ none ∧ s.blockStarted = false ∧
          (s.writeChunk text).1.blockStarted = false ∧
          (s.writeChunk text).1.events = s.events ∧ ¬ (s.writeChunk text).1.Flawless ∨
        (s.writeChunk text).2 ≠ none ∧ (s.writeChunk text).1.blockStarted = true ∧
          (s.writeChunk text).1.events = s.events ++ s.opening ∧
          ¬ (s.writeChunk text).1.Flawless ∨
        (s.writeChunk text).2 = none ∧ (s.writeChunk text).1.blockStarted = true ∧
          (s.writeChunk text).1.events =
            s.events ++ s.opening ++ [deltaEvent s.blockIndex text] ∧
          ((s.writeChunk text).1.Flawless → s.Flawless)) := by
  have nil : s.publisher.isNone = false := by simpa using streaming
  have written : (s.append text).publisher.isSome := streaming
  obtain ⟨kept, same, index, started⟩ := startBlock_spec written
  rw [writeChunk, if_neg (by simpa using nonempty), if_neg (by simp [nil])]
  split
  · next s' err failed =>
      rw [failed] at kept same index started
      rcases started with ⟨succeeded, _⟩ | ⟨_, closed, still, events, flawed⟩
      · cases succeeded
      · exact ⟨kept, same, index, Or.inl ⟨nofun, closed, still, events, flawed⟩⟩
  · next s' went =>
      rw [went] at kept same index started
      rcases started with ⟨_, flag, events, clean⟩ | ⟨failed, _⟩
      · obtain ⟨after, outcome⟩ := sendDelta_spec kept
        refine ⟨after.streaming, after.text.trans same, after.blockIndex.trans index, Or.inr ?_⟩
        rcases outcome with ⟨succeeded, arrived, before⟩ | ⟨failed, arrived, flawed⟩
        · refine Or.inr ⟨succeeded, after.blockStarted.trans flag, ?_,
            fun flawless => clean (before flawless)⟩
          rw [arrived, events, index]
          rfl
        · exact Or.inl ⟨failed, after.blockStarted.trans flag, arrived.trans events, flawed⟩
      · exact absurd rfl failed

/-- `CloseBlock` closes the block that is open, or it has failed. -/
theorem closeBlock_spec (streaming : s.publisher.isSome) (started : s.blockStarted = true) :
    s.closeBlock.1.publisher.isSome ∧ s.closeBlock.1.text = s.text ∧
      (s.closeBlock.2 = none ∧ s.closeBlock.1.blockStarted = false ∧
          s.closeBlock.1.blockIndex = wrapInt (s.blockIndex + 1) ∧
          s.closeBlock.1.events = s.events ++ [stopEvent s.blockIndex] ∧
          (s.closeBlock.1.Flawless → s.Flawless) ∨
        s.closeBlock.2 ≠ none ∧ s.closeBlock.1.blockStarted = true ∧
          s.closeBlock.1.blockIndex = s.blockIndex ∧ s.closeBlock.1.events = s.events ∧
          ¬ s.closeBlock.1.Flawless) := by
  have emits : Emits (sendContentBlockStop s.blockIndex : Send ε) [stopEvent s.blockIndex] :=
    emits_publish _ _
  have nil : s.publisher.isNone = false := by simpa using streaming
  rcases send_cases emits streaming with
    ⟨s', sent, kept, arrived, clean⟩ | ⟨s', err, sent, kept, arrived, flawed⟩
  · simp only [closeBlock, started, nil, sent, Bool.not_true, Bool.false_eq_true, if_false]
    have next := congrArg (fun index => wrapInt (index + 1)) kept.blockIndex
    exact ⟨kept.streaming, kept.text, Or.inl ⟨trivial, rfl, next, arrived, clean⟩⟩
  · simp only [closeBlock, started, nil, sent, Bool.not_true, Bool.false_eq_true, if_false]
    exact ⟨kept.streaming, kept.text,
      Or.inr ⟨nofun, kept.blockStarted.trans started, kept.blockIndex, arrived, flawed⟩⟩

theorem closeBlock_of_closed (closed : s.blockStarted = false) : s.closeBlock = (s, none) := by
  simp [closeBlock, closed]

theorem writeChunk_nil : s.writeChunk [] = (s, none) := rfl

/-! ## With and without a publisher -/

/-- A call of a method that changes the streamer. -/
inductive Call where
  | writeChunk (text : Bytes)
  | closeBlock
  deriving DecidableEq, Repr

/-- What a call does and returns. -/
def perform (s : TextStreamer ε) : Call → TextStreamer ε × Option (Error ε)
  | .writeChunk text => s.writeChunk text
  | .closeBlock => s.closeBlock

/-- The streamer after a sequence of calls, whatever they returned. -/
def performAll (s : TextStreamer ε) (calls : List Call) : TextStreamer ε :=
  calls.foldl (fun s call => (s.perform call).1) s

/-- The streamers cannot be told apart by `Text`, `BlockStarted` and `BlockIndex`. -/
def Agrees (s s' : TextStreamer ε) : Prop :=
  s.text = s'.text ∧ s.blockStarted = s'.blockStarted ∧ s.blockIndex = s'.blockIndex

/-- Every publish succeeds. -/
def Healthy (s : TextStreamer ε) : Prop :=
  ∀ wire, s.publisher = some wire → ∀ attempt, wire.answers attempt = none

theorem Healthy.flawless (healthy : s.Healthy) : s.Flawless :=
  fun wire publisher attempt _ => healthy wire publisher attempt

theorem Healthy.send (healthy : s.Healthy) (emits : Emits method arriving) :
    (s.send method).1.Healthy := by
  unfold TextStreamer.send
  split
  · exact healthy
  · next wire publisher =>
      intro other same
      cases same
      rw [emits.answers]
      exact healthy wire publisher

theorem Healthy.startBlock (healthy : s.Healthy) : s.startBlock.1.Healthy := by
  have sent : (s.send (sendContentBlockStartText s.blockIndex)).1.Healthy :=
    healthy.send (emits_publish _ _)
  unfold TextStreamer.startBlock
  split
  · exact healthy
  · split <;> next equal => rw [equal] at sent; exact sent

theorem Healthy.sendDelta (healthy : s.Healthy) : (s.sendDelta text).1.Healthy := by
  have sent : (s.send (sendContentBlockDeltaText s.blockIndex text)).1.Healthy :=
    healthy.send (emits_publish _ _)
  unfold TextStreamer.sendDelta
  split <;> next equal => rw [equal] at sent; exact sent

theorem Healthy.writeChunk (healthy : s.Healthy) : (s.writeChunk text).1.Healthy := by
  have started : (s.append text).startBlock.1.Healthy := Healthy.startBlock healthy
  unfold TextStreamer.writeChunk
  split
  · exact healthy
  · split
    · exact healthy
    · split
      · next equal =>
          rw [equal] at started
          exact started
      · next equal =>
          rw [equal] at started
          exact started.sendDelta

theorem Healthy.closeBlock (healthy : s.Healthy) : s.closeBlock.1.Healthy := by
  have sent : (s.send (sendContentBlockStop s.blockIndex)).1.Healthy :=
    healthy.send (emits_publish _ _)
  unfold TextStreamer.closeBlock
  split
  · exact healthy
  · split
    · exact healthy
    · split <;> next equal => rw [equal] at sent; exact sent

theorem Healthy.performAll (healthy : s.Healthy) (calls : List Call) :
    (s.performAll calls).Healthy := by
  induction calls generalizing s with
  | nil => exact healthy
  | cons call calls ih =>
      cases call with
      | writeChunk text => exact ih healthy.writeChunk
      | closeBlock => exact ih healthy.closeBlock

theorem isSome_performAll (streaming : s.publisher.isSome) (calls : List Call) :
    (s.performAll calls).publisher.isSome := by
  induction calls generalizing s with
  | nil => exact streaming
  | cons call calls ih =>
      cases call with
      | writeChunk text =>
          by_cases empty : text = []
          · subst empty
            exact ih streaming
          · exact ih (writeChunk_spec streaming empty).1
      | closeBlock =>
          cases started : s.blockStarted with
          | true => exact ih (closeBlock_spec streaming started).1
          | false =>
              have still : s.closeBlock.1.publisher.isSome := by
                rwa [closeBlock_of_closed started]
              exact ih still

/-- Without a publisher no block is ever open. -/
theorem performAll_of_nil (nil : s.publisher = none) (closed : s.blockStarted = false)
    (calls : List Call) : (s.performAll calls).blockStarted = false := by
  induction calls generalizing s with
  | nil => exact closed
  | cons call calls ih =>
      cases call with
      | writeChunk text =>
          have same : (s.writeChunk text).1.publisher = none ∧
              (s.writeChunk text).1.blockStarted = false := by
            unfold writeChunk
            rw [nil]
            split
            · exact ⟨nil, closed⟩
            · exact ⟨nil, closed⟩
          exact ih same.1 same.2
      | closeBlock =>
          rw [performAll, List.foldl_cons, perform, closeBlock_of_closed closed]
          exact ih nil closed

/-- Empty chunks do not open a block, and there is none to close. -/
theorem performAll_of_empty {calls : List Call} (closed : s.blockStarted = false)
    (empty : ∀ text, .writeChunk text ∈ calls → text = []) : s.performAll calls = s := by
  induction calls with
  | nil => rfl
  | cons call calls ih =>
      have still : (s.perform call).1 = s := by
        cases call with
        | writeChunk text =>
            rw [perform, empty text List.mem_cons_self, writeChunk_nil]
        | closeBlock => rw [perform, closeBlock_of_closed closed]
      rw [performAll, List.foldl_cons, still]
      exact ih fun text member => empty text (List.mem_cons_of_mem _ member)

/-- A streamer without a publisher goes through the states of one whose publishes all succeed
exactly if no text is written. -/
theorem agrees_iff_nothing_written {wire : Wire ε}
    (healthy : ∀ attempt, wire.answers attempt = none) (startIndex : Int) (calls : List Call) :
    (∀ front, front <+: calls →
        ((newTextStreamer (some wire) startIndex).performAll front).Agrees
          ((newTextStreamer none startIndex).performAll front)) ↔
      ∀ text, .writeChunk text ∈ calls → text = [] := by
  constructor
  · intro agrees text member
    by_contra nonempty
    obtain ⟨front, back, rfl⟩ := List.append_of_mem member
    have same := (agrees (front ++ [.writeChunk text])
      ((List.prefix_append_right_inj front).mpr (by simp))).2.1
    rw [performAll, List.foldl_append, ← performAll,
      @performAll_of_nil _ (newTextStreamer none startIndex) rfl rfl] at same
    have working : (newTextStreamer (some wire) startIndex).Healthy := by
      intro other publisher
      cases publisher
      exact healthy
    have flawless :=
      ((working.performAll front).writeChunk : Healthy (writeChunk _ text).1).flawless
    have streaming := @isSome_performAll _ (newTextStreamer (some wire) startIndex) rfl front
    rcases (writeChunk_spec streaming nonempty).2.2.2 with
      ⟨_, _, _, _, flawed⟩ | ⟨_, _, _, flawed⟩ | ⟨_, started, _, _⟩
    · exact flawed flawless
    · exact flawed flawless
    · exact Bool.false_ne_true (same.symm.trans started)
  · intro empty front initial
    have nothing : ∀ text, .writeChunk text ∈ front → text = [] :=
      fun text member => empty text (initial.subset member)
    rw [performAll_of_empty rfl nothing, performAll_of_empty rfl nothing]
    exact ⟨rfl, rfl, rfl⟩

/-- A publisher for which every publish succeeds. -/
def working : Wire Unit := ⟨fun _ => none, 0, []⟩

theorem agrees_on_empty_chunks :
    ((newTextStreamer (some working) 3).performAll [.closeBlock, .writeChunk []]).Agrees
      ((newTextStreamer none 3).performAll [.closeBlock, .writeChunk []]) :=
  (agrees_iff_nothing_written (fun _ => rfl) 3 [.closeBlock, .writeChunk []]).mpr
    (by simp) _ (List.prefix_refl _)

/-- After one chunk a block is open with a publisher and none is without. -/
theorem not_agrees_after_chunk :
    ¬ ((newTextStreamer (some working) 0).performAll [.writeChunk [0x61]]).Agrees
      ((newTextStreamer none 0).performAll [.writeChunk [0x61]]) := by
  rintro ⟨_, started, _⟩
  exact Bool.false_ne_true started.symm

end TextStreamer

end CommonGo.Sse
