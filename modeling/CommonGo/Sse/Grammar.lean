import CommonGo.Sse.TextStreamer

/-!
# The grammar of a stream

A stream opens with `message_start` and `ping`, goes on with content blocks that are numbered
without a gap, and ends with `message_delta` and `message_stop`.  Whatever is published in a run of
a streamer is the beginning of such a stream, wherever a publish fails.
-/

namespace CommonGo.Sse

open Go

variable {ε : Type}

/-! ## Words -/

/-- What the grammar sees of an event. -/
inductive Shape where
  | messageStart
  | ping
  | blockStart (index : Int)
  | blockDelta (index : Int)
  | blockStop (index : Int)
  | messageDelta
  | messageStop
  deriving DecidableEq, Repr

/-- What the grammar sees of an event. -/
def Event.shape (event : Event) : Shape :=
  match event.event with
  | .messageStart => .messageStart
  | .ping => .ping
  | .contentBlockStart => .blockStart event.data.index
  | .contentBlockDelta => .blockDelta event.data.index
  | .contentBlockStop => .blockStop event.data.index
  | .messageDelta => .messageDelta
  | .messageStop => .messageStop

/-- A content block with a number of deltas. -/
def block (index : Int) (deltas : Nat) : List Shape :=
  .blockStart index :: List.replicate deltas (.blockDelta index) ++ [.blockStop index]

/-- Content blocks from an index on, with their numbers of deltas. -/
def blocks : Int → List Nat → List Shape
  | _, [] => []
  | index, deltas :: counts => block index deltas ++ blocks (index + 1) counts

/-- The complete words of the grammar. -/
def Word (startIndex : Int) (word : List Shape) : Prop :=
  ∃ counts, word =
    [.messageStart, .ping] ++ blocks startIndex counts ++ [.messageDelta, .messageStop]

/-- The beginnings of words. -/
def Begins (startIndex : Int) (shapes : List Shape) : Prop :=
  ∃ word, Word startIndex word ∧ shapes <+: word

/-- The beginning of a block that is open; `none` if no block is. -/
def opened (index : Int) : Option Nat → List Shape
  | none => []
  | some deltas => .blockStart index :: List.replicate deltas (.blockDelta index)

theorem blocks_snoc (index : Int) (counts : List Nat) (deltas : Nat) :
    blocks index (counts ++ [deltas]) =
      blocks index counts ++ block (index + counts.length) deltas := by
  induction counts generalizing index with
  | nil => simp [blocks]
  | cons first counts ih =>
      have next : index + 1 + (counts.length : Int) = index + ((first :: counts).length : Nat) := by
        rw [List.length_cons]
        omega
      rw [List.cons_append, blocks, ih, next, blocks, List.append_assoc]

theorem opened_delta (index : Int) (deltas : Nat) :
    opened index (some deltas) ++ [.blockDelta index] = opened index (some (deltas + 1)) := by
  rw [opened, List.cons_append, ← List.replicate_succ', opened]

theorem opened_stop (index : Int) (deltas : Nat) :
    opened index (some deltas) ++ [.blockStop index] = block index deltas := rfl

/-- What begins a sequence of blocks begins a word. -/
theorem begins_of_blocks {startIndex : Int} {shapes : List Shape} (counts : List Nat)
    (initial : shapes <+: [.messageStart, .ping] ++ blocks startIndex counts) :
    Begins startIndex shapes :=
  ⟨_, ⟨counts, rfl⟩, initial.trans (List.prefix_append _ _)⟩

/-! ## Runs -/

/-- What is done between the beginning and the end of a stream. -/
inductive Item where
  | text (call : TextStreamer.Call)
  | toolUse (toolUseID name inputJSON : Bytes)
  | toolResult (toolUseID resultText : Bytes)
  deriving DecidableEq, Repr

/-- A run: what opens the stream, what is done in it and what closes it. -/
structure Script where
  /-- The id of the message. -/
  msgID : Bytes
  /-- The id of the conversation. -/
  conversationID : Bytes
  /-- The model that answers. -/
  model : Bytes
  /-- The index of the first block. -/
  startIndex : Int
  /-- What is done in the stream. -/
  items : List Item
  /-- The number of tokens that the end reports. -/
  outputTokens : Int

namespace TextStreamer

/-- `BlockIndex` is incremented. -/
def nextIndex (s : TextStreamer ε) : TextStreamer ε :=
  { s with blockIndex := wrapInt (s.blockIndex + 1) }

/-- A tool block is sent while no text block is open, and takes the next index. -/
def tool (s : TextStreamer ε) (method : Send ε) : TextStreamer ε × Bool :=
  if s.blockStarted then (s, true)
  else
    match s.send method with
    | (s, some _) => (s, false)
    | (s, none) => (s.nextIndex, true)

/-- One item, and whether the run goes on. -/
def performItem (s : TextStreamer ε) : Item → TextStreamer ε × Bool
  | .text call => ((s.perform call).1, true)
  | .toolUse toolUseID name inputJSON =>
      s.tool (sendToolUseBlock s.blockIndex toolUseID name inputJSON)
  | .toolResult toolUseID resultText =>
      s.tool (sendToolResultBlock s.blockIndex toolUseID resultText)

/-- The final `CloseBlock` and the epilogue, and whether they succeed. -/
def finish (s : TextStreamer ε) (outputTokens : Int) : TextStreamer ε × Bool :=
  match s.closeBlock with
  | (s, some _) => (s, false)
  | (s, none) =>
      match s.send (sendStreamEpilogue outputTokens) with
      | (s, some _) => (s, false)
      | (s, none) => (s, true)

/-- The run after the preamble, and whether it completes. -/
def runItems (s : TextStreamer ε) (outputTokens : Int) : List Item → TextStreamer ε × Bool
  | [] => s.finish outputTokens
  | item :: items =>
      match s.performItem item with
      | (s, false) => (s, false)
      | (s, true) => s.runItems outputTokens items

end TextStreamer

namespace Script

/-- What opens the stream. -/
def preamble (script : Script) : Send ε :=
  sendStreamPreamble script.msgID script.conversationID script.model

/-- The streamer of a run, with a broker that gives the `answers`. -/
def streamer (script : Script) (answers : Nat → Option ε) : TextStreamer ε :=
  newTextStreamer (some ⟨answers, 0, []⟩) script.startIndex

/-- The whole run, and whether it completes. -/
def run (script : Script) (answers : Nat → Option ε) : TextStreamer ε × Bool :=
  match (script.streamer answers).send script.preamble with
  | (s, some _) => (s, false)
  | (s, none) => s.runItems script.outputTokens script.items

end Script

/-! ## The state tracks what was published -/

/-- The indices of so many blocks, and the one behind them, are numbers of 64 bits. -/
def Room (startIndex : Int) (count : Nat) : Prop :=
  IsInt64 startIndex ∧ IsInt64 (startIndex + count)

/-- The index does not wrap around while there is room. -/
theorem Room.next {startIndex : Int} {count n : Nat} (room : Room startIndex count)
    (below : n < count) : wrapInt (startIndex + n + 1) = startIndex + (n + 1 : Nat) := by
  obtain ⟨⟨low, _⟩, _, high⟩ := room
  rw [wrapInt_of_isInt64 ⟨by omega, by omega⟩]
  omega

theorem Room.mono {startIndex : Int} {count fewer : Nat} (room : Room startIndex count)
    (le : fewer ≤ count) : Room startIndex fewer := by
  obtain ⟨⟨low, high⟩, low', high'⟩ := room
  exact ⟨⟨low, high⟩, by omega, by omega⟩

namespace TextStreamer

variable {s : TextStreamer ε} {startIndex : Int} {used : Nat} {method : Send ε}

/-- What the grammar sees of the events that arrived. -/
def shapes (s : TextStreamer ε) : List Shape := s.events.map Event.shape

/-- The flag and the index of the streamer say where the stream stands.  No more blocks have been
started than items were `used`. -/
structure Tracks (startIndex : Int) (used : Nat) (s : TextStreamer ε) : Prop where
  /-- There is a publisher. -/
  streaming : s.publisher.isSome
  /-- The events so far are those of closed blocks and the one that is open. -/
  stands : ∃ counts current, s.blockStarted = current.isSome ∧
    s.blockIndex = startIndex + (counts.length : Int) ∧
    counts.length + current.toList.length ≤ used ∧
    s.shapes = [.messageStart, .ping] ++ blocks startIndex counts ++ opened s.blockIndex current

/-- While no text block is open the stream ends with a complete block. -/
theorem Tracks.closed (tracks : Tracks startIndex used s) (closed : s.blockStarted = false) :
    ∃ counts, s.blockIndex = startIndex + (counts.length : Int) ∧ counts.length ≤ used ∧
      s.shapes = [.messageStart, .ping] ++ blocks startIndex counts := by
  obtain ⟨counts, current, flag, index, few, shapes⟩ := tracks.stands
  rw [closed] at flag
  cases current with
  | none => exact ⟨counts, index, few, by rw [shapes, opened, List.append_nil]⟩
  | some deltas => cases flag

theorem Tracks.mono {more : Nat} (tracks : Tracks startIndex used s) (le : used ≤ more) :
    Tracks startIndex more s := by
  obtain ⟨counts, current, flag, index, few, shapes⟩ := tracks.stands
  exact ⟨tracks.streaming, counts, current, flag, index, few.trans le, shapes⟩

theorem Tracks.begins (tracks : Tracks startIndex used s) : Begins startIndex s.shapes := by
  obtain ⟨counts, current, _, index, _, shapes⟩ := tracks.stands
  cases current with
  | none =>
      rw [shapes, opened, List.append_nil]
      exact begins_of_blocks counts (List.prefix_refl _)
  | some deltas =>
      refine begins_of_blocks (counts ++ [deltas]) ?_
      rw [shapes, blocks_snoc, ← index, ← opened_stop, List.append_assoc]
      exact (List.prefix_append_right_inj _).mpr
        ((List.prefix_append_right_inj _).mpr (List.prefix_append _ _))

/-- A chunk may open a block. -/
theorem Tracks.writeChunk (tracks : Tracks startIndex used s) (text : Bytes) :
    Tracks startIndex (used + 1) (s.writeChunk text).1 := by
  by_cases empty : text = []
  · subst empty
    exact tracks.mono (Nat.le_succ used)
  obtain ⟨counts, current, flag, index, few, shapes⟩ := tracks.stands
  obtain ⟨streaming, _, same, outcome⟩ := writeChunk_spec tracks.streaming empty
  -- The block that is open after a start that arrived.
  have opens : ∃ deltas, (s.events ++ s.opening).map Event.shape =
      [.messageStart, .ping] ++ blocks startIndex counts ++
        opened s.blockIndex (some deltas) := by
    rw [List.map_append, ← TextStreamer.shapes, shapes, opening]
    cases current with
    | none => exact ⟨0, by rw [flag, opened, List.append_nil]; rfl⟩
    | some deltas => exact ⟨deltas, by rw [flag]; exact List.append_nil _⟩
  have open_few : counts.length + 1 ≤ used + 1 := by omega
  refine ⟨streaming, ?_⟩
  rw [same]
  rcases outcome with
    ⟨_, before, closed, events, _⟩ | ⟨_, started, events, _⟩ | ⟨_, started, events, _⟩
  · refine ⟨counts, current, by rw [closed, ← flag, before], index, few.trans (by simp), ?_⟩
    rw [TextStreamer.shapes, events, ← TextStreamer.shapes, shapes]
  · obtain ⟨deltas, shapes'⟩ := opens
    exact ⟨counts, some deltas, started, index, open_few,
      by rw [TextStreamer.shapes, events, shapes']⟩
  · obtain ⟨deltas, shapes'⟩ := opens
    refine ⟨counts, some (deltas + 1), started, index, open_few, ?_⟩
    rw [TextStreamer.shapes, events, List.map_append, shapes', ← opened_delta,
      List.append_assoc, List.append_assoc, List.append_assoc]
    rfl

theorem Tracks.closeBlock (tracks : Tracks startIndex used s) (room : Room startIndex used) :
    Tracks startIndex used s.closeBlock.1 := by
  cases started : s.blockStarted with
  | false => rwa [closeBlock_of_closed started]
  | true =>
      obtain ⟨counts, current, flag, index, few, shapes⟩ := tracks.stands
      obtain ⟨streaming, _, outcome⟩ := closeBlock_spec tracks.streaming started
      refine ⟨streaming, ?_⟩
      rcases outcome with ⟨_, closed, next, events, _⟩ | ⟨_, still, same, events, _⟩
      · obtain ⟨deltas, rfl⟩ := Option.isSome_iff_exists.mp (flag.symm.trans started)
        have below : counts.length < used := few
        refine ⟨counts ++ [deltas], none, closed, ?_, by simpa using below, ?_⟩
        · rw [next, index, room.next below, List.length_append, List.length_singleton]
        · rw [TextStreamer.shapes, events, List.map_append, ← TextStreamer.shapes, shapes,
            blocks_snoc, ← index, ← opened_stop]
          simp only [opened, List.append_assoc, List.append_nil]
          rfl
      · refine ⟨counts, current, by rw [still, ← flag, started], by rw [same, index], few, ?_⟩
        rw [TextStreamer.shapes, events, ← TextStreamer.shapes, shapes, same]

theorem Tracks.perform (tracks : Tracks startIndex used s) (room : Room startIndex used)
    (call : Call) : Tracks startIndex (used + 1) (s.perform call).1 := by
  cases call with
  | writeChunk text => exact tracks.writeChunk text
  | closeBlock => exact (tracks.closeBlock room).mono (Nat.le_succ used)

/-- A tool block that is sent completely takes the next index; one that is not begins a block. -/
theorem Tracks.tool {arriving : List Event} (tracks : Tracks startIndex used s)
    (room : Room startIndex (used + 1)) (emits : Emits method arriving)
    (whole : arriving.map Event.shape = block s.blockIndex 1) :
    Begins startIndex (s.tool method).1.shapes ∧
      ((s.tool method).2 = true → Tracks startIndex (used + 1) (s.tool method).1) := by
  cases started : s.blockStarted with
  | true =>
      simpa [TextStreamer.tool, started] using ⟨tracks.begins, tracks.mono (Nat.le_succ used)⟩
  | false =>
      obtain ⟨counts, index, few, shapes⟩ := tracks.closed started
      obtain ⟨part, initial, arrived, all⟩ := send_sent emits tracks.streaming
      have longer : (s.send method).1.shapes =
          [.messageStart, .ping] ++ blocks startIndex counts ++ part.map Event.shape := by
        rw [TextStreamer.shapes, arrived, List.map_append, ← TextStreamer.shapes, shapes]
      have begins : Begins startIndex (s.send method).1.shapes := by
        refine begins_of_blocks (counts ++ [1]) ?_
        rw [longer, blocks_snoc, ← index, ← whole, List.append_assoc]
        exact (List.prefix_append_right_inj _).mpr
          ((List.prefix_append_right_inj _).mpr (initial.map Event.shape))
      have kept := @send_isSome _ s method
      have same := @send_blockIndex _ s method
      have flag := @send_blockStarted _ s method
      rw [TextStreamer.tool, if_neg (by simp [started])]
      split
      · next s' err failed =>
          rw [failed] at begins
          exact ⟨begins, nofun⟩
      · next s' sent =>
          rw [sent] at begins longer all kept same flag
          rw [all.mp rfl, whole] at longer
          refine ⟨begins, fun _ => ⟨kept.trans tracks.streaming, ?_⟩⟩
          refine ⟨counts ++ [1], none, flag.trans started, ?_, by simpa using few, ?_⟩
          · have next : s'.nextIndex.blockIndex = wrapInt (s.blockIndex + 1) :=
              congrArg (fun index => wrapInt (index + 1)) same
            refine next.trans ?_
            rw [index, room.next (Nat.lt_succ_of_le few), List.length_append,
              List.length_singleton]
          · rw [blocks_snoc, ← index, ← List.append_assoc, opened, List.append_nil]
            exact longer

/-- The end of a stream completes a word, or it begins one. -/
theorem Tracks.finish (tracks : Tracks startIndex used s) (room : Room startIndex used)
    (outputTokens : Int) :
    Begins startIndex (s.finish outputTokens).1.shapes ∧
      ((s.finish outputTokens).2 = true → Word startIndex (s.finish outputTokens).1.shapes) := by
  have after := tracks.closeBlock room
  have closed : s.closeBlock.2 = none → s.closeBlock.1.blockStarted = false := by
    intro succeeded
    cases started : s.blockStarted with
    | false => rwa [closeBlock_of_closed started]
    | true =>
        rcases (closeBlock_spec tracks.streaming started).2.2 with
          ⟨_, closed, _⟩ | ⟨failed, _⟩
        · exact closed
        · exact absurd succeeded failed
  unfold TextStreamer.finish
  split
  · next s' err failed =>
      rw [failed] at after
      exact ⟨after.begins, nofun⟩
  · next s' went =>
      rw [went] at after closed
      obtain ⟨counts, _, _, shapes⟩ := after.closed (closed rfl)
      have emits : Emits (sendStreamEpilogue outputTokens : Send ε) _ :=
        (emits_publish _ _).andThen (emits_publish _ _)
      obtain ⟨part, initial, arrived, all⟩ := send_sent emits after.streaming
      have longer : (s'.send (sendStreamEpilogue outputTokens)).1.shapes =
          [.messageStart, .ping] ++ blocks startIndex counts ++ part.map Event.shape := by
        rw [TextStreamer.shapes, arrived, List.map_append, ← TextStreamer.shapes, shapes]
      have begins : Begins startIndex (s'.send (sendStreamEpilogue outputTokens)).1.shapes := by
        refine ⟨_, ⟨counts, rfl⟩, ?_⟩
        rw [longer]
        exact (List.prefix_append_right_inj _).mpr (initial.map Event.shape)
      split
      · next failed =>
          rw [failed] at begins
          exact ⟨begins, nofun⟩
      · next sent =>
          rw [sent] at begins longer all
          refine ⟨begins, fun _ => ⟨counts, ?_⟩⟩
          rw [longer, all.mp rfl]
          rfl

/-- A run publishes the beginning of a word, and a whole word if it completes. -/
theorem Tracks.runItems (tracks : Tracks startIndex used s) (outputTokens : Int)
    (items : List Item) (room : Room startIndex (used + items.length)) :
    Begins startIndex (s.runItems outputTokens items).1.shapes ∧
      ((s.runItems outputTokens items).2 = true →
        Word startIndex (s.runItems outputTokens items).1.shapes) := by
  induction items generalizing s used with
  | nil => exact tracks.finish room outputTokens
  | cons item items ih =>
      have later : Room startIndex (used + 1 + items.length) := by
        rwa [List.length_cons, Nat.add_comm items.length, ← Nat.add_assoc] at room
      have one : Room startIndex (used + 1) := later.mono (Nat.le_add_right _ _)
      have step : Begins startIndex (s.performItem item).1.shapes ∧
          ((s.performItem item).2 = true →
            Tracks startIndex (used + 1) (s.performItem item).1) := by
        cases item with
        | text call =>
            have performed := tracks.perform (one.mono (Nat.le_succ used)) call
            exact ⟨performed.begins, fun _ => performed⟩
        | toolUse toolUseID name inputJSON =>
            exact tracks.tool one ((emits_publish _ _).andThen
              ((emits_publish _ _).andThen (emits_publish _ _))) rfl
        | toolResult toolUseID resultText =>
            exact tracks.tool one ((emits_publish _ _).andThen
              ((emits_publish _ _).andThen (emits_publish _ _))) rfl
      rw [TextStreamer.runItems]
      split
      · next stopped =>
          rw [stopped] at step
          exact ⟨step.1, nofun⟩
      · next went =>
          rw [went] at step
          exact ih (step.2 rfl) later

end TextStreamer

/-! ## The text that arrives -/

/-- The chunk that an item writes, if it is a call of `WriteChunk`. -/
def Item.chunk : Item → Option Bytes
  | .text (.writeChunk written) => some written
  | _ => none

/-- The chunks that are written in a run. -/
def Script.chunks (script : Script) : List Bytes := script.items.filterMap Item.chunk

namespace TextStreamer

variable {s : TextStreamer ε} {startIndex : Int} {method : Send ε}

/-- The text of the deltas that arrived. -/
def arrived (s : TextStreamer ε) : Bytes := s.events.flatMap Event.text

theorem flatMap_text_opening : s.opening.flatMap Event.text = [] := by
  unfold opening
  split <;> rfl

/-- A streamer comes to another by writing chunks; without a failure they arrive. -/
structure Carries (s : TextStreamer ε) (chunks : List Bytes) (s' : TextStreamer ε) : Prop where
  /-- There is a publisher. -/
  streaming : s'.publisher.isSome
  /-- The text that was collected has grown by the chunks. -/
  text : s'.text = s.text ++ chunks.flatten
  /-- Without a failure, what arrived has grown by them too. -/
  arrived : s'.Flawless → s.Flawless ∧ s'.arrived = s.arrived ++ chunks.flatMap jsonString

theorem Carries.refl (streaming : s.publisher.isSome) : s.Carries [] s where
  streaming := streaming
  text := (List.append_nil _).symm
  arrived flawless := ⟨flawless, (List.append_nil _).symm⟩

theorem Carries.trans {s' s'' : TextStreamer ε} {front back : List Bytes}
    (first : s.Carries front s') (second : s'.Carries back s'') :
    s.Carries (front ++ back) s'' where
  streaming := second.streaming
  text := by rw [second.text, first.text, List.flatten_append, List.append_assoc]
  arrived flawless := by
    obtain ⟨middle, later⟩ := second.arrived flawless
    obtain ⟨before, earlier⟩ := first.arrived middle
    exact ⟨before, by rw [later, earlier, List.flatMap_append, List.append_assoc]⟩

theorem carries_writeChunk (streaming : s.publisher.isSome) (text : Bytes) :
    s.Carries [text] (s.writeChunk text).1 := by
  by_cases empty : text = []
  · subst empty
    exact ⟨streaming, (List.append_nil _).symm,
      fun flawless => ⟨flawless, by simp [writeChunk_nil, jsonString]⟩⟩
  obtain ⟨kept, written, _, outcome⟩ := writeChunk_spec streaming empty
  refine ⟨kept, by simpa using written, fun flawless => ?_⟩
  rcases outcome with ⟨_, _, _, _, flawed⟩ | ⟨_, _, _, flawed⟩ | ⟨_, _, events, before⟩
  · exact absurd flawless flawed
  · exact absurd flawless flawed
  · refine ⟨before flawless, ?_⟩
    rw [arrived, events, List.flatMap_append, List.flatMap_append, flatMap_text_opening,
      List.append_nil]
    rfl

/-- Without a failure `CloseBlock` returns no error. -/
theorem carries_closeBlock (streaming : s.publisher.isSome) :
    s.Carries [] s.closeBlock.1 ∧ (s.closeBlock.1.Flawless → s.closeBlock.2 = none) := by
  cases started : s.blockStarted with
  | false =>
      rw [closeBlock_of_closed started]
      exact ⟨Carries.refl streaming, fun _ => rfl⟩
  | true =>
      obtain ⟨kept, text, outcome⟩ := closeBlock_spec streaming started
      rcases outcome with ⟨succeeded, _, _, events, before⟩ | ⟨_, _, _, _, flawed⟩
      · refine ⟨⟨kept, by simpa using text, fun flawless => ⟨before flawless, ?_⟩⟩,
          fun _ => succeeded⟩
        rw [arrived, events, List.flatMap_append]
        rfl
      · exact ⟨⟨kept, by simpa using text, fun flawless => absurd flawless flawed⟩,
          fun flawless => absurd flawless flawed⟩

/-- A method that publishes no text delta. -/
theorem carries_send {arriving : List Event} (emits : Emits method arriving)
    (silent : arriving.flatMap Event.text = []) (streaming : s.publisher.isSome) :
    s.Carries [] (s.send method).1 := by
  refine ⟨by rwa [send_isSome], by simp, fun flawless => ?_⟩
  obtain ⟨before, succeeded⟩ := send_flawless emits flawless
  obtain ⟨part, _, arrived, all⟩ := send_sent emits streaming
  refine ⟨before, ?_⟩
  rw [TextStreamer.arrived, arrived, all.mp succeeded, List.flatMap_append, silent]
  rfl

theorem carries_tool {arriving : List Event} (emits : Emits method arriving)
    (silent : arriving.flatMap Event.text = []) (streaming : s.publisher.isSome) :
    s.Carries [] (s.tool method).1 ∧ ((s.tool method).1.Flawless → (s.tool method).2 = true) := by
  have carries := carries_send emits silent streaming
  have clean := @send_flawless _ s _ _ emits
  unfold TextStreamer.tool
  split
  · exact ⟨Carries.refl streaming, fun _ => rfl⟩
  · split
    · next failed =>
        rw [failed] at carries clean
        exact ⟨carries, fun flawless => nomatch (clean flawless).2⟩
    · next sent =>
        rw [sent] at carries
        exact ⟨⟨carries.streaming, carries.text, carries.arrived⟩, fun _ => rfl⟩

theorem carries_finish (streaming : s.publisher.isSome) (outputTokens : Int) :
    s.Carries [] (s.finish outputTokens).1 ∧
      ((s.finish outputTokens).1.Flawless → (s.finish outputTokens).2 = true) := by
  obtain ⟨first, clean⟩ := carries_closeBlock streaming
  unfold TextStreamer.finish
  split
  · next failed =>
      rw [failed] at first clean
      exact ⟨first, fun flawless => nomatch clean flawless⟩
  · next s' went =>
      rw [went] at first
      have emits : Emits (sendStreamEpilogue outputTokens : Send ε) _ :=
        (emits_publish _ _).andThen (emits_publish _ _)
      have second := first.trans (carries_send emits rfl first.streaming)
      have clean' := @send_flawless _ s' _ _ emits
      split
      · next failed =>
          rw [failed] at second clean'
          exact ⟨second, fun flawless => nomatch (clean' flawless).2⟩
      · next sent =>
          rw [sent] at second
          exact ⟨second, fun _ => rfl⟩

theorem carries_performItem (streaming : s.publisher.isSome) (item : Item) :
    s.Carries item.chunk.toList (s.performItem item).1 ∧
      ((s.performItem item).1.Flawless → (s.performItem item).2 = true) := by
  cases item with
  | text call =>
      cases call with
      | writeChunk text => exact ⟨carries_writeChunk streaming text, fun _ => rfl⟩
      | closeBlock => exact ⟨(carries_closeBlock streaming).1, fun _ => rfl⟩
  | toolUse toolUseID name inputJSON =>
      exact carries_tool ((emits_publish _ _).andThen
        ((emits_publish _ _).andThen (emits_publish _ _))) rfl streaming
  | toolResult toolUseID resultText =>
      exact carries_tool ((emits_publish _ _).andThen
        ((emits_publish _ _).andThen (emits_publish _ _))) rfl streaming

/-- A run in which nothing fails completes, and all its chunks arrive. -/
theorem carries_runItems (streaming : s.publisher.isSome) (outputTokens : Int)
    (items : List Item) (flawless : (s.runItems outputTokens items).1.Flawless) :
    (s.runItems outputTokens items).2 = true ∧
      s.Carries (items.filterMap Item.chunk) (s.runItems outputTokens items).1 := by
  induction items generalizing s with
  | nil =>
      obtain ⟨carries, completes⟩ := carries_finish streaming outputTokens
      exact ⟨completes flawless, carries⟩
  | cons item items ih =>
      obtain ⟨first, goes⟩ := carries_performItem streaming item
      rw [TextStreamer.runItems] at flawless ⊢
      split at flawless
      · next stopped =>
          rw [stopped] at goes
          cases goes flawless
      · next s' went =>
          rw [went] at first
          obtain ⟨completes, later⟩ := ih first.streaming flawless
          refine ⟨completes, ?_⟩
          have whole := first.trans later
          cases chunk : item.chunk with
          | none => simpa [chunk, List.filterMap_cons] using whole
          | some written => simpa [chunk, List.filterMap_cons] using whole

end TextStreamer

/-- As long as the first index and the number of items do not pass the largest `int`, the events of
every run are the beginning of a word, and a whole word if the run completes.  A run in which
nothing fails completes, and the text arrives as it was written exactly if every chunk is valid
UTF-8. -/
theorem Script.run_grammatical (script : Script) (answers : Nat → Option ε)
    (start : IsInt64 script.startIndex)
    (room : IsInt64 (script.startIndex + script.items.length)) :
    (∃ word, Word script.startIndex word ∧
        (script.run answers).1.events.map Event.shape <+: word) ∧
      ((script.run answers).2 = true →
        Word script.startIndex ((script.run answers).1.events.map Event.shape)) ∧
      ((script.run answers).1.Flawless → (script.run answers).2 = true ∧
        ((script.run answers).1.events.flatMap Event.text = (script.run answers).1.text ↔
          ∀ chunk ∈ script.chunks, validString chunk = true)) := by
  have emits : Emits (script.preamble : Send ε) _ :=
    (emits_publish _ _).andThen (emits_publish _ _)
  have streaming : (script.streamer answers).publisher.isSome := rfl
  obtain ⟨part, initial, arrived, all⟩ := TextStreamer.send_sent emits streaming
  have carries := TextStreamer.carries_send emits rfl streaming
  have clean := @TextStreamer.send_flawless _ (script.streamer answers) _ _ emits
  have flag := @TextStreamer.send_blockStarted _ (script.streamer answers) script.preamble
  have index := @TextStreamer.send_blockIndex _ (script.streamer answers) script.preamble
  unfold Script.run
  split
  · next failed =>
      rw [failed] at arrived clean
      refine ⟨?_, nofun, fun flawless => nomatch (clean flawless).2⟩
      rw [arrived]
      exact begins_of_blocks [] (initial.map Event.shape)
  · next s sent =>
      rw [sent] at arrived all carries flag index
      rw [all.mp rfl] at arrived
      have tracks : TextStreamer.Tracks script.startIndex 0 s := by
        refine ⟨carries.streaming, [], none, flag, index.trans (Int.add_zero _).symm,
          Nat.le_refl 0, ?_⟩
        rw [TextStreamer.shapes, arrived]
        rfl
      have enough : Room script.startIndex (0 + script.items.length) := by
        rw [Nat.zero_add]
        exact ⟨start, room⟩
      obtain ⟨begins, whole⟩ := tracks.runItems script.outputTokens script.items enough
      refine ⟨begins, whole, fun flawless => ?_⟩
      obtain ⟨completes, later⟩ :=
        TextStreamer.carries_runItems carries.streaming script.outputTokens script.items flawless
      have total := carries.trans later
      refine ⟨completes, ?_⟩
      rw [total.text, ← TextStreamer.arrived, (total.arrived flawless).2]
      exact flatMap_jsonString_eq_iff

/-- A chunk of text and a tool block, from an index on. -/
def shortScript (startIndex : Int) : Script :=
  ⟨[], [], [], startIndex, [.text (.writeChunk [0x61]), .text .closeBlock, .toolUse [] [] []], 0⟩

/-- The largest index that leaves room for three items. -/
theorem run_grammatical_near_largest :
    Word (2 ^ 63 - 4)
        (((shortScript (2 ^ 63 - 4)).run fun _ => (none : Option Unit)).1.events.map Event.shape) ∧
      ((shortScript (2 ^ 63 - 4)).run fun _ => (none : Option Unit)).1.events.flatMap Event.text =
        ((shortScript (2 ^ 63 - 4)).run fun _ => (none : Option Unit)).1.text := by
  obtain ⟨_, whole, flawless⟩ :=
    (shortScript (2 ^ 63 - 4)).run_grammatical (fun _ => (none : Option Unit))
      ⟨by decide, by decide⟩ ⟨by decide, by decide⟩
  refine ⟨whole (by decide +kernel), (flawless ?_).2.mpr (by decide +kernel)⟩
  rintro wire ⟨⟩ attempt _
  rfl

-- Behind the largest index comes the smallest.
example : ((shortScript (2 ^ 63 - 1)).run fun _ => (none : Option Unit)).1.blockIndex =
    -2 ^ 63 + 1 := by
  decide +kernel

/-- A run that writes one byte that starts no rune. -/
def invalidScript : Script := ⟨[], [], [], 0, [.text (.writeChunk [0xFF])], 0⟩

/-- Every publish succeeds, and what arrives is the replacement rune. -/
theorem invalid_chunk_replaced :
    (invalidScript.run fun _ => (none : Option Unit)).2 = true ∧
      (invalidScript.run fun _ => (none : Option Unit)).1.events.flatMap Event.text ≠
        (invalidScript.run fun _ => (none : Option Unit)).1.text := by
  decide +kernel

end CommonGo.Sse
