import CommonGo.Sse.Grammar

/-!
# Writing a chunk again

A caller that gets an error from `WriteChunk` may write the chunk again.  Nothing of it has arrived
then, and in the end every chunk arrives once.  The text that the streamer collects is another
matter: it has the chunk once for every attempt.
-/

namespace CommonGo.Sse

open Go

variable {ε : Type}

/-! ## Success keeps a streamer flawless -/

/-- A method that returns no error has not failed to publish. -/
def Steady (method : Send ε) : Prop :=
  ∀ wire, (method wire).2 = none → wire.Flawless → (method wire).1.Flawless

theorem steady_publish (eventType : EventType) (data : Data) :
    Steady (publish eventType data : Send ε) := by
  intro wire
  unfold publish
  split
  · nofun
  · next succeeded =>
      intro _ flawless attempt earlier
      rcases Nat.lt_succ_iff_lt_or_eq.mp earlier with before | rfl
      · exact flawless attempt before
      · exact succeeded

namespace TextStreamer

variable {s s' s'' : TextStreamer ε} {text : Bytes} {front back : List Bytes}

theorem flawless_send {method : Send ε} (steady : Steady method)
    (succeeded : (s.send method).2 = none) (flawless : s.Flawless) :
    (s.send method).1.Flawless := by
  unfold send at succeeded ⊢
  split
  · exact flawless
  · next wire publisher =>
      rw [publisher] at succeeded
      rintro other ⟨⟩
      exact steady wire succeeded (flawless wire publisher)

theorem flawless_startBlock (succeeded : s.startBlock.2 = none) (flawless : s.Flawless) :
    s.startBlock.1.Flawless := by
  have sent := @flawless_send _ s (sendContentBlockStartText s.blockIndex) (steady_publish _ _)
  unfold startBlock at succeeded ⊢
  split
  · exact flawless
  · next closed =>
      rw [if_neg closed] at succeeded
      split
      · next failed =>
          rw [failed] at succeeded
          cases succeeded
      · next went =>
          rw [went] at sent
          exact sent rfl flawless

theorem flawless_sendDelta (succeeded : (s.sendDelta text).2 = none) (flawless : s.Flawless) :
    (s.sendDelta text).1.Flawless := by
  have sent := @flawless_send _ s (sendContentBlockDeltaText s.blockIndex text) (steady_publish _ _)
  unfold sendDelta at succeeded ⊢
  split
  · next failed =>
      rw [failed] at succeeded
      cases succeeded
  · next went =>
      rw [went] at sent
      exact sent rfl flawless

theorem flawless_writeChunk (succeeded : (s.writeChunk text).2 = none) (flawless : s.Flawless) :
    (s.writeChunk text).1.Flawless := by
  have started := @flawless_startBlock _ (s.append text)
  unfold writeChunk at succeeded ⊢
  split
  · exact flawless
  · next nonempty =>
      rw [if_neg nonempty] at succeeded
      split
      · exact flawless
      · next streaming =>
          rw [if_neg streaming] at succeeded
          split
          · next failed =>
              rw [failed] at succeeded
              cases succeeded
          · next went =>
              rw [went] at started succeeded
              exact flawless_sendDelta succeeded (started rfl flawless)

/-! ## Runs with repetitions -/

/-- A caller writes a chunk, again and again while that returns an error. -/
inductive Retried (text : Bytes) : TextStreamer ε → TextStreamer ε → Prop
  | done {s : TextStreamer ε} : (s.writeChunk text).2 = none → Retried text s (s.writeChunk text).1
  | again {s s' : TextStreamer ε} : (s.writeChunk text).2 ≠ none →
      Retried text (s.writeChunk text).1 s' → Retried text s s'

/-- A caller writes chunks one after another in this way. -/
inductive RetriedAll : List Bytes → TextStreamer ε → TextStreamer ε → Prop
  | nil {s : TextStreamer ε} : RetriedAll [] s s
  | cons {chunk : Bytes} {chunks : List Bytes} {s s' s'' : TextStreamer ε} :
      Retried chunk s s' → RetriedAll chunks s' s'' → RetriedAll (chunk :: chunks) s s''

/-- Chunks have arrived once, and the text that was collected has them at least once, and exactly
once if and only if nothing failed. -/
structure Delivers (s : TextStreamer ε) (chunks : List Bytes) (s' : TextStreamer ε) : Prop where
  /-- There is a publisher. -/
  streaming : s'.publisher.isSome
  /-- The chunks have arrived once. -/
  arrived : s'.arrived = s.arrived ++ chunks.flatMap jsonString
  /-- The text that was collected has grown by at least the chunks. -/
  longer : (s.text ++ chunks.flatten).length ≤ s'.text.length
  /-- Without a failure, it has grown by the chunks. -/
  clean : s'.Flawless → s.Flawless ∧ s'.text = s.text ++ chunks.flatten
  /-- With one, it has grown by more. -/
  repeated : s.Flawless → ¬ s'.Flawless → (s.text ++ chunks.flatten).length < s'.text.length

theorem Delivers.refl (streaming : s.publisher.isSome) : s.Delivers [] s where
  streaming := streaming
  arrived := (List.append_nil _).symm
  longer := by simp
  clean flawless := ⟨flawless, (List.append_nil _).symm⟩
  repeated flawless flawed := absurd flawless flawed

theorem Delivers.trans (first : s.Delivers front s') (second : s'.Delivers back s'') :
    s.Delivers (front ++ back) s'' where
  streaming := second.streaming
  arrived := by rw [second.arrived, first.arrived, List.flatMap_append, List.append_assoc]
  longer := by
    have shorter := first.longer
    have whole := second.longer
    simp only [List.length_append, List.flatten_append] at shorter whole ⊢
    omega
  clean flawless := by
    obtain ⟨middle, later⟩ := second.clean flawless
    obtain ⟨before, earlier⟩ := first.clean middle
    exact ⟨before, by rw [later, earlier, List.flatten_append, List.append_assoc]⟩
  repeated flawless flawed := by
    have shorter := first.longer
    have whole := second.longer
    by_cases middle : s'.Flawless
    · have strict := second.repeated middle flawed
      simp only [List.length_append, List.flatten_append] at shorter strict ⊢
      omega
    · have strict := first.repeated flawless middle
      simp only [List.length_append, List.flatten_append] at strict whole ⊢
      omega

/-- A chunk that is written without an error arrives. -/
theorem delivers_writeChunk (streaming : s.publisher.isSome)
    (succeeded : (s.writeChunk text).2 = none) : s.Delivers [text] (s.writeChunk text).1 := by
  by_cases empty : text = []
  · subst empty
    have nothing : [([] : Bytes)].flatMap jsonString = [] := by simp [jsonString]
    exact ⟨streaming, by rw [nothing, writeChunk_nil, List.append_nil], by simp [writeChunk_nil],
      fun flawless => ⟨flawless, by simp [writeChunk_nil]⟩,
      fun flawless flawed => absurd flawless flawed⟩
  obtain ⟨kept, written, _, outcome⟩ := writeChunk_spec streaming empty
  rcases outcome with ⟨failed, _⟩ | ⟨failed, _⟩ | ⟨_, _, events, before⟩
  · exact absurd succeeded failed
  · exact absurd succeeded failed
  · refine ⟨kept, ?_, by simp [written], fun flawless => ⟨before flawless, by simp [written]⟩, ?_⟩
    · rw [arrived, events, List.flatMap_append, List.flatMap_append, flatMap_text_opening,
        List.append_nil]
      rfl
    · exact fun flawless flawed => absurd (flawless_writeChunk succeeded flawless) flawed

/-- A chunk that could not be written has not arrived, and is in the text all the same. -/
theorem writeChunk_failed (streaming : s.publisher.isSome)
    (failed : (s.writeChunk text).2 ≠ none) :
    text ≠ [] ∧ (s.writeChunk text).1.publisher.isSome ∧
      (s.writeChunk text).1.text = s.text ++ text ∧
      (s.writeChunk text).1.arrived = s.arrived ∧ ¬ (s.writeChunk text).1.Flawless := by
  have nonempty : text ≠ [] := by
    rintro rfl
    exact failed rfl
  obtain ⟨kept, written, _, outcome⟩ := writeChunk_spec streaming nonempty
  refine ⟨nonempty, kept, written, ?_⟩
  rcases outcome with ⟨_, _, _, events, flawed⟩ | ⟨_, _, events, flawed⟩ | ⟨succeeded, _⟩
  · exact ⟨by rw [arrived, events, ← arrived], flawed⟩
  · refine ⟨?_, flawed⟩
    rw [arrived, events, List.flatMap_append, flatMap_text_opening, List.append_nil, ← arrived]
  · exact absurd succeeded failed

theorem Retried.delivers (retried : Retried text s s') (streaming : s.publisher.isSome) :
    s.Delivers [text] s' := by
  induction retried with
  | done succeeded => exact delivers_writeChunk streaming succeeded
  | @again s s' failed _ ih =>
      obtain ⟨nonempty, kept, written, same, flawed⟩ := writeChunk_failed streaming failed
      have later := ih kept
      have more := List.length_pos_iff.mpr nonempty
      have longer := later.longer
      simp only [written, List.flatten_singleton, List.length_append] at longer
      refine ⟨later.streaming, by rw [later.arrived, same], ?_, ?_, ?_⟩
      · simp only [List.flatten_singleton, List.length_append]
        omega
      · intro flawless
        exact absurd (later.clean flawless).1 flawed
      · intro _ _
        simp only [List.flatten_singleton, List.length_append]
        omega

theorem RetriedAll.delivers {chunks : List Bytes} (retried : RetriedAll chunks s s')
    (streaming : s.publisher.isSome) : s.Delivers chunks s' := by
  induction retried with
  | nil => exact .refl streaming
  | cons first _ ih =>
      have delivered := first.delivers streaming
      exact delivered.trans (ih delivered.streaming)

/-- A new streamer on a way to the topic that nobody has used. -/
def onNewWire (answers : Nat → Option ε) (startIndex : Int) : TextStreamer ε :=
  newTextStreamer (some ⟨answers, 0, []⟩) startIndex

/-- In every run in which failed chunks are written again until they succeed, the text that was
collected is the text of the published deltas exactly if no publish failed, as far as all chunks are
valid UTF-8; and if no publish failed, exactly if they are. -/
theorem text_eq_arrived_iff {answers : Nat → Option ε} {startIndex : Int} {chunks : List Bytes}
    (ran : RetriedAll chunks (onNewWire answers startIndex) s) :
    ((∀ chunk ∈ chunks, validString chunk = true) →
        (s.text = s.events.flatMap Event.text ↔ s.Flawless)) ∧
      (s.Flawless → (s.text = s.events.flatMap Event.text ↔
        ∀ chunk ∈ chunks, validString chunk = true)) := by
  have delivers := ran.delivers rfl
  have fresh : (onNewWire answers startIndex).Flawless := by
    rintro wire ⟨⟩
    nofun
  have published : s.events.flatMap Event.text = chunks.flatMap jsonString := delivers.arrived
  rw [published]
  constructor
  · intro valid
    rw [flatMap_jsonString_eq_iff.mpr valid]
    constructor
    · intro same
      by_contra flawed
      have more := delivers.repeated fresh flawed
      rw [same] at more
      exact Nat.lt_irrefl _ more
    · exact fun flawless => (delivers.clean flawless).2
  · intro flawless
    have collected : s.text = chunks.flatten := (delivers.clean flawless).2
    rw [collected, eq_comm, flatMap_jsonString_eq_iff]

/-- Two chunks that are written without a failure. -/
theorem text_eq_arrived_sample :
    ∃ s : TextStreamer Unit, RetriedAll [[0x61], [0x62]] (onNewWire (fun _ => none) 0) s ∧
      (s.text = s.events.flatMap Event.text ↔ s.Flawless) := by
  have ran : RetriedAll [[0x61], [0x62]] (onNewWire (fun _ => (none : Option Unit)) 0) _ :=
    .cons (.done rfl) (.cons (.done rfl) .nil)
  exact ⟨_, ran, (text_eq_arrived_iff ran).1 (by decide +kernel)⟩

/-- The second publish fails: the block is open and its delta is not there. -/
def secondFails (attempt : Nat) : Option Unit := if attempt = 1 then some () else none

/-- One letter is written, its delta fails, and it is written again: the letter arrives once and is
in the text twice. -/
theorem chunk_collected_twice :
    ∃ s : TextStreamer Unit, RetriedAll [[0x61]] (onNewWire secondFails 0) s ∧
      s.text = [0x61, 0x61] ∧ s.events.flatMap Event.text = [0x61] := by
  refine ⟨_, .cons (.again (by nofun) (.done rfl)) .nil, rfl, ?_⟩
  decide +kernel

end TextStreamer

end CommonGo.Sse
