import CommonGo.Db.NormalForm

/-!
# The byte budget of a preview

A preview that is cut keeps to its budget and shows a part of the whole preview.  The budget is
looked at after every turn of the loop, and only while text is left, so the last rune of a query may
exceed it; and what is left may be white space that is not shown, so a preview may be said to be cut
and be whole.
-/

namespace CommonGo.Redact

open Go

section Emissions

variable {list front rest : List Emission} {maxBytes : Nat} {runes : List Nat} {cut : Bool}

/-! ## The length of a preview -/

/-- The last piece of a query is a rune, and the normalised text is longer than the budget, and
shorter without that rune. -/
def Overhangs (list : List Emission) (maxBytes : Nat) : Prop :=
  ∃ r, list.getLast? = some (.char r) ∧ maxBytes < (encodeRunes (normalised list)).length ∧
    (encodeRunes (normalised list)).length < maxBytes + (encodeRune r).length

/-- In terms of the text written: the last rune starts within the budget and ends beyond it. -/
theorem overhangs_snoc_char {r : Nat} (copied : ∀ emission ∈ front ++ [.char r], emission.Shown) :
    Overhangs (front ++ [.char r]) maxBytes ↔ (written [] false front).length < maxBytes ∧
      maxBytes < (written [] false front).length + (encodeRune r).length := by
  have length_eq : (encodeRunes (normalised (front ++ [.char r]))).length =
      (written [] false front).length + (encodeRune r).length := by
    rw [← trimmed_eq_normalised copied, trimmed_snoc_of_ne (by simp) (copied _ (by simp)),
      ← written_eq, written_snoc, Emission.write, List.length_append]
  constructor
  · rintro ⟨c, last, long, short⟩
    rw [List.getLast?_concat] at last
    cases last
    omega
  · rintro ⟨below, beyond⟩
    exact ⟨r, List.getLast?_concat, by omega, by omega⟩

theorem Overhangs.exists_snoc (overhangs : Overhangs list maxBytes) :
    ∃ front r, list = front ++ [.char r] := by
  obtain ⟨r, last, _⟩ := overhangs
  obtain ⟨front, rfl⟩ := List.getLast?_eq_some_iff.mp last
  exact ⟨front, r, rfl⟩

/-- A part with something left is a part of all but the last one. -/
theorem isPrefix_of_snoc_eq {emission : Emission} (split : list ++ [emission] = front ++ rest)
    (more : rest ≠ []) : front <+: list := by
  rcases List.prefix_concat_iff.mp ⟨rest, split.symm⟩ with all | shorter
  · rw [all] at split
    exact absurd (List.self_eq_append_right.mp split) more
  · exact shorter

/-- If a part of the emissions reaches the budget with something left, the last one does not start
within it. -/
theorem not_overhangs_of_reaches (copied : ∀ emission ∈ list, emission.Shown)
    (split : list = front ++ rest) (more : rest ≠ [])
    (reaches : maxBytes ≤ (written [] false front).length) : ¬ Overhangs list maxBytes := by
  intro overhangs
  obtain ⟨before, r, rfl⟩ := overhangs.exists_snoc
  have below := ((overhangs_snoc_char copied).mp overhangs).1
  have := length_written_le (isPrefix_of_snoc_eq split more)
  omega

/-- A preview exceeds its budget exactly if the last rune does. -/
theorem Preview.length_le_iff (preview : Preview maxBytes list runes cut)
    (copied : ∀ emission ∈ list, emission.Shown) :
    (encodeRunes runes).length ≤ maxBytes ↔ ¬ Overhangs list maxBytes := by
  cases preview with
  | fitting split more reaches fits =>
      exact iff_of_true fits (not_overhangs_of_reaches copied split more reaches)
  | @marked front _ _ split more long _ fits =>
      refine iff_of_true fits (not_overhangs_of_reaches copied split more ?_)
      exact long.le.trans (length_trimmed_le front)
  | whole below =>
      rcases List.eq_nil_or_concat list with rfl | ⟨front, emission, rfl⟩
      · refine iff_of_true (Nat.zero_le _) ?_
        rintro ⟨r, last, _⟩
        cases last
      · rw [List.concat_eq_append] at below copied ⊢
        have under := below front [emission] rfl (List.cons_ne_nil _ _)
        have only : (∀ r, emission ≠ .char r) → ¬ Overhangs (front ++ [emission]) maxBytes := by
          rintro other ⟨r, last, _⟩
          exact other r (by simpa using last)
        have visible := copied emission (by simp)
        cases emission with
        | space =>
            rw [trimmed_snoc_space]
            have := length_trimmed_le front
            exact iff_of_true (by omega) (only (by simp))
        | value =>
            have question : encodeRune mark.toNat = [mark] := by decide
            rw [trimmed_snoc_of_ne (by simp) visible, ← written_eq, written_snoc]
            refine iff_of_true ?_ (only (by simp))
            rw [Emission.write, List.length_append, List.length_singleton]
            omega
        | char r =>
            rw [trimmed_snoc_of_ne (by simp) visible, ← written_eq, written_snoc,
              overhangs_snoc_char copied, Emission.write, List.length_append]
            omega

/-- No preview is longer than the whole one. -/
theorem Preview.length_le_trimmed (preview : Preview maxBytes list runes cut)
    (copied : ∀ emission ∈ list, emission.Shown) :
    (encodeRunes runes).length ≤ (encodeRunes (trimmed list)).length := by
  have shorter : ∀ {front rest}, list = front ++ rest →
      (encodeRunes (trimmed front)).length ≤ (encodeRunes (trimmed list)).length := by
    rintro front rest rfl
    exact (encodeRunes_isPrefix (trimmed_isPrefix copied)).length_le
  cases preview with
  | whole => exact le_rfl
  | fitting split => exact shorter split
  | marked split _ long _ fits =>
      have := shorter split
      omega

/-! ## What a cut leaves -/

/-- The preview without a marker at its end. -/
def withoutMarker (preview : Bytes) : Bytes :=
  if truncationMarker.isSuffixOf preview then
    preview.take (preview.length - truncationMarker.length)
  else preview

theorem withoutMarker_isPrefix (preview : Bytes) : withoutMarker preview <+: preview := by
  unfold withoutMarker
  split_ifs
  · exact List.take_prefix _ _
  · exact List.prefix_refl _

theorem withoutMarker_append (text : Bytes) : withoutMarker (text ++ truncationMarker) = text := by
  have marked : truncationMarker.isSuffixOf (text ++ truncationMarker) = true :=
    List.isSuffixOf_iff_suffix.mpr (List.suffix_append _ _)
  rw [withoutMarker, if_pos marked, List.length_append, Nat.add_sub_cancel, List.take_left]

/-- Up to a marker, a preview is a part of the whole one. -/
theorem Preview.withoutMarker_isPrefix (preview : Preview maxBytes list runes cut)
    (copied : ∀ emission ∈ list, emission.Shown) :
    withoutMarker (encodeRunes runes) <+: encodeRunes (trimmed list) := by
  have part : ∀ {front rest} {runes : List Nat}, list = front ++ rest → runes <+: trimmed front →
      encodeRunes runes <+: encodeRunes (trimmed list) := by
    rintro front rest runes rfl initial
    exact encodeRunes_isPrefix (initial.trans (trimmed_isPrefix copied))
  cases preview with
  | whole => exact Redact.withoutMarker_isPrefix _
  | fitting split =>
      exact (Redact.withoutMarker_isPrefix _).trans (part split (List.prefix_refl _))
  | marked split _ _ initial =>
      rw [encodeRunes_append, encodeRunes_cons, encodeRunes_nil, List.append_nil,
        encodeRune_ellipsis, withoutMarker_append]
      exact part split initial

/-! ## When a cut shows -/

/-- How many emissions at the end are white space. -/
def trailingSpaces (list : List Emission) : Nat :=
  (list.reverse.takeWhile (· == .space)).length

/-- Nothing is missing from a preview that is cut: only white space is left to read, and what was
written has reached the budget by its last rune or by the blank behind it. -/
def CutInVain (list : List Emission) (maxBytes : Nat) : Prop :=
  (encodeRunes (trimmed list)).length = maxBytes ∧ 1 ≤ trailingSpaces list ∨
    (encodeRunes (trimmed list)).length + 1 = maxBytes ∧ 2 ≤ trailingSpaces list

instance (list : List Emission) (maxBytes : Nat) : Decidable (CutInVain list maxBytes) :=
  inferInstanceAs (Decidable (_ ∨ _))

@[simp] theorem trailingSpaces_nil : trailingSpaces [] = 0 := rfl

@[simp] theorem trailingSpaces_snoc_space (list : List Emission) :
    trailingSpaces (list ++ [.space]) = trailingSpaces list + 1 := by
  simp [trailingSpaces]

theorem trailingSpaces_append (spaces : ∀ emission ∈ rest, emission = .space) :
    trailingSpaces (front ++ rest) = trailingSpaces front + rest.length := by
  induction rest using List.reverseRecOn with
  | nil => simp
  | append_singleton rest emission ih =>
      obtain ⟨earlier, here⟩ := List.forall_mem_append.mp spaces
      rw [here _ (List.mem_singleton_self _), ← List.append_assoc, trailingSpaces_snoc_space,
        ih earlier, List.length_append]
      rfl

/-- The emissions in front of the white space at the end are all shown, down to the last one. -/
theorem exists_visible (copied : ∀ emission ∈ list, emission.Shown) :
    ∃ visible spaces, list = visible ++ spaces ∧ (∀ emission ∈ spaces, emission = .space) ∧
      spaces.length = trailingSpaces list ∧ trimmed list = shown visible ∧
      spaced visible = false ∧ ∀ front rest, visible = front ++ rest → rest ≠ [] →
        (written [] false front).length < (written [] false visible).length := by
  induction list using List.reverseRecOn with
  | nil =>
      refine ⟨[], [], rfl, by nofun, rfl, rfl, rfl, fun front rest split more => ?_⟩
      exact absurd (List.append_eq_nil_iff.mp split.symm).2 more
  | append_singleton list emission ih =>
      obtain ⟨earlier, here⟩ := List.forall_mem_append.mp copied
      by_cases space : emission = .space
      · subst space
        obtain ⟨visible, spaces, rfl, all, count, shows, rest⟩ := ih earlier
        refine ⟨visible, spaces ++ [.space], by simp, ?_, ?_, ?_, rest⟩
        · exact List.forall_mem_append.mpr ⟨all, by simp⟩
        · rw [trailingSpaces_snoc_space, ← count, List.length_append, List.length_singleton]
        · rw [trimmed_snoc_space, shows]
      · have visible := here emission (List.mem_singleton_self _)
        have grows : (written [] false list).length <
            (written [] false (list ++ [emission])).length := by
          rw [written_snoc]
          cases emission with
          | space => exact absurd rfl space
          | value => simp [Emission.write]
          | char r => simp [Emission.write, length_encodeRune_pos]
        refine ⟨list ++ [emission], [], by simp, by nofun, ?_, trimmed_snoc_of_ne space visible,
          by simp [space], fun front rest split more => ?_⟩
        · simp [trailingSpaces, space]
        · exact (length_written_le (isPrefix_of_snoc_eq split more)).trans_lt grows

/-- With nothing but white space behind it, a part that reaches the budget makes a preview that is
said to be cut and is whole. -/
theorem Preview.of_cutInVain (preview : Preview maxBytes list runes cut) (room : 3 ≤ maxBytes)
    (copied : ∀ emission ∈ list, emission.Shown) (vain : CutInVain list maxBytes) :
    cut = true ∧ runes = trimmed list := by
  obtain ⟨visible, spaces, rfl, all, count, shows, unspaced, grows⟩ := exists_visible copied
  have length_eq : (encodeRunes (trimmed (visible ++ spaces))).length =
      (written [] false visible).length := by rw [shows, written_eq]
  rw [CutInVain, length_eq, ← count] at vain
  -- Some part of the emissions reaches the budget with white space left.
  obtain ⟨part, others, split, more, reaches⟩ : ∃ part others, visible ++ spaces = part ++ others ∧
      others ≠ [] ∧ maxBytes ≤ (written [] false part).length := by
    rcases vain with ⟨exact_fit, one⟩ | ⟨short, two⟩
    · exact ⟨visible, spaces, rfl, List.ne_nil_of_length_pos one, exact_fit.ge⟩
    · obtain ⟨first, spaces, rfl⟩ := List.exists_cons_of_length_pos (by omega : 0 < spaces.length)
      rw [all first List.mem_cons_self]
      refine ⟨visible ++ [.space], spaces, by simp, ?_, ?_⟩
      · rintro rfl
        simp at two
      · rw [written_snoc, unspaced, Emission.write, if_pos (by simp; omega), List.length_append,
          List.length_singleton]
        omega
  have fits : (written [] false visible).length ≤ maxBytes := by omega
  cases preview with
  | whole below =>
      have := below part others split more
      omega
  | @marked front rest _ split' _ long =>
      have initial : trimmed front <+: trimmed (visible ++ spaces) :=
        split' ▸ trimmed_isPrefix (split' ▸ copied)
      have shorter := (encodeRunes_isPrefix initial).length_le
      omega
  | @fitting front rest split' _ reaches' =>
      refine ⟨rfl, ?_⟩
      -- What was written up to the cut is at least what is visible, so only white space is left.
      rcases List.append_eq_append_iff.mp split' with ⟨extra, rfl, rfl⟩ | ⟨missing, rfl, rfl⟩
      · rw [← List.append_assoc, trimmed_append_spaces fun emission member =>
          all emission (List.mem_append_right _ member)]
      · by_cases nothing : missing = []
        · subst nothing
          rw [List.append_nil, trimmed_append_spaces all]
        · have := grows front missing rfl nothing
          omega

/-- If only white space is left to read after what has reached the budget, the cut is in vain. -/
theorem cutInVain_of_eq (copied : ∀ emission ∈ front ++ rest, emission.Shown) (more : rest ≠ [])
    (reaches : maxBytes ≤ (written [] false front).length)
    (fits : (encodeRunes (trimmed front)).length ≤ maxBytes)
    (same : trimmed front = trimmed (front ++ rest)) : CutInVain (front ++ rest) maxBytes := by
  have spaces : ∀ emission ∈ rest, emission = .space := by
    intro emission member
    by_contra visible
    obtain ⟨before, after, rfl⟩ := List.append_of_mem member
    rw [← List.append_assoc, ← List.concat_append, List.concat_eq_append] at copied same
    have here := (List.forall_mem_append.mp copied).1
    have part := trimmed_isPrefix copied
    rw [← same, trimmed_snoc_of_ne visible (here emission (by simp))] at part
    have longer := part.length_le
    have shorter := (trimmed_isPrefix_shown front).length_le
    have grows := (shown_isPrefix (List.prefix_append front before)).length_le
    rw [shown_snoc, List.length_append] at longer
    cases emission with
    | space => exact visible rfl
    | value =>
        simp only [Emission.runes, List.length_singleton] at longer
        omega
    | char r =>
        simp only [Emission.runes, List.length_singleton] at longer
        omega
  have positive := List.length_pos_iff.mpr more
  have space : encodeRune blank.toNat = [blank] := by decide
  rw [CutInVain, ← same, trailingSpaces_append spaces]
  rcases shown_eq_trimmed (List.forall_mem_append.mp copied).1 with all | ⟨blanked, before, rfl⟩
  · rw [written_eq, all] at reaches
    exact Or.inl ⟨by omega, by omega⟩
  · rw [written_eq, blanked, encodeRunes_append, List.length_append] at reaches
    simp only [encodeRunes_cons, encodeRunes_nil, space, List.append_nil, List.length_singleton]
      at reaches
    rw [trailingSpaces_snoc_space]
    omega

/-- A preview that is said to be cut lacks something exactly if the cut is not in vain. -/
theorem Preview.ne_trimmed_iff (preview : Preview maxBytes list runes cut) (room : 3 ≤ maxBytes)
    (copied : ∀ emission ∈ list, emission.Shown) :
    (cut = true → runes ≠ trimmed list) ↔ ¬ CutInVain list maxBytes := by
  constructor
  · intro lacks vain
    obtain ⟨said, whole⟩ := preview.of_cutInVain room copied vain
    exact lacks said whole
  · rintro wanted rfl rfl
    generalize whole : trimmed list = runes at preview
    cases preview with
    | fitting split more reaches fits =>
        subst split
        exact wanted (cutInVain_of_eq copied more reaches fits whole.symm)
    | @marked front rest part split _ long _ fits =>
        subst split
        have shorter := (encodeRunes_isPrefix (trimmed_isPrefix copied)).length_le
        rw [whole] at shorter
        omega

end Emissions

/-! ## The redactor and its budget -/

section Redactor

variable {query : Bytes} {maxBytes large : Nat}

theorem fullPreview_eq (query : Bytes) :
    fullPreview query = encodeRunes (trimmed (emissions query)) :=
  trimSpace_written (emissions_shown query)

/-- The budget is kept exactly if the last rune does not exceed it, in the log and in general. -/
theorem preview_length_le_iff (query : Bytes) :
    ((summarizeSQL query).preview.length ≤ maxSQLPreviewBytes ↔
        ¬ Overhangs (emissions query) maxSQLPreviewBytes) ∧
      ∀ maxBytes, 3 ≤ maxBytes → ((redactSQLValues query maxBytes).1.length ≤ maxBytes ↔
        ¬ Overhangs (emissions query) maxBytes) := by
  have general : ∀ maxBytes, 3 ≤ maxBytes → ((redactSQLValues query maxBytes).1.length ≤ maxBytes ↔
      ¬ Overhangs (emissions query) maxBytes) := by
    intro maxBytes room
    obtain ⟨runes, cut, redacted, preview⟩ := exists_preview query room
    rw [redacted]
    exact preview.length_le_iff (emissions_shown query)
  exact ⟨general maxSQLPreviewBytes (by decide), general⟩

/-- Letters and an accented one behind them. -/
def letters (count : Nat) : List Nat := List.replicate count 0x61 ++ [0xE9]

theorem normal_letters (count : Nat) : Normal (letters count) := by
  have plain : Normal (List.replicate count 0x61) := by
    induction count with
    | zero => exact normal_nil
    | succ count ih =>
        rw [List.replicate_succ']
        exact ih.snoc (by decide) (by decide) (by decide) (by decide) (by decide)
  exact plain.snoc (by decide) (by decide) (by decide) (by decide) (by decide)

theorem length_encodeRunes_replicate (count : Nat) :
    (encodeRunes (List.replicate count 0x61)).length = count := by
  have one : encodeRune 0x61 = [0x61] := by decide
  simp [encodeRunes, one]

/-- With one byte of the budget left for an accented letter, the preview exceeds the budget, and
nothing is said to be cut. -/
theorem redactSQLValues_letters (count : Nat) (several : 2 ≤ count) :
    redactSQLValues (encodeRunes (letters count)) (count + 1) =
      (encodeRunes (letters count), false) := by
  refine redactSQLValues_normal (normal_letters count) ?_ (by omega) ?_
  · intro r member
    rw [letters, List.getLast?_concat] at member
    cases member
    decide
  · intro front r ends
    rw [← (List.append_inj' ends rfl).1, length_encodeRunes_replicate]
    exact Nat.lt_succ_self count

theorem length_letters (count : Nat) : (encodeRunes (letters count)).length = count + 2 := by
  have two : (encodeRune 0xE9).length = 2 := by decide
  rw [letters, encodeRunes_append, List.length_append, length_encodeRunes_replicate,
    encodeRunes_cons, encodeRunes_nil, List.append_nil, two]

/-- The normalised text of such a query is the query. -/
theorem normalised_letters (count : Nat) (several : 2 ≤ count) :
    encodeRunes (normalised (emissions (encodeRunes (letters count)))) =
      encodeRunes (letters count) := by
  have whole := redactSQLValues_letters count several
  have uncut := @redactSQLValues_of_uncut (encodeRunes (letters count)) (count + 1) (by rw [whole])
  rw [← trimmed_eq_normalised (emissions_shown _), ← fullPreview_eq, ← uncut, whole]

/-- A query of 2046 letters and an accented one fills the budget; `aaé` exceeds one of three
bytes. -/
theorem preview_length_le_letters :
    (summarizeSQL (encodeRunes (letters 2046))).preview.length ≤ maxSQLPreviewBytes ∧
      ¬ Overhangs (emissions (encodeRunes (letters 2046))) maxSQLPreviewBytes ∧
      Overhangs (emissions (encodeRunes (letters 2))) 3 := by
  have keeps : ¬ Overhangs (emissions (encodeRunes (letters 2046))) maxSQLPreviewBytes := by
    rintro ⟨r, _, long, _⟩
    rw [normalised_letters 2046 (by decide), length_letters] at long
    exact absurd long (by decide)
  refine ⟨(preview_length_le_iff _).1.mpr keeps, keeps, ?_⟩
  have exceeds : ¬ (redactSQLValues (encodeRunes (letters 2)) 3).1.length ≤ 3 := by
    rw [redactSQLValues_letters 2 le_rfl, length_letters]
    decide
  exact not_not.mp (mt ((preview_length_le_iff _).2 3 le_rfl).mpr exceeds)

/-- A query of 2047 letters and an accented one is logged with 2049 bytes. -/
theorem overlong_preview :
    (summarizeSQL (encodeRunes (letters 2047))).preview.length = 2049 ∧
      (summarizeSQL (encodeRunes (letters 2047))).truncated = false ∧
      (redactSQLValues (encodeRunes (letters 2)) 3).1.length = 4 := by
  have logged : redactSQLValues (encodeRunes (letters 2047)) maxSQLPreviewBytes =
      (encodeRunes (letters 2047), false) := redactSQLValues_letters 2047 (by decide)
  have short : redactSQLValues (encodeRunes (letters 2)) 3 = (encodeRunes (letters 2), false) :=
    redactSQLValues_letters 2 (by decide)
  simp only [summarizeSQL, logged, short, length_letters]
  exact ⟨trivial, trivial, trivial⟩

/-- A budget larger than every preview of the query. -/
structure Ample (query : Bytes) (large : Nat) : Prop where
  /-- There is room for the marker. -/
  room : 3 ≤ large
  /-- No preview reaches the budget. -/
  larger : ∀ maxBytes, 3 ≤ maxBytes → (redactSQLValues query maxBytes).1.length < large

theorem length_redactSQLValues_le (query : Bytes) (room : 3 ≤ maxBytes) :
    (redactSQLValues query maxBytes).1.length ≤ (fullPreview query).length := by
  obtain ⟨runes, cut, redacted, preview⟩ := exists_preview query room
  rw [redacted, fullPreview_eq]
  exact preview.length_le_trimmed (emissions_shown query)

theorem ample_of_lt (room : 3 ≤ large) (larger : (fullPreview query).length < large) :
    Ample query large :=
  ⟨room, fun _ enough => (length_redactSQLValues_le query enough).trans_lt larger⟩

/-- Under an ample budget the preview is whole. -/
theorem redactSQLValues_of_ample (ample : Ample query large) :
    (redactSQLValues query large).1 = fullPreview query := by
  have copied := emissions_shown query
  -- Some budget cuts nothing, so that the whole preview is one of the previews.
  have longest : (fullPreview query).length < large := by
    have fits := @redactSQLValues_of_fits query ((written [] false (emissions query)).length + 3)
      (by omega)
    have less := ample.larger ((written [] false (emissions query)).length + 3) (by omega)
    rwa [fits] at less
  rw [fullPreview_eq] at longest ⊢
  obtain ⟨runes, cut, redacted, preview⟩ := exists_preview query ample.room
  rw [redacted]
  cases preview with
  | whole => rfl
  | @fitting front rest split _ reaches =>
      rw [split] at copied longest ⊢
      have almost := length_written_le_trimmed (List.forall_mem_append.mp copied).1
      exact (encodeRunes_isPrefix (trimmed_isPrefix copied)).eq_of_length_le (by omega)
  | @marked front rest _ split _ long =>
      rw [split] at copied longest
      have shorter := (encodeRunes_isPrefix (trimmed_isPrefix copied)).length_le
      omega

/-- Truncation only cuts: a preview that is not said to be cut is the preview without a limit, and
up to its marker every other one is a first part of that. -/
theorem redactSQLValues_only_cuts (room : 3 ≤ maxBytes) (ample : Ample query large) :
    ((redactSQLValues query maxBytes).2 = false →
        (redactSQLValues query maxBytes).1 = (redactSQLValues query large).1) ∧
      ((redactSQLValues query maxBytes).2 = true →
        withoutMarker (redactSQLValues query maxBytes).1 <+: (redactSQLValues query large).1) := by
  rw [redactSQLValues_of_ample ample]
  refine ⟨redactSQLValues_of_uncut, fun _ => ?_⟩
  obtain ⟨runes, cut, redacted, preview⟩ := exists_preview query room
  rw [redacted, fullPreview_eq]
  exact preview.withoutMarker_isPrefix (emissions_shown query)

/-- `abc` and a blank. -/
def trailingBlank : Bytes := encodeRunes [0x61, 0x62, 0x63, 0x20]

theorem emissions_trailingBlank :
    emissions trailingBlank = [.char 0x61, .char 0x62, .char 0x63, .space] :=
  emissions_encodeRunes (show ∀ r ∈ [0x61, 0x62, 0x63, 0x20], validRune r = true by decide)
    (by decide) (by decide) (not_delimiter_of_notMem (by decide))

theorem ample_trailingBlank : Ample trailingBlank 4 := by
  refine ample_of_lt (by decide) ?_
  rw [fullPreview_eq, emissions_trailingBlank]
  decide

theorem only_cuts_trailingBlank :
    Ample trailingBlank 4 ∧ ((redactSQLValues trailingBlank 3).2 = true →
      withoutMarker (redactSQLValues trailingBlank 3).1 <+: (redactSQLValues trailingBlank 4).1) :=
  ⟨ample_trailingBlank, (redactSQLValues_only_cuts (by decide) ample_trailingBlank).2⟩

/-- A preview that is said to be cut differs from the preview without a limit exactly if the cut is
not in vain. -/
theorem truncated_differs_iff (room : 3 ≤ maxBytes) (ample : Ample query large) :
    ((redactSQLValues query maxBytes).2 = true →
        (redactSQLValues query maxBytes).1 ≠ (redactSQLValues query large).1) ↔
      ¬ CutInVain (emissions query) maxBytes := by
  have copied := emissions_shown query
  obtain ⟨runes, cut, redacted, preview⟩ := exists_preview query room
  rw [redactSQLValues_of_ample ample, redacted, fullPreview_eq,
    ← preview.ne_trimmed_iff room copied]
  refine imp_congr_right fun _ => not_congr ⟨fun same => ?_, fun same => by rw [same]⟩
  have decoded := congrArg Go.runes same
  rwa [runes_encodeRunes preview.normal.scalars, runes_encodeRunes (scalars_trimmed copied)]
    at decoded

/-- `abcd`. -/
def fourLetters : Bytes := encodeRunes [0x61, 0x62, 0x63, 0x64]

theorem emissions_fourLetters :
    emissions fourLetters = [.char 0x61, .char 0x62, .char 0x63, .char 0x64] :=
  emissions_encodeRunes (show ∀ r ∈ [0x61, 0x62, 0x63, 0x64], validRune r = true by decide)
    (by decide) (by decide) (not_delimiter_of_notMem (by decide))

/-- Four letters under a budget of three bytes are cut, and not in vain. -/
theorem truncated_differs_fourLetters :
    Ample fourLetters 5 ∧ (redactSQLValues fourLetters 3).2 = true ∧
      (redactSQLValues fourLetters 3).1 ≠ (redactSQLValues fourLetters 5).1 := by
  have ample : Ample fourLetters 5 := by
    refine ample_of_lt (by decide) ?_
    rw [fullPreview_eq, emissions_fourLetters]
    decide
  have cut : (redactSQLValues fourLetters 3).2 = true := by
    rw [redactSQLValues_eq, emissions_fourLetters]
    decide
  have wanted : ¬ CutInVain (emissions fourLetters) 3 := by
    rw [emissions_fourLetters]
    decide
  exact ⟨ample, cut, (truncated_differs_iff le_rfl ample).mpr wanted cut⟩

/-- `abc` and a blank under a budget of three bytes is said to be cut, and is shown as without a
limit. -/
theorem cut_in_vain :
    (redactSQLValues trailingBlank 3).2 = true ∧
      (redactSQLValues trailingBlank 3).1 = (redactSQLValues trailingBlank 4).1 := by
  have vain : CutInVain (emissions trailingBlank) 3 := by
    rw [emissions_trailingBlank]
    decide
  obtain ⟨runes, cut, redacted, preview⟩ := @exists_preview trailingBlank 3 le_rfl
  obtain ⟨said, whole⟩ := preview.of_cutInVain le_rfl (emissions_shown trailingBlank) vain
  rw [redactSQLValues_of_ample ample_trailingBlank, redacted, fullPreview_eq]
  exact ⟨said, by rw [whole]⟩

end Redactor

end CommonGo.Redact
