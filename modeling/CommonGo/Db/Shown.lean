import CommonGo.Db.Preview
import CommonGo.Go.Runes

/-!
# The runes of a preview

The preview is a sequence of runes, and the budget counts their bytes.  A preview is whole, or it is
cut at the first emission that reaches the budget with text left to scan; what was written up to
there is trimmed and, if it is still too long, cut once more in front of a marker.
-/

namespace CommonGo.Redact

open Go

/-! ## The runes written -/

/-- The runes that an emission adds to the ones written before. -/
def Emission.runes (out : List Nat) (lastWasSpace : Bool) : Emission → List Nat
  | .value => [mark.toNat]
  | .space => if !lastWasSpace && 0 < out.length then [blank.toNat] else []
  | .char r => [r]

/-- One emission, from the runes written before and whether white space was read last. -/
def showStep (line : List Nat × Bool) (emission : Emission) : List Nat × Bool :=
  (line.1 ++ emission.runes line.1 line.2, emission == .space)

/-- The runes written for all emissions. -/
def shown (list : List Emission) : List Nat := (list.foldl showStep ([], false)).1

/-- The last emission is white space. -/
def spaced (list : List Emission) : Bool := (list.foldl showStep ([], false)).2

@[simp] theorem shown_nil : shown [] = [] := rfl

@[simp] theorem spaced_nil : spaced [] = false := rfl

theorem shown_snoc (list : List Emission) (emission : Emission) :
    shown (list ++ [emission]) = shown list ++ emission.runes (shown list) (spaced list) := by
  rw [shown, List.foldl_append]
  rfl

@[simp] theorem spaced_snoc (list : List Emission) (emission : Emission) :
    spaced (list ++ [emission]) = (emission == .space) := by
  rw [spaced, List.foldl_append]
  rfl

theorem Emission.write_encodeRunes (out : List Nat) (lastWasSpace : Bool) (emission : Emission) :
    emission.write (encodeRunes out) lastWasSpace =
      encodeRunes (out ++ emission.runes out lastWasSpace) := by
  have question : encodeRune mark.toNat = [mark] := by decide
  have space : encodeRune blank.toNat = [blank] := by decide
  cases emission with
  | value => simp [write, runes, question]
  | char r => simp [write, runes]
  | space =>
      have empty : 0 < (encodeRunes out).length ↔ 0 < out.length := by
        rw [List.length_pos_iff, List.length_pos_iff, Ne, encodeRunes_eq_nil_iff]
      simp only [write, runes, empty]
      split_ifs <;> simp [space]

/-- The text written for all emissions is the encoding of the runes. -/
theorem written_eq (list : List Emission) : written [] false list = encodeRunes (shown list) := by
  have general : ∀ (out : List Nat) (lastWasSpace : Bool),
      written (encodeRunes out) lastWasSpace list =
        encodeRunes (list.foldl showStep (out, lastWasSpace)).1 := by
    induction list with
    | nil => exact fun _ _ => rfl
    | cons emission list ih =>
        intro out lastWasSpace
        rw [written, Emission.write_encodeRunes, ih]
        rfl
  exact general [] false

theorem written_snoc (list : List Emission) (emission : Emission) :
    written [] false (list ++ [emission]) =
      emission.write (written [] false list) (spaced list) := by
  rw [written_eq, written_eq, shown_snoc, Emission.write_encodeRunes]

theorem shown_isPrefix {front list : List Emission} (initial : front <+: list) :
    shown front <+: shown list := by
  induction list using List.reverseRecOn with
  | nil => rw [List.prefix_nil.mp initial]
  | append_singleton list emission ih =>
      rcases List.prefix_concat_iff.mp initial with rfl | shorter
      · exact List.prefix_refl _
      · rw [shown_snoc]
        exact (ih shorter).trans (List.prefix_append _ _)

theorem length_written_le {front list : List Emission} (initial : front <+: list) :
    (written [] false front).length ≤ (written [] false list).length := by
  rw [written_eq, written_eq]
  exact (encodeRunes_isPrefix (shown_isPrefix initial)).length_le

/-! ## Trimming -/

/-- The runes written, without the white space at the end. -/
def trimmed (list : List Emission) : List Nat := (shown list).rdropWhile isSpace

section Shown

variable {front list rest : List Emission} {emission : Emission}

theorem scalars_shown (copied : ∀ emission ∈ list, emission.Shown) : Scalars (shown list) := by
  induction list using List.reverseRecOn with
  | nil => exact scalars_nil
  | append_singleton list emission ih =>
      obtain ⟨earlier, here⟩ := List.forall_mem_append.mp copied
      rw [shown_snoc, scalars_append]
      refine ⟨ih earlier, ?_⟩
      cases emission with
      | value => exact scalars_cons.mpr ⟨by decide, scalars_nil⟩
      | char r => exact scalars_cons.mpr ⟨(here _ (List.mem_singleton_self _)).1, scalars_nil⟩
      | space =>
          rw [Emission.runes]
          split_ifs
          · exact scalars_cons.mpr ⟨by decide, scalars_nil⟩
          · exact scalars_nil

/-- White space at the start is not written. -/
theorem first_shown (copied : ∀ emission ∈ list, emission.Shown) :
    ∀ r ∈ (shown list).head?, isSpace r = false := by
  induction list using List.reverseRecOn with
  | nil => nofun
  | append_singleton list emission ih =>
      obtain ⟨earlier, here⟩ := List.forall_mem_append.mp copied
      have visible := ih earlier
      rw [shown_snoc]
      cases before : shown list with
      | cons first more =>
          rw [before] at visible
          exact visible
      | nil =>
          cases emission with
          | value => simp [Emission.runes, mark, isSpace]
          | space => simp [Emission.runes]
          | char r => simpa [Emission.runes] using (here _ (List.mem_singleton_self _)).2

theorem dropWhile_shown (copied : ∀ emission ∈ list, emission.Shown) :
    (shown list).dropWhile isSpace = shown list := by
  have visible := first_shown copied
  cases before : shown list with
  | nil => rfl
  | cons first more =>
      rw [before] at visible
      exact List.dropWhile_cons_of_neg (by simp [visible first rfl])

theorem trimSpace_written (copied : ∀ emission ∈ list, emission.Shown) :
    trimSpace (written [] false list) = encodeRunes (trimmed list) := by
  rw [written_eq, trimSpace_encodeRunes (scalars_shown copied), dropWhile_shown copied, trimmed]

theorem trimmed_isPrefix_shown (list : List Emission) : trimmed list <+: shown list :=
  List.rdropWhile_prefix _ _

theorem length_trimmed_le (list : List Emission) :
    (encodeRunes (trimmed list)).length ≤ (written [] false list).length := by
  rw [written_eq]
  exact (encodeRunes_isPrefix (trimmed_isPrefix_shown list)).length_le

theorem scalars_trimmed (copied : ∀ emission ∈ list, emission.Shown) : Scalars (trimmed list) :=
  (scalars_shown copied).of_isPrefix (trimmed_isPrefix_shown list)

/-- What is left does not end in white space. -/
theorem last_trimmed (list : List Emission) : ∀ r ∈ (trimmed list).getLast?, isSpace r = false := by
  intro r member
  have nonempty : trimmed list ≠ [] := by
    intro empty
    rw [empty] at member
    cases member
  have visible := List.rdropWhile_last_not isSpace (shown list) nonempty
  rw [List.getLast?_eq_some_getLast nonempty] at member
  cases member
  exact Bool.eq_false_iff.mpr visible

theorem trimmed_snoc_space (list : List Emission) :
    trimmed (list ++ [.space]) = trimmed list := by
  rw [trimmed, shown_snoc, Emission.runes]
  split_ifs
  · exact List.rdropWhile_concat_pos _ _ _ (by decide)
  · rw [List.append_nil, trimmed]

/-- What is not white space is not trimmed. -/
theorem trimmed_snoc_of_ne (visible : emission ≠ .space) (copied : emission.Shown) :
    trimmed (list ++ [emission]) = shown (list ++ [emission]) := by
  rw [trimmed, shown_snoc]
  cases emission with
  | value => exact List.rdropWhile_concat_neg _ _ _ (by decide)
  | space => exact absurd rfl visible
  | char r => exact List.rdropWhile_concat_neg _ _ _ (by simp [copied.2])

theorem trimmed_append_spaces (spaces : ∀ emission ∈ rest, emission = .space) :
    trimmed (front ++ rest) = trimmed front := by
  induction rest using List.reverseRecOn with
  | nil => rw [List.append_nil]
  | append_singleton rest emission ih =>
      obtain ⟨earlier, here⟩ := List.forall_mem_append.mp spaces
      rw [here _ (List.mem_singleton_self _), ← List.append_assoc, trimmed_snoc_space, ih earlier]

/-- Trimming takes away at most the blank that white space at the end has left. -/
theorem shown_eq_trimmed (copied : ∀ emission ∈ list, emission.Shown) :
    shown list = trimmed list ∨
      shown list = trimmed list ++ [blank.toNat] ∧ ∃ front, list = front ++ [.space] := by
  induction list using List.reverseRecOn with
  | nil => exact Or.inl rfl
  | append_singleton list emission ih =>
      obtain ⟨earlier, here⟩ := List.forall_mem_append.mp copied
      by_cases space : emission = .space
      · subst space
        have before := ih earlier
        rw [trimmed_snoc_space, shown_snoc, Emission.runes]
        split_ifs with separates
        · rcases before with same | ⟨_, front, rfl⟩
          · exact Or.inr ⟨by rw [same], list, rfl⟩
          · simp at separates
        · rw [List.append_nil]
          exact before.imp_right fun blanked => ⟨blanked.1, list, rfl⟩
      · exact Or.inl (trimmed_snoc_of_ne space (here _ (List.mem_singleton_self _))).symm

theorem length_written_le_trimmed (copied : ∀ emission ∈ list, emission.Shown) :
    (written [] false list).length ≤ (encodeRunes (trimmed list)).length + 1 := by
  have space : encodeRune blank.toNat = [blank] := by decide
  rw [written_eq]
  rcases shown_eq_trimmed copied with same | ⟨blanked, _⟩
  · rw [same]
    exact Nat.le_succ _
  · rw [blanked, encodeRunes_append, List.length_append]
    simp [space]

/-- What is written first is also what is left of it first. -/
theorem trimmed_isPrefix (copied : ∀ emission ∈ front ++ rest, emission.Shown) :
    trimmed front <+: trimmed (front ++ rest) := by
  induction rest using List.reverseRecOn with
  | nil => rw [List.append_nil]
  | append_singleton rest emission ih =>
      rw [← List.append_assoc] at copied ⊢
      obtain ⟨earlier, here⟩ := List.forall_mem_append.mp copied
      by_cases space : emission = .space
      · rw [space, trimmed_snoc_space]
        exact ih earlier
      · rw [trimmed_snoc_of_ne space (here _ (List.mem_singleton_self _))]
        refine (trimmed_isPrefix_shown front).trans (shown_isPrefix ?_)
        exact (List.prefix_append _ _).trans (List.prefix_append _ _)

end Shown

/-! ## The normalised text -/

/-- The rune that a piece of a query is written as. -/
def Emission.rune : Emission → Nat
  | .value => mark.toNat
  | .space => blank.toNat
  | .char r => r

/-- The pieces of a query without the white space that is followed by white space or by nothing. -/
def squeeze : List Emission → List Emission
  | [] => []
  | piece :: rest =>
      if piece = .space ∧ (rest = [] ∨ rest.head? = some .space) then squeeze rest
      else piece :: squeeze rest

/-- The text of a query with a mark for every value and a blank for every run of white space, and
with no blank at either end. -/
def normalised (list : List Emission) : List Nat :=
  ((squeeze list).dropWhile (· == .space)).map Emission.rune

section Normalised

variable {list rest : List Emission} {piece : Emission}

theorem squeeze_cons_of_ne (visible : piece ≠ .space) :
    squeeze (piece :: rest) = piece :: squeeze rest := by
  rw [squeeze, if_neg fun dropped => visible dropped.1]

theorem squeeze_space_cons_of_ne (visible : piece ≠ .space) :
    squeeze (.space :: piece :: rest) = .space :: piece :: squeeze rest := by
  rw [squeeze, if_neg (by simp [visible]), squeeze_cons_of_ne visible]

theorem squeeze_space_space : squeeze (.space :: .space :: rest) = squeeze (.space :: rest) := by
  rw [squeeze, if_pos (by simp)]

theorem Emission.runes_of_ne (visible : piece ≠ .space) (out : List Nat) (lastWasSpace : Bool) :
    piece.runes out lastWasSpace = [piece.rune] := by
  cases piece with
  | space => exact absurd rfl visible
  | value => rfl
  | char r => rfl

theorem Emission.isSpace_rune (visible : piece ≠ .space) (copied : piece.Shown) :
    isSpace piece.rune = false := by
  cases piece with
  | space => exact absurd rfl visible
  | value => decide
  | char r => exact copied.2

/-- The runes written behind a rune that is no white space, with and without a blank between. -/
theorem rdropWhile_showStep (copied : ∀ piece ∈ list, piece.Shown) (out : List Nat) {last : Nat}
    (visible : isSpace last = false) :
    (list.foldl showStep (out ++ [last], false)).1.rdropWhile isSpace =
        out ++ [last] ++ (squeeze list).map Emission.rune ∧
      (list.foldl showStep (out ++ [last] ++ [blank.toNat], true)).1.rdropWhile isSpace =
        out ++ [last] ++ (squeeze (.space :: list)).map Emission.rune := by
  induction list generalizing out last with
  | nil =>
      have kept : (out ++ [last]).rdropWhile isSpace = out ++ [last] :=
        List.rdropWhile_concat_neg _ _ _ (by simp [visible])
      refine ⟨by simpa [squeeze] using kept, ?_⟩
      have dropped : (out ++ [last] ++ [blank.toNat]).rdropWhile isSpace =
          (out ++ [last]).rdropWhile isSpace := List.rdropWhile_concat_pos _ _ _ (by decide)
      simpa [squeeze] using dropped.trans kept
  | cons piece rest ih =>
      obtain ⟨here, later⟩ := List.forall_mem_cons.mp copied
      by_cases space : piece = .space
      · subst space
        have blanked := (ih later out visible).2
        constructor
        · simpa [showStep, Emission.runes] using blanked
        · rw [squeeze_space_space]
          simpa [showStep, Emission.runes] using blanked
      · have read := fun before => (ih later before (Emission.isSpace_rune space here)).1
        have flag : (piece == Emission.space) = false := by simpa using space
        constructor
        · rw [List.foldl_cons, showStep, Emission.runes_of_ne space, flag, read,
            squeeze_cons_of_ne space, List.map_cons]
          simp
        · rw [List.foldl_cons, showStep, Emission.runes_of_ne space, flag, read,
            squeeze_space_cons_of_ne space, List.map_cons, List.map_cons]
          simp [Emission.rune]

/-- What is left of the runes written is the normalised text. -/
theorem trimmed_eq_normalised (copied : ∀ piece ∈ list, piece.Shown) :
    trimmed list = normalised list := by
  -- Nothing is written before the first visible piece, whatever was read.
  have general : ∀ lastWasSpace,
      (list.foldl showStep ([], lastWasSpace)).1.rdropWhile isSpace = normalised list := by
    induction list with
    | nil => exact fun _ => rfl
    | cons piece rest ih =>
        intro lastWasSpace
        obtain ⟨here, later⟩ := List.forall_mem_cons.mp copied
        by_cases space : piece = .space
        · subst space
          have skipped : normalised (.space :: rest) = normalised rest := by
            rw [normalised, normalised, squeeze]
            split_ifs
            · rfl
            · rw [List.dropWhile_cons_of_pos (by simp)]
          rw [List.foldl_cons, skipped, ← ih later true]
          simp [showStep, Emission.runes]
        · have read := (rdropWhile_showStep later [] (Emission.isSpace_rune space here)).1
          have flag : (piece == Emission.space) = false := by simpa using space
          rw [List.foldl_cons, showStep, Emission.runes_of_ne space, flag, normalised,
            squeeze_cons_of_ne space, List.dropWhile_cons_of_neg (by simp [flag])]
          simpa using read
  exact general false

end Normalised

/-! ## Cutting -/

/-- The rune of the marker. -/
def ellipsis : Nat := 0x2026

theorem encodeRune_ellipsis : encodeRune ellipsis = truncationMarker := by decide

theorem backOff_spec (value : Bytes) (position : Nat) :
    backOff value position ≤ position ∧
      validString (value.take (backOff value position)) = true := by
  induction position with
  | zero => exact ⟨le_rfl, by simp [backOff, validString]⟩
  | succ position ih =>
      rw [backOff]
      split_ifs with valid
      · exact ⟨le_rfl, valid⟩
      · exact ⟨ih.1.trans (Nat.le_succ _), ih.2⟩

theorem le_backOff {value : Bytes} {earlier position : Nat}
    (valid : validString (value.take earlier) = true) (before : earlier ≤ position) :
    earlier ≤ backOff value position := by
  induction position with
  | zero => rwa [backOff]
  | succ position ih =>
      rw [backOff]
      split_ifs with later
      · exact before
      · refine ih (Nat.le_of_lt_succ (lt_of_le_of_ne before ?_))
        rintro rfl
        exact later valid

/-- In a valid string, backing off ends at the last boundary. -/
theorem isGreatest_backOff {value : Bytes} {limit : Nat} (valid : validString value = true)
    (inside : limit ≤ value.length) :
    IsGreatest {position | RuneBoundary value position ∧ position ≤ limit}
      (backOff value limit) := by
  obtain ⟨within, part⟩ := backOff_spec value limit
  refine ⟨⟨(validString_take_iff valid (within.trans inside)).mp part, within⟩, ?_⟩
  rintro position ⟨boundary, before⟩
  exact le_backOff ((validString_take_iff valid (before.trans inside)).mpr boundary) before

/-- `truncateUTF8` keeps what fits and cuts the rest between two runes. -/
theorem truncateUTF8_cases {list : List Nat} {maxBytes : Nat} (scalars : Scalars list)
    (room : 3 ≤ maxBytes) :
    (encodeRunes list).length ≤ maxBytes ∧
        truncateUTF8 (encodeRunes list) maxBytes = (encodeRunes list, false) ∨
      maxBytes < (encodeRunes list).length ∧ ∃ part, part <+: list ∧
        (encodeRunes (part ++ [ellipsis])).length ≤ maxBytes ∧
        truncateUTF8 (encodeRunes list) maxBytes = (encodeRunes (part ++ [ellipsis]), true) := by
  have marker : truncationMarker.length = 3 := rfl
  unfold truncateUTF8
  split_ifs with fits
  · exact Or.inl ⟨fits, rfl⟩
  · obtain ⟨within, valid⟩ :=
      backOff_spec (encodeRunes list) (maxBytes - truncationMarker.length)
    obtain ⟨part, initial, text⟩ :=
      exists_of_validString_isPrefix scalars (List.take_prefix _ _) valid
    refine Or.inr ⟨Nat.lt_of_not_le fits, part, initial, ?_, ?_⟩
    · have short := congrArg List.length text
      rw [List.length_take] at short
      simp only [encodeRunes_append, encodeRunes_cons, encodeRune_ellipsis, encodeRunes_nil,
        List.append_nil, List.length_append]
      omega
    · simp [text, encodeRune_ellipsis]

/-- What is kept of a valid string fits and is valid. -/
theorem truncateUTF8_fits {value : Bytes} {maxBytes : Nat} (valid : validString value = true)
    (room : 3 ≤ maxBytes) :
    (truncateUTF8 value maxBytes).1.length ≤ maxBytes ∧
      validString (truncateUTF8 value maxBytes).1 = true := by
  have scalars := scalars_runes value
  have cases := truncateUTF8_cases scalars room
  rw [encodeRunes_runes valid] at cases
  rcases cases with ⟨fits, result⟩ | ⟨_, part, initial, fits, result⟩
  · rw [result]
    exact ⟨fits, valid⟩
  · have marker : Scalars [ellipsis] := scalars_cons.mpr ⟨by decide, scalars_nil⟩
    rw [result]
    exact ⟨fits, validString_encodeRunes
      (scalars_append.mpr ⟨scalars.of_isPrefix initial, marker⟩)⟩

/-- A valid string that does not fit is cut at the last boundary that leaves room for the marker. -/
theorem truncateUTF8_longest {value : Bytes} {maxBytes : Nat} (valid : validString value = true)
    (room : 3 ≤ maxBytes) :
    (truncateUTF8 value maxBytes).1.length ≤ maxBytes ∧
      validString (truncateUTF8 value maxBytes).1 = true ∧
      (value.length ≤ maxBytes → truncateUTF8 value maxBytes = (value, false)) ∧
      (maxBytes < value.length →
        ∃ position,
          IsGreatest {position | RuneBoundary value position ∧ position ≤ maxBytes - 3} position ∧
            truncateUTF8 value maxBytes = (value.take position ++ truncationMarker, true)) := by
  obtain ⟨fits, kept⟩ := truncateUTF8_fits valid room
  refine ⟨fits, kept, fun short => if_pos short, fun long => ?_⟩
  exact ⟨_, isGreatest_backOff valid (by omega), if_neg (Nat.not_le.mpr long)⟩

/-- Four accented letters of two bytes each, and a budget that ends inside the second one when the
marker has its place. -/
def accents : Bytes := encodeRunes (List.replicate 4 0xE9)

theorem truncateUTF8_longest_accents :
    validString accents = true ∧ (truncateUTF8 accents 6).1.length ≤ 6 ∧
      ∃ position, IsGreatest {position | RuneBoundary accents position ∧ position ≤ 3} position ∧
        truncateUTF8 accents 6 = (accents.take position ++ truncationMarker, true) := by
  have valid : validString accents = true := validString_encodeRunes (by unfold Scalars; decide)
  have longest := truncateUTF8_longest valid (show 3 ≤ 6 by decide)
  exact ⟨valid, longest.1, longest.2.2.2 (by decide)⟩

/-- How the runes of a preview come about under a budget, and whether it is said to be cut. -/
inductive Preview (maxBytes : Nat) (list : List Emission) : List Nat → Bool → Prop
  /-- No part of the emissions but all of them reaches the budget. -/
  | whole : (∀ front rest, list = front ++ rest → rest ≠ [] →
      (written [] false front).length < maxBytes) → Preview maxBytes list (trimmed list) false
  /-- What has reached the budget fits when it is trimmed. -/
  | fitting {front rest : List Emission} : list = front ++ rest → rest ≠ [] →
      maxBytes ≤ (written [] false front).length →
      (encodeRunes (trimmed front)).length ≤ maxBytes →
      Preview maxBytes list (trimmed front) true
  /-- What has reached the budget does not fit, and ends in a marker. -/
  | marked {front rest : List Emission} {part : List Nat} : list = front ++ rest → rest ≠ [] →
      maxBytes < (encodeRunes (trimmed front)).length → part <+: trimmed front →
      (encodeRunes (part ++ [ellipsis])).length ≤ maxBytes →
      Preview maxBytes list (part ++ [ellipsis]) true

/-- The rendering goes on to the end, or stops at the first emission that reaches the budget. -/
theorem render_cases {maxBytes : Nat} (seen list : List Emission) :
    (∀ front rest, list = front ++ rest → front ≠ [] → rest ≠ [] →
        (written [] false (seen ++ front)).length < maxBytes) ∧
      render maxBytes (written [] false seen) (spaced seen) list =
        (trimSpace (written [] false (seen ++ list)), false) ∨
    ∃ front rest, list = front ++ rest ∧ rest ≠ [] ∧
      maxBytes ≤ (written [] false (seen ++ front)).length ∧
      render maxBytes (written [] false seen) (spaced seen) list =
        ((truncateUTF8 (trimSpace (written [] false (seen ++ front))) maxBytes).1, true) := by
  induction list generalizing seen with
  | nil =>
      refine Or.inl ⟨fun front rest whole _ more => ?_, by rw [List.append_nil]; rfl⟩
      exact absurd (List.append_eq_nil_iff.mp whole.symm).2 more
  | cons emission list ih =>
      have next := ih (seen ++ [emission])
      rw [written_snoc, spaced_snoc, List.append_assoc, List.singleton_append] at next
      rw [render]
      split_ifs with cut
      · refine Or.inr ⟨[emission], list, rfl, cut.2, ?_, ?_⟩
        · rw [written_snoc]
          exact cut.1
        · rw [written_snoc]
      · rcases next with ⟨below, rendered⟩ | ⟨front, rest, rfl, more, reaches, rendered⟩
        · refine Or.inl ⟨?_, rendered⟩
          intro front rest whole nonempty more
          obtain ⟨first, front, rfl⟩ := List.exists_cons_of_ne_nil nonempty
          obtain ⟨rfl, rfl⟩ := List.cons.inj whole
          cases front with
          | nil =>
              rw [written_snoc]
              exact Nat.lt_of_not_le fun reached => cut ⟨reached, more⟩
          | cons second front =>
              have earlier := below (second :: front) rest rfl (List.cons_ne_nil _ _) more
              rwa [List.append_assoc] at earlier
        · refine Or.inr ⟨emission :: front, rest, rfl, more, ?_, ?_⟩
          · rwa [List.append_assoc] at reaches
          · rwa [List.append_assoc] at rendered

/-- The redactor returns a preview of one of the three kinds. -/
theorem exists_preview (query : Bytes) {maxBytes : Nat} (room : 3 ≤ maxBytes) :
    ∃ list cut, redactSQLValues query maxBytes = (encodeRunes list, cut) ∧
      Preview maxBytes (emissions query) list cut := by
  have copied := emissions_shown query
  rw [redactSQLValues_eq]
  rcases @render_cases maxBytes [] (emissions query) with
    ⟨below, rendered⟩ | ⟨front, rest, split, more, reaches, rendered⟩
  · refine ⟨_, _, rendered.trans ?_, .whole fun front rest split more => ?_⟩
    · rw [List.nil_append, trimSpace_written copied]
    · cases front with
      | nil => exact Nat.lt_of_lt_of_le (by decide) room
      | cons first front => exact below _ rest split (List.cons_ne_nil _ _) more
  · rw [List.nil_append] at rendered
    have part_copied : ∀ emission ∈ front, emission.Shown := fun emission member =>
      copied emission (split ▸ List.mem_append_left rest member)
    rw [trimSpace_written part_copied] at rendered
    rcases truncateUTF8_cases (scalars_trimmed part_copied) room with
      ⟨fits, result⟩ | ⟨long, part, initial, short, result⟩
    · rw [result] at rendered
      exact ⟨_, _, rendered, .fitting split more reaches fits⟩
    · rw [result] at rendered
      exact ⟨_, _, rendered, .marked split more long initial short⟩

end CommonGo.Redact
