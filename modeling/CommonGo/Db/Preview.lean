import CommonGo.Db.Scan

/-!
# Uncut previews

Without the budget a preview is the text written for all emissions, less the blank that trailing
white space leaves behind.  Every byte other than the blank is therefore counted in the preview as
often as the emissions write it.
-/

namespace CommonGo.Redact

open Go

/-- The text written for all emissions. -/
def written (out : Bytes) (lastWasSpace : Bool) : List Emission → Bytes
  | [] => out
  | emission :: rest =>
      written (emission.write out lastWasSpace) (emission == .space) rest

theorem Emission.length_le_write (out : Bytes) (lastWasSpace : Bool) (emission : Emission) :
    out.length ≤ (emission.write out lastWasSpace).length := by
  cases emission with
  | value => simp [write]
  | space =>
      simp only [write]
      split_ifs <;> simp
  | char r => simp [write]

theorem length_le_written (out : Bytes) (lastWasSpace : Bool) (list : List Emission) :
    out.length ≤ (written out lastWasSpace list).length := by
  induction list generalizing out lastWasSpace with
  | nil => exact le_rfl
  | cons emission rest ih =>
      exact (emission.length_le_write out lastWasSpace).trans (ih _ _)

/-- A budget above the whole text cuts nothing. -/
theorem render_of_fits {maxBytes : Nat} {out : Bytes} {lastWasSpace : Bool}
    {list : List Emission} (fits : (written out lastWasSpace list).length < maxBytes) :
    render maxBytes out lastWasSpace list = (trimSpace (written out lastWasSpace list), false) := by
  induction list generalizing out lastWasSpace with
  | nil => rfl
  | cons emission rest ih =>
      have grows := length_le_written (emission.write out lastWasSpace) (emission == .space) rest
      rw [written] at fits ⊢
      rw [render, if_neg (by omega)]
      exact ih fits

theorem render_of_uncut {maxBytes : Nat} {out : Bytes} {lastWasSpace : Bool}
    {list : List Emission} (uncut : (render maxBytes out lastWasSpace list).2 = false) :
    (render maxBytes out lastWasSpace list).1 = trimSpace (written out lastWasSpace list) := by
  induction list generalizing out lastWasSpace with
  | nil => rfl
  | cons emission rest ih =>
      rw [render] at uncut ⊢
      split_ifs at uncut ⊢ with cut
      exact ih uncut

/-- Preview of an unlimited budget. -/
def fullPreview (query : Bytes) : Bytes := trimSpace (written [] false (emissions query))

theorem redactSQLValues_of_uncut {query : Bytes} {maxBytes : Nat}
    (uncut : (redactSQLValues query maxBytes).2 = false) :
    (redactSQLValues query maxBytes).1 = fullPreview query := by
  rw [redactSQLValues_eq] at uncut ⊢
  exact render_of_uncut uncut

theorem redactSQLValues_of_fits {query : Bytes} {maxBytes : Nat}
    (fits : (written [] false (emissions query)).length < maxBytes) :
    redactSQLValues query maxBytes = (fullPreview query, false) := by
  rw [redactSQLValues_eq, render_of_fits fits, fullPreview]

/-- Queries with the same preview whenever neither is cut. -/
def SamePreview (left right : Bytes) : Prop :=
  ∀ maxBytes, 3 ≤ maxBytes → (redactSQLValues left maxBytes).2 = false →
    (redactSQLValues right maxBytes).2 = false →
      (redactSQLValues left maxBytes).1 = (redactSQLValues right maxBytes).1

theorem samePreview_iff {left right : Bytes} :
    SamePreview left right ↔ fullPreview left = fullPreview right := by
  constructor
  · intro same
    let budget := (written [] false (emissions left)).length +
      (written [] false (emissions right)).length + 3
    have left_fits : redactSQLValues left budget = (fullPreview left, false) :=
      redactSQLValues_of_fits (by omega)
    have right_fits : redactSQLValues right budget = (fullPreview right, false) :=
      redactSQLValues_of_fits (by omega)
    have previews := same budget (by omega) (by rw [left_fits]) (by rw [right_fits])
    rwa [left_fits, right_fits] at previews
  · intro same maxBytes _ left_uncut right_uncut
    rw [redactSQLValues_of_uncut left_uncut, redactSQLValues_of_uncut right_uncut, same]

/-! ## Trimming the written text -/

/-- An emission that the loop can produce: copied runes are no white space. -/
def Emission.Shown : Emission → Prop
  | .char r => validRune r ∧ isSpace r = false
  | .value | .space => True

theorem scanStep_shown (s : Bytes) : (scanStep s).1.Shown := by
  unfold scanStep
  split_ifs with escape
  · trivial
  all_goals
    split
    · trivial
    · first
        | trivial
        | exact ⟨decodeRune_valid s, by simp_all⟩

theorem emissions_shown (s : Bytes) : ∀ emission ∈ emissions s, emission.Shown := by
  fun_induction emissions s with
  | case1 => simp
  | case2 b rest ih =>
      intro emission member
      rcases List.mem_cons.mp member with rfl | later
      · exact scanStep_shown (b :: rest)
      · exact ih emission later

/-- The written text starts and ends in a shown rune, up to one blank at its end. -/
def Settled (out : Bytes) (lastWasSpace : Bool) : Prop :=
  out = [] ∨
    (∃ r rest, validRune r ∧ isSpace r = false ∧ out = encodeRune r ++ rest) ∧
      ∃ front r, validRune r ∧ isSpace r = false ∧
        out = front ++ encodeRune r ++ if lastWasSpace then [blank] else []

theorem settled_append {out : Bytes} {lastWasSpace : Bool} {r : Nat}
    (settled : Settled out lastWasSpace) (scalar : validRune r) (shown : isSpace r = false) :
    Settled (out ++ encodeRune r) false := by
  right
  refine ⟨?_, out, r, scalar, shown, by simp⟩
  rcases settled with rfl | ⟨⟨first, rest, first_scalar, first_shown, rfl⟩, _⟩
  · exact ⟨r, [], scalar, shown, by simp⟩
  · exact ⟨first, rest ++ encodeRune r, first_scalar, first_shown, by simp⟩

theorem Emission.write_settled {out : Bytes} {lastWasSpace : Bool} {emission : Emission}
    (settled : Settled out lastWasSpace) (shown : emission.Shown) :
    Settled (emission.write out lastWasSpace) (emission == .space) := by
  cases emission with
  | value =>
      have text : encodeRune 0x3F = [mark] := by decide
      rw [write, ← text]
      exact settled_append settled (by decide) (by decide)
  | char r => exact settled_append settled shown.1 shown.2
  | space =>
      simp only [write, beq_self_eq_true]
      rcases settled with rfl | ⟨⟨first, rest, scalar, nonspace, front_eq⟩, front, r, last⟩
      · left
        simp
      · right
        cases lastWasSpace with
        | true =>
            simp only [Bool.not_true, Bool.false_and, Bool.false_eq_true, if_false]
            exact ⟨⟨first, rest, scalar, nonspace, front_eq⟩, front, r, last⟩
        | false =>
            obtain ⟨last_scalar, last_nonspace, out_eq⟩ := last
            have nonempty : 0 < out.length := by
              rw [front_eq, List.length_append]
              have := List.length_pos_iff.mpr (encodeRune_ne_nil first)
              omega
            simp only [Bool.not_false, Bool.true_and, decide_eq_true_eq, if_pos nonempty]
            refine ⟨⟨first, rest ++ [blank], scalar, nonspace, ?_⟩, front, r, last_scalar,
              last_nonspace, ?_⟩
            · rw [front_eq, List.append_assoc]
            · simp only [Bool.false_eq_true, if_false, List.append_nil] at out_eq
              rw [out_eq]
              rfl

theorem written_settled {out : Bytes} {lastWasSpace : Bool} {list : List Emission}
    (settled : Settled out lastWasSpace) (shown : ∀ emission ∈ list, emission.Shown) :
    ∃ trailing, Settled (written out lastWasSpace list) trailing := by
  induction list generalizing out lastWasSpace with
  | nil => exact ⟨lastWasSpace, settled⟩
  | cons emission rest ih =>
      exact ih (Emission.write_settled settled (shown emission List.mem_cons_self))
        fun later member => shown later (List.mem_cons_of_mem emission member)

/-- Trimming removes the trailing blank and nothing else. -/
theorem trimSpace_settled {out : Bytes} {lastWasSpace : Bool} (settled : Settled out lastWasSpace) :
    (out = [] ∧ trimSpace out = []) ∨
      ∃ front r, validRune r ∧ isSpace r = false ∧ trimSpace out = front ++ encodeRune r ∧
        out = trimSpace out ++ if lastWasSpace then [blank] else [] := by
  rcases settled with rfl | ⟨⟨first, rest, scalar, nonspace, front_eq⟩, front, r, last_scalar,
    last_nonspace, out_eq⟩
  · left
    simp [trimSpace, trimLeft, trimRight]
  · have left_eq : trimLeft isSpace out = out := by
      apply trimLeft_eq_self
      rw [front_eq, decodeRune_encodeRune rest scalar]
      exact nonspace
    have text : encodeRune 0x20 = [blank] := by decide
    have trimmed : trimSpace out = front ++ encodeRune r := by
      rw [trimSpace, left_eq, out_eq]
      cases lastWasSpace with
      | true =>
          rw [if_pos rfl, ← text, trimRight_append_drop _ (by decide) (by decide),
            trimRight_append_keep front last_scalar last_nonspace]
      | false =>
          rw [if_neg Bool.false_ne_true, List.append_nil,
            trimRight_append_keep front last_scalar last_nonspace]
    exact .inr ⟨front, r, last_scalar, last_nonspace, trimmed, by rw [trimmed, ← out_eq]⟩

/-! ## Counting bytes of the preview -/

/-- Bytes that an emission always writes. -/
def Emission.bytes : Emission → Bytes
  | .value => [mark]
  | .space => []
  | .char r => encodeRune r

theorem Emission.count_write {b : UInt8} (other : b ≠ blank) (out : Bytes) (lastWasSpace : Bool)
    (emission : Emission) :
    (emission.write out lastWasSpace).count b = out.count b + emission.bytes.count b := by
  cases emission with
  | value => simp [write, bytes]
  | space =>
      simp only [write, bytes]
      split_ifs <;> simp [other.symm]
  | char r => simp [write, bytes]

theorem count_written {b : UInt8} (other : b ≠ blank) (out : Bytes) (lastWasSpace : Bool)
    (list : List Emission) :
    (written out lastWasSpace list).count b =
      out.count b + (list.flatMap Emission.bytes).count b := by
  induction list generalizing out lastWasSpace with
  | nil => simp [written]
  | cons emission rest ih =>
      rw [written, ih, Emission.count_write other, List.flatMap_cons, List.count_append]
      omega

/-- A byte other than the blank occurs in the preview as often as it is emitted. -/
theorem count_fullPreview {b : UInt8} (other : b ≠ blank) (query : Bytes) :
    (fullPreview query).count b = ((emissions query).flatMap Emission.bytes).count b := by
  obtain ⟨trailing, settled⟩ := written_settled (.inl rfl) (emissions_shown query)
  have total := count_written other [] false (emissions query)
  rw [List.count_nil, Nat.zero_add] at total
  rw [← total, fullPreview]
  rcases trimSpace_settled settled with ⟨out_eq, trimmed⟩ | ⟨_, _, _, _, _, out_eq⟩
  · rw [trimmed, out_eq]
  · conv_rhs => rw [out_eq]
    cases trailing <;> simp [other.symm]

theorem count_value_le (list : List Emission) :
    list.count .value ≤ (list.flatMap Emission.bytes).count mark := by
  induction list with
  | nil => simp
  | cons emission rest ih =>
      rw [List.flatMap_cons, List.count_append]
      cases emission with
      | value =>
          rw [List.count_cons_self, Emission.bytes, List.count_singleton_self]
          omega
      | space => simpa [Emission.bytes] using ih
      | char r =>
          rw [List.count_cons_of_ne (by simp)]
          omega

end CommonGo.Redact
