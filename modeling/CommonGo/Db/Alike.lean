import CommonGo.Db.PlainText
import CommonGo.Go.Strconv

/-!
# Queries that differ only inside values

Two queries are alike when they agree byte for byte outside string literals and numbers.  The
scanning loop cannot tell them apart: from alike suffixes it makes the same emission and reaches
alike suffixes again.  Numbers are where its turns and the tokens differ, since a number swallows
the digits and points of the text around it.
-/

namespace CommonGo.Redact

open Go

/-- An unsigned decimal numeral: a digit, then digits and points. -/
structure Numeral where
  /-- The first byte. -/
  head : UInt8
  /-- The other bytes. -/
  tail : Bytes
  /-- The numeral begins with a digit. -/
  head_digit : isDecimal head
  /-- Digits and points follow. -/
  tail_digits : ∀ b ∈ tail, isDecimal b ∨ b = dot

/-- Text of a numeral. -/
def Numeral.text (numeral : Numeral) : Bytes := numeral.head :: numeral.tail

/-- Queries with the same text outside their literals and numbers. -/
inductive Alike : Bytes → Bytes → Prop
  | same (s : Bytes) : Alike s s
  | byte {b : UInt8} {s t : Bytes} : PlainByte b s → PlainByte b t → Alike s t →
      Alike (b :: s) (b :: t)
  | literal (left right : StringLiteral) {s t : Bytes} : left.Closed s → right.Closed t →
      Alike s t → Alike (left.text ++ s) (right.text ++ t)
  | number (left right : Numeral) {s t : Bytes} : Alike s t →
      Alike (left.text ++ s) (right.text ++ t)

theorem isDecimal_isAscii {b : UInt8} (digit : isDecimal b) : isAscii b := by
  simp only [isDecimal, isAscii, Bool.and_eq_true, decide_eq_true_eq] at digit ⊢
  omega

theorem isDecimal_isDigit {b : UInt8} (digit : isDecimal b) : isDigit b.toNat := by
  simp only [isDecimal, Bool.and_eq_true, decide_eq_true_eq] at digit
  rw [isDigit_ascii (by omega)]
  exact digit

/-- A number reads the digits and points of a numeral. -/
theorem numericLen_append {digits : Bytes} (rest : Bytes)
    (numeric : ∀ b ∈ digits, isDecimal b ∨ b = dot) :
    numericLen (digits ++ rest) = digits.length + numericLen rest := by
  induction digits with
  | nil => simp
  | cons b digits ih =>
      have tail := ih fun c member => numeric c (List.mem_cons_of_mem b member)
      rw [List.cons_append, List.length_cons]
      rcases numeric b List.mem_cons_self with digit | rfl
      · rw [numericLen_cons_of_ascii _ (isDecimal_isAscii digit), isDecimal_isDigit digit, tail]
        simp only [Bool.true_or, if_true]
        omega
      · rw [numericLen_cons_of_ascii _ (by decide), tail]
        simp only [beq_self_eq_true, Bool.or_true, if_true]
        omega

theorem Numeral.digits (numeral : Numeral) : ∀ b ∈ numeral.text, isDecimal b ∨ b = dot := by
  intro b member
  rcases List.mem_cons.mp member with rfl | later
  · exact .inl numeral.head_digit
  · exact numeral.tail_digits b later

/-- One turn of the loop reads a numeral with the digits and points behind it. -/
theorem scanStep_number (numeral : Numeral) (rest : Bytes) :
    scanStep (numeral.text ++ rest) = (.value, numeral.text.length + numericLen rest) := by
  have ascii := isDecimal_isAscii numeral.head_digit
  have range := numeral.head_digit
  simp only [isDecimal, Bool.and_eq_true, decide_eq_true_eq] at range
  have head_ne : ∀ b : UInt8, b.toNat < 0x30 ∨ 0x39 < b.toNat → numeral.head ≠ b := by
    rintro b outside rfl
    omega
  have not_space : isSpace numeral.head.toNat = false := by
    cases space : isSpace numeral.head.toNat with
    | false => rfl
    | true =>
        have := isDigit_of_isSpace space
        rw [isDecimal_isDigit numeral.head_digit] at this
        contradiction
  rw [Numeral.text, List.cons_append, scanStep_of_plain]
  · rw [if_neg (head_ne quote (by decide)), decodeRune_ascii _ ascii, not_space,
      isDecimal_isDigit numeral.head_digit]
    simp only [Bool.false_eq_true, if_false, if_true, List.drop_succ_cons, List.drop_zero]
    rw [numericLen_append rest numeral.tail_digits, List.length_cons]
    rw [Prod.mk.injEq]
    exact ⟨rfl, by omega⟩
  · exact not_isEscapeStringStart _ (head_ne upperE (by decide)) (head_ne lowerE (by decide))
  · exact dollarQuoteDelimiter_of_ne _ (head_ne dollar (by decide))

/-- The first byte of a literal is ASCII and neither a digit nor a point. -/
theorem StringLiteral.exists_head (literal : StringLiteral) :
    ∃ b rest, literal.text = b :: rest ∧ isAscii b ∧ isDigit b.toNat = false ∧ b ≠ dot := by
  cases literal with
  | standard v => exact ⟨_, _, rfl, by decide, by decide, by decide⟩
  | escape upper items =>
      cases upper
      · exact ⟨_, _, rfl, by decide, by decide, by decide⟩
      · exact ⟨_, _, rfl, by decide, by decide, by decide⟩
  | dollar literal => exact ⟨_, _, rfl, by decide, by decide, by decide⟩

namespace Alike

/-- Common text in front of alike queries. -/
theorem append_left {text s t : Bytes} (alike : Alike s t) (plain_s : PlainText text s)
    (plain_t : PlainText text t) : Alike (text ++ s) (text ++ t) := by
  induction text with
  | nil => exact alike
  | cons b text ih => exact .byte plain_s.1 plain_t.1 (ih plain_s.2 plain_t.2)

/-- Alike queries share their text up to the first value or the end. -/
theorem common_text {s t : Bytes} (alike : Alike s t) :
    ∃ text s' t', s = text ++ s' ∧ t = text ++ t' ∧
      (∀ size ≤ text.length, Alike (s.drop size) (t.drop size)) ∧
      ((s' = [] ∧ t' = []) ∨
        ∃ a b s'' t'', isAscii a ∧ isAscii b ∧ s' = a :: s'' ∧ t' = b :: t'') := by
  induction alike with
  | same s => exact ⟨s, [], [], by simp, by simp, fun size _ => .same _, .inl ⟨rfl, rfl⟩⟩
  | @byte b s t plain_s plain_t alike ih =>
      obtain ⟨text, s', t', rfl, rfl, drops, ends⟩ := ih
      refine ⟨b :: text, s', t', rfl, rfl, ?_, ends⟩
      intro size size_le
      cases size with
      | zero => exact .byte plain_s plain_t alike
      | succ size => exact drops size (by simpa using size_le)
  | @literal left right s t closed_s closed_t alike ih =>
      refine ⟨[], left.text ++ s, right.text ++ t, rfl, rfl, ?_, .inr ?_⟩
      · intro size size_le
        obtain rfl : size = 0 := by simpa using size_le
        exact .literal left right closed_s closed_t alike
      · obtain ⟨a, left_rest, left_eq, left_ascii, _⟩ := left.exists_head
        obtain ⟨b, right_rest, right_eq, right_ascii, _⟩ := right.exists_head
        exact ⟨a, b, left_rest ++ s, right_rest ++ t, left_ascii, right_ascii,
          by rw [left_eq, List.cons_append], by rw [right_eq, List.cons_append]⟩
  | @number left right s t alike ih =>
      refine ⟨[], left.text ++ s, right.text ++ t, rfl, rfl, ?_, .inr ?_⟩
      · intro size size_le
        obtain rfl : size = 0 := by simpa using size_le
        exact .number left right alike
      · exact ⟨left.head, right.head, left.tail ++ s, right.tail ++ t,
          isDecimal_isAscii left.head_digit, isDecimal_isAscii right.head_digit, rfl, rfl⟩

/-- Alike queries that start with the same text byte decode to the same rune. -/
theorem rune {s t : Bytes} (b : UInt8) (alike : Alike s t) :
    decodeRune (b :: s) = decodeRune (b :: t) ∧
      Alike ((b :: s).drop (decodeRune (b :: s)).2) ((b :: t).drop (decodeRune (b :: t)).2) := by
  obtain ⟨text, s', t', rfl, rfl, drops, ends⟩ := alike.common_text
  have decodes : decodeRune (b :: (text ++ s')) = decodeRune (b :: text) ∧
      decodeRune (b :: (text ++ t')) = decodeRune (b :: text) := by
    rcases ends with ⟨rfl, rfl⟩ | ⟨a, c, s'', t'', a_ascii, c_ascii, rfl, rfl⟩
    · simp
    · rw [← List.cons_append, ← List.cons_append]
      exact ⟨decodeRune_append_ascii s'' (by simp) a_ascii,
        decodeRune_append_ascii t'' (by simp) c_ascii⟩
  rw [decodes.1, decodes.2]
  refine ⟨rfl, ?_⟩
  have width_pos := decodeRune_width_pos (List.cons_ne_nil b text)
  have width_le := decodeRune_width_le (b :: text)
  obtain ⟨width, width_eq⟩ : ∃ width, (decodeRune (b :: text)).2 = width + 1 :=
    ⟨(decodeRune (b :: text)).2 - 1, by omega⟩
  rw [width_eq] at width_le ⊢
  exact drops width (by simpa using width_le)

/-- A number that starts inside alike queries ends at alike suffixes. -/
theorem drop_numericLen {s t : Bytes} (alike : Alike s t) :
    Alike (s.drop (numericLen s)) (t.drop (numericLen t)) := by
  generalize size_eq : s.length = size
  induction size using Nat.strong_induction_on generalizing s t with
  | _ size ih =>
      cases alike with
      | same => exact .same _
      | @byte b s t plain_s plain_t alike =>
          obtain ⟨decode_eq, rest_alike⟩ := alike.rune b
          rw [numericLen_eq (List.cons_ne_nil b s), numericLen_eq (List.cons_ne_nil b t), decode_eq]
          split_ifs
          · rw [← List.drop_drop, ← List.drop_drop]
            refine ih _ ?_ (by simpa only [decode_eq] using rest_alike) rfl
            have := decodeRune_width_pos (List.cons_ne_nil b t)
            rw [← size_eq, List.length_drop, List.length_cons]
            omega
          · exact .byte plain_s plain_t alike
      | @literal left right s t closed_s closed_t alike =>
          have stops : ∀ (literal : StringLiteral) (rest : Bytes),
              numericLen (literal.text ++ rest) = 0 := by
            intro literal rest
            obtain ⟨b, tail, text_eq, ascii, not_digit, not_dot⟩ := literal.exists_head
            rw [text_eq, List.cons_append, numericLen_cons_of_ascii _ ascii, if_neg]
            simp only [not_digit, Bool.false_or, beq_iff_eq, UInt8.toNat_inj]
            exact not_dot
          rw [stops, stops]
          exact .literal left right closed_s closed_t alike
      | @number left right s t alike =>
          have swallowed : ∀ (numeral : Numeral) (rest : Bytes),
              (numeral.text ++ rest).drop (numericLen (numeral.text ++ rest)) =
                rest.drop (numericLen rest) := by
            intro numeral rest
            rw [numericLen_append rest numeral.digits, ← List.drop_drop, List.drop_left]
          rw [swallowed, swallowed]
          refine ih _ ?_ alike rfl
          rw [← size_eq, List.length_append, Numeral.text, List.length_cons]
          omega

/-- One turn of the loop: alike suffixes make the same emission and stay alike. -/
theorem step {s t : Bytes} (alike : Alike s t) :
    (s = [] ∧ t = []) ∨
      (s ≠ [] ∧ t ≠ [] ∧ (scanStep s).1 = (scanStep t).1 ∧
        Alike (s.drop (scanStep s).2) (t.drop (scanStep t).2)) := by
  cases alike with
  | same =>
      by_cases empty : s = []
      · exact .inl ⟨empty, empty⟩
      · exact .inr ⟨empty, empty, rfl, .same _⟩
  | @byte b s t plain_s plain_t alike =>
      right
      obtain ⟨decode_eq, rest_alike⟩ := alike.rune b
      refine ⟨by simp, by simp, ?_⟩
      rw [scanStep_of_plain plain_s.not_escape plain_s.not_dollar,
        scanStep_of_plain plain_t.not_escape plain_t.not_dollar,
        if_neg plain_s.not_quote, if_neg plain_t.not_quote, decode_eq]
      rw [decode_eq] at rest_alike
      split_ifs
      · exact ⟨rfl, rest_alike⟩
      · refine ⟨rfl, ?_⟩
        simp only
        rw [← List.drop_drop, ← List.drop_drop]
        exact rest_alike.drop_numericLen
      · exact ⟨rfl, rest_alike⟩
  | literal left right closed_s closed_t alike =>
      right
      rw [scanStep_literal left closed_s, scanStep_literal right closed_t]
      exact ⟨by simp [left.text_ne_nil], by simp [right.text_ne_nil], rfl, by simpa using alike⟩
  | @number left right s t alike =>
      right
      rw [scanStep_number, scanStep_number]
      refine ⟨by simp [Numeral.text], by simp [Numeral.text], rfl, ?_⟩
      simp only
      rw [← List.drop_drop, List.drop_left, ← List.drop_drop, List.drop_left]
      exact alike.drop_numericLen

/-- The scans of alike queries cannot be told apart. -/
theorem emissions_eq {s t : Bytes} (alike : Alike s t) : emissions s = emissions t := by
  generalize size_eq : s.length = size
  induction size using Nat.strong_induction_on generalizing s t with
  | _ size ih =>
      rcases alike.step with ⟨rfl, rfl⟩ | ⟨nonempty_s, nonempty_t, same, rest⟩
      · rfl
      · rw [Redact.emissions_eq nonempty_s, Redact.emissions_eq nonempty_t, same]
        have advance := scanStep_pos nonempty_s
        have length_pos := List.length_pos_iff.mpr nonempty_s
        rw [ih _ (by rw [← size_eq, List.length_drop]; omega) rest rfl]

/-- Alike queries have the same preview and the same truncation flag under every budget. -/
theorem redact_eq {s t : Bytes} (alike : Alike s t) (maxBytes : Nat) :
    redactSQLValues s maxBytes = redactSQLValues t maxBytes := by
  rw [redactSQLValues_eq, redactSQLValues_eq, alike.emissions_eq]

theorem samePreview {s t : Bytes} (alike : Alike s t) : SamePreview s t := by
  intro maxBytes _ _ _
  rw [alike.redact_eq]

end Alike

end CommonGo.Redact
