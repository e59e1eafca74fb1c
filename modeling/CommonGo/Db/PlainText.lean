import CommonGo.Db.Literal

/-!
# Text outside literals

Text in which no byte opens a literal is read rune by rune, and number by number, up to the next
byte that can end a number.  What the loop emits for it does not depend on what follows.
-/

namespace CommonGo.Redact

open Go

/-- A byte that starts no literal in front of the given text. -/
structure PlainByte (b : UInt8) (rest : Bytes) : Prop where
  /-- The byte is not a quote. -/
  not_quote : b ≠ quote
  /-- It does not start an escape string. -/
  not_escape : ¬ isEscapeStringStart (b :: rest) 0
  /-- It does not start a dollar-quoted literal. -/
  not_dollar : dollarQuoteDelimiter (b :: rest) 0 = none

/-- A byte that opens no literal in front of any text. -/
def Inert (b : UInt8) : Prop := b ≠ quote ∧ b ≠ dollar ∧ b ≠ upperE ∧ b ≠ lowerE

theorem Inert.plainByte {b : UInt8} (inert : Inert b) (rest : Bytes) : PlainByte b rest := by
  obtain ⟨not_quote, not_dollar, not_upper, not_lower⟩ := inert
  exact ⟨not_quote, not_isEscapeStringStart rest not_upper not_lower,
    dollarQuoteDelimiter_of_ne rest not_dollar⟩

/-- Text in which no byte starts a literal in front of the given rest. -/
def PlainText : Bytes → Bytes → Prop
  | [], _ => True
  | b :: text, rest => PlainByte b (text ++ rest) ∧ PlainText text rest

/-- The end of the query, or an ASCII byte that ends every number in front of it. -/
def Breaks (rest : Bytes) : Prop :=
  ∀ b tail, rest = b :: tail → isAscii b ∧ isDigit b.toNat = false ∧ b ≠ dot

theorem numericLen_cons_of_ascii {b : UInt8} (rest : Bytes) (ascii : isAscii b) :
    numericLen (b :: rest) =
      if isDigit b.toNat || b.toNat == dot.toNat then 1 + numericLen rest else 0 := by
  rw [numericLen, decodeRune_ascii rest ascii]
  rfl

theorem numericLen_of_breaks {rest : Bytes} (breaks : Breaks rest) : numericLen rest = 0 := by
  cases rest with
  | nil => simp [numericLen]
  | cons b tail =>
      obtain ⟨ascii, not_digit, not_dot⟩ := breaks b tail rfl
      rw [numericLen_cons_of_ascii _ ascii, if_neg]
      simp only [not_digit, Bool.false_or, beq_iff_eq, UInt8.toNat_inj]
      exact not_dot

theorem decodeRune_append_of_breaks {text rest : Bytes} (nonempty : text ≠ [])
    (breaks : Breaks rest) : decodeRune (text ++ rest) = decodeRune text := by
  cases rest with
  | nil => rw [List.append_nil]
  | cons b tail => exact decodeRune_append_ascii tail nonempty (breaks b tail rfl).1

/-- A number inside text ends with the text. -/
theorem numericLen_append_of_breaks (text : Bytes) {rest : Bytes} (breaks : Breaks rest) :
    numericLen (text ++ rest) = numericLen text := by
  fun_induction numericLen text with
  | case1 => simpa using numericLen_of_breaks breaks
  | case2 b text continues ih =>
      have decode_eq := decodeRune_append_of_breaks (List.cons_ne_nil b text) breaks
      rw [numericLen_eq (by simp), decode_eq, if_pos continues,
        List.drop_append_of_le_length (decodeRune_width_le _), ih]
  | case3 b text stops =>
      have decode_eq := decodeRune_append_of_breaks (List.cons_ne_nil b text) breaks
      rw [numericLen_eq (by simp), decode_eq, if_neg stops]

theorem numericLen_le (s : Bytes) : numericLen s ≤ s.length := by
  fun_induction numericLen s with
  | case1 => simp
  | case2 b text continues ih =>
      have width_le := decodeRune_width_le (b :: text)
      rw [List.length_drop] at ih
      omega
  | case3 => simp

/-- A byte that starts no literal in front of a text starts none in front of a shorter one. -/
theorem PlainByte.of_append {b : UInt8} {text rest : Bytes} (plain : PlainByte b (text ++ rest)) :
    PlainByte b text := by
  refine ⟨plain.not_quote, ?_, ?_⟩
  · intro escape
    apply plain.not_escape
    rw [isEscapeStringStart_cons] at escape ⊢
    refine ⟨escape.1, ?_⟩
    cases text with
    | nil => simp at escape
    | cons c text => exact escape.2
  · cases opens : dollarQuoteDelimiter (b :: text) 0 with
    | none => rfl
    | some delimiter =>
        obtain ⟨tag, tail, valid, _, s_eq⟩ := dollarQuoteDelimiter_eq_some opens
        have longer := plain.not_dollar
        rw [← List.cons_append, s_eq, List.append_assoc,
          dollarQuoteDelimiter_delimiterOf _ valid] at longer
        contradiction

theorem PlainText.drop {text rest : Bytes} (plain : PlainText text rest) (size : Nat) :
    PlainText (text.drop size) rest := by
  induction text generalizing size with
  | nil => simpa using plain
  | cons b text ih =>
      cases size with
      | zero => exact plain
      | succ size => exact ih plain.2 size

/-- One turn of the loop at a plain byte sees nothing behind the byte that breaks the text off. -/
theorem scanStep_plainByte {b : UInt8} {text rest : Bytes} (plain : PlainByte b (text ++ rest))
    (breaks : Breaks rest) :
    scanStep (b :: text ++ rest) = scanStep (b :: text) ∧
      (scanStep (b :: text)).2 ≤ (b :: text).length := by
  have alone := plain.of_append
  have decode_eq := decodeRune_append_of_breaks (List.cons_ne_nil b text) breaks
  have width_le := decodeRune_width_le (b :: text)
  have number_le := numericLen_le ((b :: text).drop (decodeRune (b :: text)).2)
  rw [List.length_drop] at number_le
  have number_eq := numericLen_append_of_breaks ((b :: text).drop (decodeRune (b :: text)).2) breaks
  rw [← List.drop_append_of_le_length width_le] at number_eq
  rw [scanStep_of_plain alone.not_escape alone.not_dollar, List.cons_append,
    scanStep_of_plain plain.not_escape plain.not_dollar, ← List.cons_append, decode_eq,
    number_eq, if_neg alone.not_quote, if_neg alone.not_quote]
  refine ⟨rfl, ?_⟩
  split_ifs
  · exact width_le
  · simp only
    omega
  · exact width_le

/-- The loop reads plain text up to the byte that breaks it off. -/
theorem reads_plainText {text rest : Bytes} (plain : PlainText text rest) (breaks : Breaks rest) :
    Reads (text ++ rest) (emissions text) rest := by
  generalize size_eq : text.length = size
  induction size using Nat.strong_induction_on generalizing text with
  | _ size ih =>
      cases text with
      | nil =>
          rw [emissions_nil]
          exact .refl rest
      | cons b text =>
          obtain ⟨step_eq, step_le⟩ := scanStep_plainByte plain.1 breaks
          have advance := scanStep_pos (List.cons_ne_nil b text)
          have later := ih _ (by rw [← size_eq, List.length_drop]; omega)
            (plain.drop (scanStep (b :: text)).2) rfl
          rw [emissions_eq (List.cons_ne_nil b text)]
          have first : Reads (b :: text ++ rest) [(scanStep (b :: text)).1]
              ((b :: text).drop (scanStep (b :: text)).2 ++ rest) :=
            .single (by simp) step_eq (List.drop_append_of_le_length step_le)
          exact first.trans later

/-- Text without quotes and dollars opens no literal, unless an `E` stands directly in front of a
quote. -/
theorem plainText_of_clean {text rest : Bytes} (clean : ∀ b ∈ text, b ≠ quote ∧ b ≠ dollar)
    (unprefixed : rest.head? = some quote →
      text.getLast? ≠ some upperE ∧ text.getLast? ≠ some lowerE) : PlainText text rest := by
  induction text with
  | nil => trivial
  | cons b text ih =>
      obtain ⟨not_quote, not_dollar⟩ := clean b List.mem_cons_self
      have clean_tail : ∀ c ∈ text, c ≠ quote ∧ c ≠ dollar := fun c member =>
        clean c (List.mem_cons_of_mem b member)
      refine ⟨⟨not_quote, ?_, dollarQuoteDelimiter_of_ne _ not_dollar⟩,
        ih clean_tail fun next => ?_⟩
      · rw [isEscapeStringStart_cons]
        rintro ⟨letter, next⟩
        cases text with
        | nil =>
            have := unprefixed (by simpa using next)
            rcases letter with rfl | rfl <;> simp at this
        | cons c text => exact (clean_tail c List.mem_cons_self).1 (by simpa using next)
      · cases text with
        | nil => simp
        | cons c text => simpa using unprefixed next

/-- An ASCII byte of no special meaning is copied. -/
theorem scanStep_char {b : UInt8} {rest : Bytes} (plain : PlainByte b rest) (ascii : isAscii b)
    (not_space : isSpace b.toNat = false) (not_digit : isDigit b.toNat = false) :
    scanStep (b :: rest) = (.char b.toNat, 1) := by
  rw [scanStep_of_plain plain.not_escape plain.not_dollar, if_neg plain.not_quote,
    decodeRune_ascii rest ascii]
  simp [not_space, not_digit]

/-- A turn that shows no value copies one rune, which is no quote. -/
theorem scanStep_copied {s : Bytes} (copied : (scanStep s).1 ≠ .value) :
    (decodeRune s).1 ≠ quote.toNat ∧ (scanStep s).2 = (decodeRune s).2 := by
  unfold scanStep at copied ⊢
  split_ifs at copied ⊢ with escape
  · exact absurd rfl copied
  all_goals
    split at copied
    · exact absurd rfl copied
    · first
        | exact absurd rfl copied
        | exact ⟨‹_›, rfl⟩

theorem quote_mem_drop {s : Bytes} (copied : (scanStep s).1 ≠ .value) (member : quote ∈ s) :
    quote ∈ s.drop (scanStep s).2 := by
  obtain ⟨rune_ne, width_eq⟩ := scanStep_copied copied
  rw [width_eq]
  rw [← List.take_append_drop (decodeRune s).2 s, List.mem_append] at member
  refine member.resolve_left fun read => ?_
  cases s with
  | nil => simp at read
  | cons b rest =>
      cases ascii : isAscii b with
      | true =>
          rw [decodeRune_ascii rest ascii] at rune_ne read
          rw [List.take_succ_cons, List.take_zero, List.mem_singleton] at read
          exact rune_ne (by rw [read])
      | false =>
          have nonascii := (decodeRune_nonascii rest ascii).2.2.2 quote read
          exact absurd nonascii (by decide)

/-- A quote makes the loop show a value. -/
theorem value_mem_emissions {s : Bytes} (member : quote ∈ s) : .value ∈ emissions s := by
  fun_induction emissions s with
  | case1 => simp at member
  | case2 b rest ih =>
      by_cases copied : (scanStep (b :: rest)).1 = .value
      · rw [copied]
        exact List.mem_cons_self
      · exact List.mem_cons_of_mem _ (ih (quote_mem_drop copied member))

theorem emissions_char {b : UInt8} {rest : Bytes} (plain : PlainByte b rest) (ascii : isAscii b)
    (not_space : isSpace b.toNat = false) (not_digit : isDigit b.toNat = false) :
    emissions (b :: rest) = .char b.toNat :: emissions rest := by
  rw [emissions_eq (List.cons_ne_nil b rest), scanStep_char plain ascii not_space not_digit]
  rfl

end CommonGo.Redact
