import CommonGo.Db.Skeleton

/-!
# Quoted identifiers and comments

The redactor knows neither quoted identifiers nor comments, so an apostrophe or a dollar quote in
them opens a literal.  Text in front of a literal either closes what it opens, and is then read the
same whatever follows, or leaves a literal open, which the next literal of the statement closes
instead of the text.
-/

namespace CommonGo.Redact

open Go

/-! ## Splitting off a literal -/

/-- Text behind an opening quote runs up to a closing quote or to its end. -/
theorem exists_doubled (s : Bytes) :
    ∃ v tail, s = doubled quote v ++ tail ∧
      (tail = [] ∨ ∃ rest, tail = quote :: rest ∧ rest.head? ≠ some quote) := by
  fun_induction quotedLen s with
  | case1 => exact ⟨[], [], rfl, .inl rfl⟩
  | case2 b =>
      by_cases b_eq : b = quote
      · exact ⟨[], [b], rfl, .inr ⟨[], by rw [b_eq], by simp⟩⟩
      · exact ⟨[b], [], by simp [doubled, b_eq], .inl rfl⟩
  | case3 b c rest other ih =>
      obtain ⟨v, tail, text, ends⟩ := ih
      exact ⟨b :: v, tail, by rw [doubled_cons_of_ne v other, List.cons_append, ← text], ends⟩
  | case4 b rest is_quote ih =>
      obtain ⟨v, tail, text, ends⟩ := ih
      obtain rfl : b = quote := not_not.mp is_quote
      refine ⟨quote :: v, tail, ?_, ends⟩
      rw [doubled_cons_self, List.cons_append, List.cons_append, ← text]
  | case5 b c rest is_quote other =>
      obtain rfl : b = quote := not_not.mp is_quote
      exact ⟨[], quote :: c :: rest, rfl, .inr ⟨c :: rest, rfl, by simpa using other⟩⟩

/-- The same with backslash escapes; a backslash may also be the last byte. -/
theorem exists_escapeBody (s : Bytes) :
    ∃ items tail, s = escapeBody items ++ tail ∧
      (tail = [] ∨ tail = [backslash] ∨
        ∃ rest, tail = quote :: rest ∧ rest.head? ≠ some quote) := by
  have prepend : ∀ (item : EscapeItem) (items : List EscapeItem),
      escapeBody (item :: items) = item.text ++ escapeBody items := fun _ _ => rfl
  fun_induction escapeLen s with
  | case1 => exact ⟨[], [], rfl, .inl rfl⟩
  | case2 b =>
      by_cases is_backslash : b = backslash
      · exact ⟨[], [b], rfl, .inr (.inl (by rw [is_backslash]))⟩
      · by_cases is_quote : b = quote
        · exact ⟨[], [b], rfl, .inr (.inr ⟨[], by rw [is_quote], by simp⟩)⟩
        · exact ⟨[.plain b is_quote is_backslash], [], rfl, .inl rfl⟩
  | case3 c rest ih =>
      obtain ⟨items, tail, text, ends⟩ := ih
      exact ⟨.escaped c :: items, tail, by rw [prepend, List.append_assoc, ← text]; rfl, ends⟩
  | case4 b c rest not_backslash not_quote ih =>
      obtain ⟨items, tail, text, ends⟩ := ih
      exact ⟨.plain b not_quote not_backslash :: items, tail,
        by rw [prepend, List.append_assoc, ← text]; rfl, ends⟩
  | case5 b rest not_backslash is_quote ih =>
      obtain ⟨items, tail, text, ends⟩ := ih
      obtain rfl : b = quote := not_not.mp is_quote
      exact ⟨.quotes :: items, tail, by rw [prepend, List.append_assoc, ← text]; rfl, ends⟩
  | case6 b c rest not_backslash is_quote other =>
      obtain rfl : b = quote := not_not.mp is_quote
      exact ⟨[], quote :: c :: rest, rfl, .inr (.inr ⟨c :: rest, rfl, by simpa using other⟩)⟩

/-! ## Turns outside literals -/

theorem inert_of_nonascii {b : UInt8} (nonascii : isAscii b = false) : Inert b := by
  refine ⟨?_, ?_, ?_, ?_⟩ <;> rintro rfl <;> exact absurd nonascii (by decide)

theorem plainText_of_inert {text : Bytes} (inert : ∀ b ∈ text, Inert b) (rest : Bytes) :
    PlainText text rest := by
  induction text with
  | nil => trivial
  | cons b text ih =>
      exact ⟨(inert b List.mem_cons_self).plainByte _,
        ih fun c member => inert c (List.mem_cons_of_mem b member)⟩

theorem inert_numericLen (s : Bytes) : ∀ b ∈ s.take (numericLen s), Inert b := by
  fun_induction numericLen s with
  | case1 => simp
  | case2 b rest continues ih =>
      intro c member
      rw [List.take_add, List.mem_append] at member
      refine member.elim (fun rune => ?_) (ih c)
      cases ascii : isAscii b with
      | true =>
          rw [decodeRune_ascii rest ascii] at continues rune
          obtain rfl : c = b := by simpa using rune
          refine ⟨?_, ?_, ?_, ?_⟩ <;> rintro rfl <;> exact absurd continues (by decide)
      | false => exact inert_of_nonascii ((decodeRune_nonascii rest ascii).2.2.2 c rune)
  | case3 => simp

/-- A turn outside literals reads no byte that could open one, except for its first. -/
theorem inert_turn {b : UInt8} {rest : Bytes} (plain : PlainByte b rest) :
    ∀ c ∈ ((b :: rest).take (scanStep (b :: rest)).2).tail, Inert c := by
  have width_pos := decodeRune_width_pos (List.cons_ne_nil b rest)
  have rune_inert : ∀ c ∈ ((b :: rest).take (decodeRune (b :: rest)).2).tail, Inert c := by
    intro c member
    cases ascii : isAscii b with
    | true =>
        rw [decodeRune_ascii rest ascii] at member
        simp at member
    | false =>
        apply inert_of_nonascii
        exact (decodeRune_nonascii rest ascii).2.2.2 c (List.mem_of_mem_tail member)
  have number_inert := inert_numericLen ((b :: rest).drop (decodeRune (b :: rest)).2)
  rw [scanStep_of_plain plain.not_escape plain.not_dollar, if_neg plain.not_quote]
  split_ifs
  · exact rune_inert
  · intro c member
    rw [List.take_add, List.tail_append_of_ne_nil (by simp; omega), List.mem_append] at member
    exact member.elim (rune_inert c) (number_inert c)
  · exact rune_inert

theorem plainText_turn {b : UInt8} {rest : Bytes} (plain : PlainByte b rest) :
    PlainText ((b :: rest).take (scanStep (b :: rest)).2)
      ((b :: rest).drop (scanStep (b :: rest)).2) := by
  have turn_inert := inert_turn plain
  have turn_pos := scanStep_pos (List.cons_ne_nil b rest)
  obtain ⟨width, width_eq⟩ : ∃ width, (scanStep (b :: rest)).2 = width + 1 :=
    ⟨(scanStep (b :: rest)).2 - 1, by omega⟩
  rw [width_eq, List.take_succ_cons, List.tail_cons] at turn_inert
  rw [width_eq, List.take_succ_cons, List.drop_succ_cons]
  exact ⟨by rwa [List.take_append_drop], plainText_of_inert turn_inert _⟩

/-! ## Text in front of a literal -/

/-- Text that is read by itself, whatever literal follows. -/
def ReadAlone (text : Bytes) : Prop :=
  PairsOff text ∧ ∃ read, ∀ s, Breaks s → Reads (text ++ s) read s

/-- Text that leaves a literal open: a suitable body of the next literal closes it, and the letter
behind the opener is copied. -/
def LeavesOpen (text : Bytes) : Prop :=
  ∃ read opener, ∀ letter : UInt8, letter = 0x78 ∨ letter = 0x79 → ∀ rest,
    Reads (text ++ (standardLiteral (opener ++ [letter]) ++ rest))
      (read ++ [.char letter.toNat]) (quote :: rest)

theorem breaks_standardLiteral (v rest : Bytes) : Breaks (standardLiteral v ++ rest) := by
  intro b tail shape
  obtain ⟨rfl, rfl⟩ := List.cons.inj shape
  decide

theorem readAlone_nil : ReadAlone [] := ⟨.nil, [], fun s _ => .refl s⟩

/-- One turn in front of text keeps what the text does. -/
theorem readAlone_or_leavesOpen_append {front text : Bytes} {emission : Emission}
    (turn : ∀ s, Breaks s → Reads (front ++ (text ++ s)) [emission] (text ++ s))
    (pairs : PairsOff text → PairsOff (front ++ text))
    (later : ReadAlone text ∨ LeavesOpen text) :
    ReadAlone (front ++ text) ∨ LeavesOpen (front ++ text) := by
  rcases later with ⟨text_pairs, read, reads⟩ | ⟨read, opener, reads⟩
  · refine .inl ⟨pairs text_pairs, emission :: read, fun s breaks => ?_⟩
    rw [List.append_assoc]
    exact (turn s breaks).trans (reads s breaks)
  · refine .inr ⟨emission :: read, opener, fun letter is_letter rest => ?_⟩
    rw [List.append_assoc]
    exact (turn _ (breaks_standardLiteral _ rest)).trans (reads letter is_letter rest)

theorem literal_readAlone_or_leavesOpen (literal : StringLiteral) {text : Bytes}
    (closed : literal.Closed text) (ends : EndsBlank (literal.text ++ text))
    (later : ReadAlone text ∨ LeavesOpen text) :
    ReadAlone (literal.text ++ text) ∨ LeavesOpen (literal.text ++ text) :=
  readAlone_or_leavesOpen_append (fun s _ => reads_literal literal (closed.append ends s))
    (.literal literal closed) later

/-- Text that the next literal completes to a literal of its own leaves that literal open. -/
theorem leavesOpen_of_literal {text : Bytes} (opener : Bytes) (literal : StringLiteral)
    (completes : ∀ letter : UInt8, letter ≠ quote → ∀ rest,
      text ++ (standardLiteral (opener ++ [letter]) ++ rest) =
        literal.text ++ letter :: quote :: rest) : LeavesOpen text := by
  refine ⟨[.value], opener, fun letter is_letter rest => ?_⟩
  have inert : Inert letter := by
    rcases is_letter with rfl | rfl <;> refine ⟨?_, ?_, ?_, ?_⟩ <;> decide
  have copied : Reads (letter :: quote :: rest) [.char letter.toNat] (quote :: rest) := by
    refine .single (List.cons_ne_nil _ _) (scanStep_char (inert.plainByte _) ?_ ?_ ?_) rfl <;>
      rcases is_letter with rfl | rfl <;> decide
  rw [completes letter inert.1 rest]
  exact (reads_literal literal (literal.closed_of_head? (by simpa using inert.1))).trans copied

theorem doubled_of_notMem {v : Bytes} (absent : quote ∉ v) : doubled quote v = v := by
  induction v with
  | nil => rfl
  | cons b v ih =>
      rw [doubled_cons_of_ne v fun equal => absent (by simp [equal]),
        ih fun member => absent (List.mem_cons_of_mem b member)]

theorem quote_notMem_delimiterOf {tag : Bytes} (valid : isTag tag) : quote ∉ delimiterOf tag := by
  intro member
  have in_tag : quote ∈ tag := by simpa [delimiterOf, quote, dollar] using member
  exact absurd (tagCont_of_mem valid in_tag) (by decide)

/-- Text behind a delimiter closes the dollar-quoted literal or leaves it open. -/
theorem dollar_readAlone_or_leavesOpen {tag text : Bytes} (valid : isTag tag)
    (ends : EndsBlank (delimiterOf tag ++ text))
    (later : ∀ front rest, text = front ++ (delimiterOf tag ++ rest) →
      ReadAlone rest ∨ LeavesOpen rest) :
    ReadAlone (delimiterOf tag ++ text) ∨ LeavesOpen (delimiterOf tag ++ text) := by
  cases found : index text (delimiterOf tag) with
  | some position =>
      obtain ⟨split, closes⟩ := index_split found
      let rest := text.drop (position + (delimiterOf tag).length)
      have length_le := index_length_le found
      let literal : DollarLiteral := ⟨tag, text.take position, valid, by
        rw [closes, List.length_take, Nat.min_eq_left (by omega)]⟩
      have whole : delimiterOf tag ++ text = (StringLiteral.dollar literal).text ++ rest := by
        conv_lhs => rw [split]
        simp [StringLiteral.text, DollarLiteral.text, literal, rest]
      rw [whole]
      rw [whole] at ends
      exact literal_readAlone_or_leavesOpen (.dollar literal) trivial ends (later _ rest split)
  | none =>
      right
      have outside := quote_notMem_delimiterOf valid
      have closes := index_append_of_none [] found outside
      refine leavesOpen_of_literal (delimiterOf tag)
        (.dollar ⟨tag, text ++ [quote], valid, by simpa using closes⟩) ?_
      intro letter not_quote rest
      have bare : doubled quote (delimiterOf tag ++ [letter]) = delimiterOf tag ++ [letter] :=
        doubled_of_notMem (by simp [outside, not_quote.symm])
      rw [standardLiteral, bare]
      simp [StringLiteral.text, DollarLiteral.text]

theorem standard_readAlone_or_leavesOpen {text : Bytes} (ends : EndsBlank (quote :: text))
    (later : ∀ front rest, quote :: text = front ++ rest → front ≠ [] →
      ReadAlone rest ∨ LeavesOpen rest) :
    ReadAlone (quote :: text) ∨ LeavesOpen (quote :: text) := by
  obtain ⟨v, tail, rfl, rfl | ⟨rest, rfl, closed⟩⟩ := exists_doubled text
  · right
    refine leavesOpen_of_literal [] (.standard v) fun letter not_quote rest => ?_
    simp [StringLiteral.text, standardLiteral, doubled, not_quote]
  · have whole : quote :: (doubled quote v ++ quote :: rest) =
        (StringLiteral.standard v).text ++ rest := by
      simp [StringLiteral.text, standardLiteral]
    rw [whole] at ends ⊢
    exact literal_readAlone_or_leavesOpen (.standard v) closed ends
      (later _ rest whole (StringLiteral.text_ne_nil _))

theorem escape_readAlone_or_leavesOpen {b : UInt8} {text : Bytes}
    (escape : isEscapeStringStart (b :: text) 0) (ends : EndsBlank (b :: text))
    (later : ∀ front rest, b :: text = front ++ rest → front ≠ [] →
      ReadAlone rest ∨ LeavesOpen rest) :
    ReadAlone (b :: text) ∨ LeavesOpen (b :: text) := by
  rw [isEscapeStringStart_cons] at escape
  obtain ⟨letter_eq, next⟩ := escape
  obtain ⟨text, rfl⟩ : ∃ rest, text = quote :: rest := by
    cases text with
    | nil => simp at next
    | cons c text => exact ⟨text, by rw [Option.some.inj next]⟩
  obtain ⟨upper, b_eq⟩ : ∃ upper : Bool, b = if upper then upperE else lowerE := by
    rcases letter_eq with rfl | rfl
    · exact ⟨true, rfl⟩
    · exact ⟨false, rfl⟩
  obtain ⟨items, tail, rfl, rfl | rfl | ⟨rest, rfl, closed⟩⟩ := exists_escapeBody text
  · right
    refine leavesOpen_of_literal [] (.escape upper items) fun letter not_quote rest => ?_
    simp [StringLiteral.text, escapeLiteral, standardLiteral, doubled, not_quote, b_eq]
  · have last := ends.of_append (b :: quote :: escapeBody items)
    exact absurd last (by simp [EndsBlank, asciiSpace, isSpace, backslash])
  · have whole : b :: quote :: (escapeBody items ++ quote :: rest) =
        (StringLiteral.escape upper items).text ++ rest := by
      simp [StringLiteral.text, escapeLiteral, b_eq]
    rw [whole] at ends ⊢
    exact literal_readAlone_or_leavesOpen (.escape upper items) closed ends
      (later _ rest whole (StringLiteral.text_ne_nil _))

theorem plain_readAlone_or_leavesOpen {b : UInt8} {text : Bytes} (plain : PlainByte b text)
    (ends : EndsBlank (b :: text))
    (later : ∀ front rest, b :: text = front ++ rest → front ≠ [] →
      ReadAlone rest ∨ LeavesOpen rest) :
    ReadAlone (b :: text) ∨ LeavesOpen (b :: text) := by
  have turn_pos := scanStep_pos (List.cons_ne_nil b text)
  have whole := List.take_append_drop (scanStep (b :: text)).2 (b :: text)
  have front_ne : (b :: text).take (scanStep (b :: text)).2 ≠ [] := by
    simp only [ne_eq, List.take_eq_nil_iff, not_or]
    exact ⟨by omega, List.cons_ne_nil b text⟩
  have turn : ∀ s, Breaks s → Reads ((b :: text).take (scanStep (b :: text)).2 ++
      ((b :: text).drop (scanStep (b :: text)).2 ++ s)) [(scanStep (b :: text)).1]
      ((b :: text).drop (scanStep (b :: text)).2 ++ s) := by
    intro s breaks
    obtain ⟨step_eq, step_le⟩ := scanStep_plainByte (plain.append ends s) breaks
    rw [← List.append_assoc, whole]
    exact .single (by simp) step_eq (List.drop_append_of_le_length step_le)
  have extended := readAlone_or_leavesOpen_append turn
    (PairsOff.append_left (plainText_turn plain)) (later _ _ whole.symm front_ne)
  rwa [whole] at extended

/-- Text that ends in white space is read alone or leaves a literal open. -/
theorem readAlone_or_leavesOpen {text : Bytes} (ends : EndsBlank text) :
    ReadAlone text ∨ LeavesOpen text := by
  generalize size_eq : text.length = size
  induction size using Nat.strong_induction_on generalizing text with
  | _ size ih =>
      cases text with
      | nil => exact .inl readAlone_nil
      | cons b text =>
          have shorter : ∀ front rest, b :: text = front ++ rest → front ≠ [] →
              ReadAlone rest ∨ LeavesOpen rest := by
            intro front rest whole nonempty
            have length_pos := List.length_pos_iff.mpr nonempty
            rw [whole] at ends size_eq
            rw [List.length_append] at size_eq
            exact ih rest.length (by omega) (ends.of_append front) rfl
          by_cases escape : isEscapeStringStart (b :: text) 0
          · exact escape_readAlone_or_leavesOpen escape ends shorter
          · cases opens : dollarQuoteDelimiter (b :: text) 0 with
            | some delimiter =>
                obtain ⟨tag, tail, valid, _, whole⟩ := dollarQuoteDelimiter_eq_some opens
                rw [whole] at ends shorter ⊢
                refine dollar_readAlone_or_leavesOpen valid ends fun front rest tail_eq => ?_
                apply shorter (delimiterOf tag ++ front ++ delimiterOf tag) rest
                · rw [tail_eq]
                  simp
                · simp [delimiterOf]
            | none =>
                by_cases is_quote : b = quote
                · subst is_quote
                  exact standard_readAlone_or_leavesOpen ends shorter
                · exact plain_readAlone_or_leavesOpen ⟨is_quote, escape, opens⟩ ends shorter

/-! ## Statements with quoted identifiers and comments -/

/-- A token outside the literals of a statement. -/
inductive Piece where
  /-- Unquoted text. -/
  | text (bytes : Bytes) (unquoted : quote ∉ bytes ∧ doubleQuote ∉ bytes)
      (uncommented : index bytes [0x2D, 0x2D] = none ∧ index bytes [0x2F, 0x2A] = none)
  /-- An identifier between double quotes. -/
  | identifier (name : Bytes)
  /-- A comment up to the end of its line. -/
  | lineComment (body : Bytes) (one_line : 0x0A ∉ body)
  /-- A comment between `/*` and `*/`. -/
  | blockComment (body : Bytes) (closes : index body [0x2A, 0x2F] = none)

/-- Text of a token. -/
def Piece.bytes : Piece → Bytes
  | .text bytes _ _ => bytes
  | .identifier name => doubleQuote :: (doubled doubleQuote name ++ [doubleQuote])
  | .lineComment body _ => 0x2D :: 0x2D :: (body ++ [0x0A])
  | .blockComment body _ => 0x2F :: 0x2A :: (body ++ [0x2A, 0x2F])

/-- A statement around its literals, in tokens. -/
structure Statement where
  /-- What stands before the first literal. -/
  head : List Piece
  /-- What stands behind each literal. -/
  tails : List (List Piece)

/-- The text of the statement around its literals. -/
def Statement.skeleton (statement : Statement) : Skeleton :=
  ⟨statement.head.flatMap Piece.bytes, statement.tails.map fun tail => tail.flatMap Piece.bytes⟩

/-- Bodies that tell two fillings apart when some text in front of a literal leaves a literal
open. -/
theorem exists_bodies {skeleton : Skeleton} (separated : skeleton.Separated)
    (opens : ∃ text ∈ skeleton.before, ¬ PairsOff text) :
    ∃ left right : List Bytes, left.length = skeleton.tails.length ∧
      right.length = skeleton.tails.length ∧ ∃ read rest,
        emissions (skeleton.fill (left.map standardLiteral)) = read ++ .char 0x78 :: rest ∧
          emissions (skeleton.fill (right.map standardLiteral)) = read ++ .char 0x79 :: rest := by
  obtain ⟨head, tails⟩ := skeleton
  induction tails generalizing head with
  | nil => simp [Skeleton.before] at opens
  | cons tail tails ih =>
      have head_ends : EndsBlank head := separated.before_literal head List.mem_cons_self
      rcases readAlone_or_leavesOpen head_ends with ⟨pairs, read, reads⟩ | ⟨read, opener, reads⟩
      · have later : ∃ text ∈ Skeleton.before ⟨tail, tails⟩, ¬ PairsOff text := by
          obtain ⟨text, member, not_pairs⟩ := opens
          rcases List.mem_cons.mp member with rfl | member
          · exact absurd pairs not_pairs
          · exact ⟨text, member, not_pairs⟩
        have literal : ∀ literals,
            Reads (standardLiteral [] ++ Skeleton.fill ⟨tail, tails⟩ literals) [.value]
              (Skeleton.fill ⟨tail, tails⟩ literals) := fun literals =>
          reads_literal (.standard []) (separated.closed literals)
        obtain ⟨left, right, left_fits, right_fits, read', rest, left_eq, right_eq⟩ :=
          ih tail separated.tail later
        refine ⟨[] :: left, [] :: right, by simpa using left_fits, by simpa using right_fits,
          read ++ .value :: read', rest, ?_, ?_⟩
        · rw [List.map_cons, Skeleton.fill_cons,
            (reads _ (breaks_standardLiteral _ _)).emissions_eq, (literal _).emissions_eq, left_eq]
          simp
        · rw [List.map_cons, Skeleton.fill_cons,
            (reads _ (breaks_standardLiteral _ _)).emissions_eq, (literal _).emissions_eq, right_eq]
          simp
      · let empties : List Bytes := tails.map fun _ => []
        refine ⟨(opener ++ [0x78]) :: empties, (opener ++ [0x79]) :: empties, by simp [empties],
          by simp [empties], read,
          emissions (quote :: Skeleton.fill ⟨tail, tails⟩ (empties.map standardLiteral)), ?_, ?_⟩
        · rw [List.map_cons, Skeleton.fill_cons, (reads 0x78 (.inl rfl) _).emissions_eq]
          simp
        · rw [List.map_cons, Skeleton.fill_cons, (reads 0x79 (.inr rfl) _).emissions_eq]
          simp

/-- Literal bodies stay out of the preview exactly when all text in front of a literal closes the
literals that its identifiers and comments open. -/
theorem samePreview_statement_iff {statement : Statement}
    (separated : statement.skeleton.Separated) :
    (∀ left right : List Bytes, left.length = statement.tails.length →
        right.length = statement.tails.length →
          SamePreview (statement.skeleton.fill (left.map standardLiteral))
            (statement.skeleton.fill (right.map standardLiteral))) ↔
      ∀ text ∈ statement.skeleton.before, PairsOff text := by
  have length_eq : statement.skeleton.tails.length = statement.tails.length := by
    simp [Statement.skeleton]
  rw [← length_eq]
  constructor
  · intro hidden text member
    by_contra opens
    obtain ⟨left, right, left_fits, right_fits, read, rest, left_eq, right_eq⟩ :=
      exists_bodies separated ⟨text, member, opens⟩
    have previews := samePreview_iff.mp (hidden left right left_fits right_fits)
    have counts := congrArg (List.count 0x78) previews
    rw [count_fullPreview (by decide), count_fullPreview (by decide), left_eq, right_eq] at counts
    simp only [List.flatMap_append, List.flatMap_cons, List.count_append, Emission.bytes] at counts
    have char_x : (encodeRune 0x78).count 0x78 = 1 := by decide
    have char_y : (encodeRune 0x79).count 0x78 = 0 := by decide
    omega
  · intro pairs left right left_fits right_fits
    exact (separated.alike_fill pairs left_fits right_fits).samePreview

/-- A comment, a literal and a quoted identifier. -/
def commentedStatement : Statement :=
  ⟨[.blockComment [0x63] (by decide), .text [blank] (by decide) (by decide)],
    [[.text [blank] (by decide) (by decide), .identifier [0x64, quote]]]⟩

/-- Its literal stays out of the preview, as the apostrophe stands behind the last literal. -/
theorem samePreview_statement_iff_sample :
    SamePreview (commentedStatement.skeleton.fill [standardLiteral [0x78]])
      (commentedStatement.skeleton.fill [standardLiteral [quote, dollar, dollar]]) := by
  have separated : commentedStatement.skeleton.Separated := by decide
  refine (samePreview_statement_iff separated).mpr ?_ [[0x78]] [[quote, dollar, dollar]] rfl rfl
  intro text member
  obtain rfl : text = [0x2F, 0x2A, 0x63, 0x2A, 0x2F, blank] := by
    simpa [commentedStatement, Statement.skeleton, Skeleton.before, Piece.bytes] using member
  refine pairsOff_of_clean fun b byte => ⟨?_, ?_⟩
  all_goals
    rintro rfl
    exact absurd byte (by decide)

/-- An identifier with an apostrophe in front of a literal. -/
def aliasedStatement : Statement :=
  ⟨[.identifier [0x69, 0x74, quote, 0x73], .text [blank] (by decide) (by decide)], [[]]⟩

/-- The statements `"it's" 'x'` and `"it's" 'y'` show the bodies of their literals. -/
theorem aliased_literal_logged :
    aliasedStatement.skeleton.Separated ∧
      redactSQLValues (aliasedStatement.skeleton.fill [standardLiteral [0x78]]) 2048 =
        ([doubleQuote, 0x69, 0x74, mark, 0x78, mark], false) ∧
      redactSQLValues (aliasedStatement.skeleton.fill [standardLiteral [0x79]]) 2048 =
        ([doubleQuote, 0x69, 0x74, mark, 0x79, mark], false) :=
  ⟨by decide, by decide +kernel, by decide +kernel⟩

end CommonGo.Redact
