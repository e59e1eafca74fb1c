import CommonGo.Db.Preview

/-!
# String literals of SQL

The three literal forms that the redactor knows: standard literals, which double their quotes,
escape literals, which also use backslashes, and dollar-quoted literals.  Each is read by the
scanning loop in one turn, up to its closing delimiter, whatever its body holds.
-/

namespace CommonGo.Redact

open Go

/-- The double quote delimits identifiers, and strings that SQLite's dialector explains. -/
def doubleQuote : UInt8 := 0x22

/-! ## Standard literals -/

/-- `strings.ReplaceAll(v, escaper, escaper+escaper)` for a one-byte escaper. -/
def doubled (escaper : UInt8) (v : Bytes) : Bytes :=
  v.flatMap fun b => if b = escaper then [escaper, escaper] else [b]

/-- A standard literal with its quotes doubled. -/
def standardLiteral (v : Bytes) : Bytes := quote :: (doubled quote v ++ [quote])

@[simp]
theorem doubled_nil (escaper : UInt8) : doubled escaper [] = [] := rfl

theorem doubled_cons_self (escaper : UInt8) (v : Bytes) :
    doubled escaper (escaper :: v) = escaper :: escaper :: doubled escaper v := by
  simp [doubled]

theorem doubled_cons_of_ne {escaper b : UInt8} (v : Bytes) (other : b ≠ escaper) :
    doubled escaper (b :: v) = b :: doubled escaper v := by
  simp [doubled, other]

theorem quotedLen_doubled (v : Bytes) {rest : Bytes} (closed : rest.head? ≠ some quote) :
    quotedLen (doubled quote v ++ quote :: rest) = (doubled quote v).length + 1 := by
  induction v with
  | nil => simpa using quotedLen_quote closed
  | cons b v ih =>
      by_cases b_eq : b = quote
      · subst b_eq
        rw [doubled_cons_self, List.cons_append, List.cons_append, quotedLen_quote_quote, ih]
        simp only [List.length_cons]
      · rw [doubled_cons_of_ne v b_eq, List.cons_append, quotedLen_cons_of_ne _ b_eq, ih]
        simp only [List.length_cons]

/-! ## Escape literals -/

/-- One item between the quotes of a literal with backslash escapes. -/
inductive EscapeItem where
  | plain (b : UInt8) (not_quote : b ≠ quote) (not_backslash : b ≠ backslash)
  /-- A backslash and the byte it escapes. -/
  | escaped (b : UInt8)
  /-- Two quotes. -/
  | quotes

/-- Text of an item. -/
def EscapeItem.text : EscapeItem → Bytes
  | .plain b _ _ => [b]
  | .escaped b => [backslash, b]
  | .quotes => [quote, quote]

/-- Text between the quotes. -/
def escapeBody (items : List EscapeItem) : Bytes := items.flatMap EscapeItem.text

/-- An escape literal with either spelling of its letter. -/
def escapeLiteral (upper : Bool) (items : List EscapeItem) : Bytes :=
  (if upper then upperE else lowerE) :: quote :: (escapeBody items ++ [quote])

theorem escapeLen_body (items : List EscapeItem) {rest : Bytes}
    (closed : rest.head? ≠ some quote) :
    escapeLen (escapeBody items ++ quote :: rest) = (escapeBody items).length + 1 := by
  induction items with
  | nil => simpa [escapeBody] using escapeLen_quote closed
  | cons item items ih =>
      rw [escapeBody, List.flatMap_cons, ← escapeBody, List.append_assoc]
      cases item with
      | plain b not_quote not_backslash =>
          simp only [EscapeItem.text, List.singleton_append, List.length_cons]
          rw [escapeLen_cons_of_ne _ not_quote not_backslash, ih]
      | escaped b =>
          simp only [EscapeItem.text, List.cons_append, List.nil_append, List.length_cons]
          rw [escapeLen_backslash, ih]
      | quotes =>
          simp only [EscapeItem.text, List.cons_append, List.nil_append, List.length_cons]
          rw [escapeLen_quote_quote, ih]

/-! ## Dollar-quoted literals -/

/-- An ASCII letter or the underscore. -/
def tagStart (b : UInt8) : Bool :=
  b == underscore || (0x61 ≤ b.toNat && b.toNat ≤ 0x7A) || (0x41 ≤ b.toNat && b.toNat ≤ 0x5A)

/-- A tag start or an ASCII digit. -/
def tagCont (b : UInt8) : Bool := tagStart b || (0x30 ≤ b.toNat && b.toNat ≤ 0x39)

/-- An empty tag or `[A-Za-z_][A-Za-z0-9_]*`. -/
def isTag : Bytes → Bool
  | [] => true
  | b :: rest => tagStart b && rest.all tagCont

/-- A tag between two dollars. -/
def delimiterOf (tag : Bytes) : Bytes := dollar :: (tag ++ [dollar])

/-- A dollar-quoted literal whose delimiter occurs first at its end. -/
structure DollarLiteral where
  /-- The name between the dollars. -/
  tag : Bytes
  /-- The text between the delimiters. -/
  body : Bytes
  /-- The tag is one that the scanner takes. -/
  valid : isTag tag
  /-- The body does not end earlier. -/
  closes : index (body ++ delimiterOf tag) (delimiterOf tag) = some body.length

/-- Text of a dollar-quoted literal. -/
def DollarLiteral.text (literal : DollarLiteral) : Bytes :=
  delimiterOf literal.tag ++ literal.body ++ delimiterOf literal.tag

theorem tagStart_iff {b : UInt8} :
    tagStart b ↔ b = underscore ∨ (0x61 ≤ b.toNat ∧ b.toNat ≤ 0x7A) ∨
      (0x41 ≤ b.toNat ∧ b.toNat ≤ 0x5A) := by
  simp [tagStart, or_assoc]

theorem tagCont_iff {b : UInt8} :
    tagCont b ↔ tagStart b ∨ (0x30 ≤ b.toNat ∧ b.toNat ≤ 0x39) := by
  simp [tagCont]

theorem tagCont_of_mem {tag : Bytes} (valid : isTag tag) {b : UInt8} (member : b ∈ tag) :
    tagCont b := by
  cases tag with
  | nil => simp at member
  | cons first tag =>
      simp only [isTag, Bool.and_eq_true, List.all_eq_true] at valid
      rcases List.mem_cons.mp member with rfl | later
      · exact tagCont_iff.mpr (.inl valid.1)
      · exact valid.2 b later

theorem validDollarQuoteTagChar_iff {b : UInt8} {first : Bool} :
    validDollarQuoteTagChar b first ↔ if first then tagStart b else tagCont b := by
  unfold validDollarQuoteTagChar
  by_cases under : b = underscore
  · subst under
    cases first <;> decide
  · rw [if_neg under]
    cases first with
    | true =>
        simp only [if_true, tagStart_iff, under, false_or]
        split_ifs
        · simp
          omega
        · simp
    | false =>
        simp only [Bool.false_eq_true, if_false, tagCont_iff, tagStart_iff, under, false_or]
        split_ifs
        · simp
          omega
        · simp
          omega

theorem validDollarQuoteTag_eq (tag : Bytes) : validDollarQuoteTag tag = isTag tag := by
  cases tag with
  | nil => rfl
  | cons b rest =>
      have later : (rest.zipIdx 1).all
          (fun entry => validDollarQuoteTagChar entry.1 (entry.2 == 0)) = rest.all tagCont := by
        rw [Bool.eq_iff_iff, List.all_eq_true, List.all_eq_true]
        constructor
        · intro valid c member
          obtain ⟨position, inside, value⟩ := List.mem_iff_getElem.mp member
          have entry := valid (c, position + 1) (by
            rw [List.mk_mem_zipIdx_iff_le_and_getElem?_sub]
            simp [inside, value])
          simpa [validDollarQuoteTagChar_iff] using entry
        · rintro valid ⟨c, position⟩ member
          rw [List.mk_mem_zipIdx_iff_le_and_getElem?_sub] at member
          have c_mem := List.mem_of_getElem? member.2
          have not_first : (position == 0) = false := by
            simp only [beq_eq_false_iff_ne]
            omega
          simp only [not_first, validDollarQuoteTagChar_iff, Bool.false_eq_true, if_false]
          exact valid c c_mem
      have first : validDollarQuoteTagChar b true = tagStart b := by
        rw [Bool.eq_iff_iff, validDollarQuoteTagChar_iff]
        rfl
      simp only [validDollarQuoteTag, List.zipIdx_cons, List.all_cons, isTag]
      rw [← later, ← first]
      simp

theorem dollar_notMem_tag {tag : Bytes} (valid : isTag tag) : dollar ∉ tag := by
  intro member
  cases tag with
  | nil => contradiction
  | cons b rest =>
      simp only [isTag, Bool.and_eq_true, List.all_eq_true] at valid
      rcases List.mem_cons.mp member with rfl | later
      · exact absurd valid.1 (by decide)
      · exact absurd (valid.2 dollar later) (by decide)

/-! ## Which branch of the loop reads a byte -/

theorem isEscapeStringStart_cons (b : UInt8) (rest : Bytes) :
    isEscapeStringStart (b :: rest) 0 ↔ (b = upperE ∨ b = lowerE) ∧ rest.head? = some quote := by
  cases rest with
  | nil => simp [isEscapeStringStart]
  | cons c rest => simp [isEscapeStringStart]

theorem not_isEscapeStringStart {b : UInt8} (rest : Bytes) (not_upper : b ≠ upperE)
    (not_lower : b ≠ lowerE) : ¬ isEscapeStringStart (b :: rest) 0 := by
  rw [isEscapeStringStart_cons]
  rintro ⟨letter | letter, _⟩
  · exact not_upper letter
  · exact not_lower letter

theorem dollarQuoteDelimiter_of_ne {b : UInt8} (rest : Bytes) (other : b ≠ dollar) :
    dollarQuoteDelimiter (b :: rest) 0 = none := by
  simp [dollarQuoteDelimiter, other]

theorem dollarQuoteDelimiter_delimiterOf {tag : Bytes} (rest : Bytes) (valid : isTag tag) :
    dollarQuoteDelimiter (delimiterOf tag ++ rest) 0 = some (delimiterOf tag) := by
  have found := indexByte_append rest (dollar_notMem_tag valid)
  have text : delimiterOf tag ++ rest = dollar :: (tag ++ dollar :: rest) := by
    simp [delimiterOf]
  have front : (delimiterOf tag ++ rest).take (tag.length + 2) = delimiterOf tag := by
    rw [show tag.length + 2 = (delimiterOf tag).length by simp [delimiterOf], List.take_left]
  rw [text] at front ⊢
  simp only [dollarQuoteDelimiter, List.getElem?_cons_zero, ne_eq, not_true_eq_false, if_false,
    Nat.zero_add, List.drop_succ_cons, List.drop_zero, found, List.take_left,
    validDollarQuoteTag_eq, valid, if_true, front]

/-- An opening delimiter is a valid tag between two dollars. -/
theorem dollarQuoteDelimiter_eq_some {s delimiter : Bytes}
    (opens : dollarQuoteDelimiter s 0 = some delimiter) :
    ∃ tag rest, isTag tag ∧ delimiter = delimiterOf tag ∧ s = delimiterOf tag ++ rest := by
  obtain ⟨_, _, delimiter_eq⟩ := dollarQuoteDelimiter_spec opens
  unfold dollarQuoteDelimiter at opens
  split_ifs at opens with other
  cases s with
  | nil => simp at other
  | cons b tail =>
      obtain rfl : b = dollar := by simpa using other
      simp only [Nat.zero_add, List.drop_succ_cons, List.drop_zero] at opens
      cases found : indexByte tail dollar with
      | none => simp [found] at opens
      | some position =>
          simp only [found] at opens
          split_ifs at opens with valid
          obtain ⟨inside, second, _⟩ := List.findIdx?_eq_some_iff_getElem.mp found
          have tail_eq : tail = tail.take position ++ dollar :: tail.drop (position + 1) := by
            conv_lhs => rw [← List.take_append_drop position tail]
            rw [List.drop_eq_getElem_cons inside, eq_of_beq second]
          rw [validDollarQuoteTag_eq] at valid
          have s_eq : dollar :: tail =
              delimiterOf (tail.take position) ++ tail.drop (position + 1) := by
            conv_lhs => rw [tail_eq]
            simp [delimiterOf]
          refine ⟨tail.take position, tail.drop (position + 1), valid, ?_, s_eq⟩
          have length_eq : (delimiterOf (tail.take position)).length = position + 2 := by
            simp only [delimiterOf, List.length_cons, List.length_append, List.length_take,
              List.length_nil]
            omega
          rw [← Option.some.inj opens, s_eq, ← length_eq, List.take_left]

/-- A byte that opens no literal is read as a rune. -/
theorem scanStep_of_plain {b : UInt8} {rest : Bytes}
    (not_escape : ¬ isEscapeStringStart (b :: rest) 0)
    (not_dollar : dollarQuoteDelimiter (b :: rest) 0 = none) :
    scanStep (b :: rest) =
      if b = quote then (.value, 1 + quotedLen rest)
      else if isSpace (decodeRune (b :: rest)).1 then (.space, (decodeRune (b :: rest)).2)
      else if isDigit (decodeRune (b :: rest)).1 then
        (.value, (decodeRune (b :: rest)).2 +
          numericLen ((b :: rest).drop (decodeRune (b :: rest)).2))
      else (.char (decodeRune (b :: rest)).1, (decodeRune (b :: rest)).2) := by
  simp only [scanStep, not_escape, not_dollar, Bool.false_eq_true, if_false,
    decodeRune_eq_ascii_iff isAscii_quote]
  split_ifs with b_eq
  · subst b_eq
    rw [decodeRune_ascii rest isAscii_quote]
    rfl
  all_goals rfl

/-! ## One turn of the loop on each literal -/

/-- A string literal of one of the supported forms. -/
inductive StringLiteral where
  | standard (v : Bytes)
  | escape (upper : Bool) (items : List EscapeItem)
  | dollar (literal : DollarLiteral)

/-- Text of a literal. -/
def StringLiteral.text : StringLiteral → Bytes
  | .standard v => standardLiteral v
  | .escape upper items => escapeLiteral upper items
  | .dollar literal => literal.text

/-- The text behind a literal does not continue it: a quote would double the closing one. -/
def StringLiteral.Closed : StringLiteral → Bytes → Prop
  | .standard _, rest | .escape _ _, rest => rest.head? ≠ some quote
  | .dollar _, _ => True

theorem StringLiteral.closed_of_head? (literal : StringLiteral) {rest : Bytes}
    (closed : rest.head? ≠ some quote) : literal.Closed rest := by
  cases literal with
  | standard v => exact closed
  | escape upper items => exact closed
  | dollar literal => trivial

theorem scanStep_quote (rest : Bytes) :
    scanStep (quote :: rest) = (.value, 1 + quotedLen rest) := by
  rw [scanStep_of_plain, if_pos rfl]
  · exact not_isEscapeStringStart rest (by decide) (by decide)
  · exact dollarQuoteDelimiter_of_ne _ (by decide)

theorem scanStep_standard (v : Bytes) {rest : Bytes} (closed : rest.head? ≠ some quote) :
    scanStep (standardLiteral v ++ rest) = (.value, (standardLiteral v).length) := by
  have length_eq := quotedLen_doubled v closed
  simp only [standardLiteral, List.cons_append, List.append_assoc]
  rw [scanStep_quote, List.nil_append, length_eq]
  simp
  omega

theorem scanStep_escape (upper : Bool) (items : List EscapeItem) {rest : Bytes}
    (closed : rest.head? ≠ some quote) :
    scanStep (escapeLiteral upper items ++ rest) =
      (.value, (escapeLiteral upper items).length) := by
  have length_eq := escapeLen_body items closed
  have start : isEscapeStringStart (escapeLiteral upper items ++ rest) 0 := by
    rw [escapeLiteral, List.cons_append, isEscapeStringStart_cons]
    refine ⟨?_, rfl⟩
    cases upper
    · exact .inr rfl
    · exact .inl rfl
  rw [scanStep, if_pos start]
  simp only [escapeLiteral, List.cons_append, List.append_assoc, List.drop_succ_cons,
    List.drop_zero, List.nil_append, length_eq, List.length_cons, List.length_append,
    List.length_nil]
  rw [Prod.mk.injEq]
  exact ⟨rfl, by omega⟩

theorem scanStep_dollar (literal : DollarLiteral) (rest : Bytes) :
    scanStep (literal.text ++ rest) = (.value, literal.text.length) := by
  have found := index_append rest literal.closes
  have opens := dollarQuoteDelimiter_delimiterOf
    (literal.body ++ delimiterOf literal.tag ++ rest) literal.valid
  have not_escape : ¬ isEscapeStringStart (literal.text ++ rest) 0 := by
    rw [DollarLiteral.text, delimiterOf, List.cons_append, List.cons_append, List.cons_append]
    exact not_isEscapeStringStart _ (by decide) (by decide)
  have text : literal.text ++ rest =
      delimiterOf literal.tag ++ (literal.body ++ delimiterOf literal.tag ++ rest) := by
    simp [DollarLiteral.text]
  rw [scanStep, if_neg not_escape, text, opens]
  simp only [List.drop_left, dollarLen, found, DollarLiteral.text, List.length_append]
  rw [Prod.mk.injEq]
  exact ⟨rfl, by omega⟩

theorem scanStep_literal (literal : StringLiteral) {rest : Bytes} (closed : literal.Closed rest) :
    scanStep (literal.text ++ rest) = (.value, literal.text.length) := by
  cases literal with
  | standard v => exact scanStep_standard v closed
  | escape upper items => exact scanStep_escape upper items closed
  | dollar literal => exact scanStep_dollar literal rest

theorem StringLiteral.text_ne_nil (literal : StringLiteral) : literal.text ≠ [] := by
  cases literal <;> simp [text, standardLiteral, escapeLiteral, DollarLiteral.text, delimiterOf]

/-- The loop reads a literal in one turn, whatever its body holds. -/
theorem reads_literal (literal : StringLiteral) {rest : Bytes} (closed : literal.Closed rest) :
    Reads (literal.text ++ rest) [.value] rest :=
  Reads.single (by simp [literal.text_ne_nil]) (scanStep_literal literal closed) (by simp)

end CommonGo.Redact
