import CommonGo.Go.Strings

/-!
# The SQL redactor

`redactSQLValues` of the GORM logger replaces the values of a statement by `?`, collapses white
space and cuts the preview at a byte budget.  Positions are byte offsets into the query, as in the
source; every loop runs until its position reaches the end of the query.
-/

namespace CommonGo.Redact

open Go

/-! ## Bytes the scanner looks for -/

/-- The apostrophe. -/
def quote : UInt8 := 0x27

/-- The byte written for a value. -/
def mark : UInt8 := 0x3F

/-- The byte written for white space. -/
def blank : UInt8 := 0x20

/-- The byte before which an escape string hides the next one. -/
def backslash : UInt8 := 0x5C

/-- The byte around the tag of a dollar-quoted literal. -/
def dollar : UInt8 := 0x24

/-- A byte of tags. -/
def underscore : UInt8 := 0x5F

/-- The point in a number. -/
def dot : UInt8 := 0x2E

/-- The prefix of an escape string. -/
def upperE : UInt8 := 0x45

/-- The same prefix in lower case. -/
def lowerE : UInt8 := 0x65

/-! ## Literals -/

/-- `isEscapeStringStart`. -/
def isEscapeStringStart (query : Bytes) (i : Nat) : Bool :=
  i + 1 < query.length && (query[i]? == some upperE || query[i]? == some lowerE) &&
    query[i + 1]? == some quote

/-- `skipEscapeQuotedLiteral`: a backslash takes the rune behind it with it, and two quotes continue
the literal. -/
def skipEscapeQuotedLiteral (query : Bytes) (i : Nat) : Nat :=
  if i < query.length then
    if query[i]? = some backslash then
      if i + 1 < query.length then
        skipEscapeQuotedLiteral query (i + 1 + (decodeRune (query.drop (i + 1))).2)
      else skipEscapeQuotedLiteral query (i + 1)
    else if (decodeRune (query.drop i)).1 ≠ quote.toNat then
      skipEscapeQuotedLiteral query (i + (decodeRune (query.drop i)).2)
    else if query[i + (decodeRune (query.drop i)).2]? = some quote then
      skipEscapeQuotedLiteral query (i + (decodeRune (query.drop i)).2 + 1)
    else i + (decodeRune (query.drop i)).2
  else i
termination_by query.length - i
decreasing_by
  all_goals
    have := decodeRune_width_pos (s := query.drop i) (by simpa using ‹i < query.length›)
    omega

/-- `validDollarQuoteTagChar`. -/
def validDollarQuoteTagChar (char : UInt8) (first : Bool) : Bool :=
  if char = underscore then true
  else if 0x30 ≤ char.toNat ∧ char.toNat ≤ 0x39 then !first
  else (0x61 ≤ char.toNat && char.toNat ≤ 0x7A) || (0x41 ≤ char.toNat && char.toNat ≤ 0x5A)

/-- `validDollarQuoteTag`. -/
def validDollarQuoteTag (tag : Bytes) : Bool :=
  tag.zipIdx.all fun entry => validDollarQuoteTagChar entry.1 (entry.2 == 0)

/-- `dollarQuoteDelimiter`. -/
def dollarQuoteDelimiter (query : Bytes) (i : Nat) : Option Bytes :=
  if query[i]? ≠ some dollar then none
  else
    match indexByte (query.drop (i + 1)) dollar with
    | none => none
    | some relativeEnd =>
        if validDollarQuoteTag ((query.drop (i + 1)).take relativeEnd) then
          some ((query.drop i).take (relativeEnd + 2))
        else none

/-- `skipDollarQuotedLiteral`. -/
def skipDollarQuotedLiteral (query : Bytes) (i : Nat) (delimiter : Bytes) : Nat :=
  match index (query.drop i) delimiter with
  | none => query.length
  | some relativeEnd => i + relativeEnd + delimiter.length

/-- `skipQuotedLiteral`: two quotes continue the literal. -/
def skipQuotedLiteral (query : Bytes) (i : Nat) : Nat :=
  if i < query.length then
    if (decodeRune (query.drop i)).1 ≠ quote.toNat then
      skipQuotedLiteral query (i + (decodeRune (query.drop i)).2)
    else if query[i + (decodeRune (query.drop i)).2]? = some quote then
      skipQuotedLiteral query (i + (decodeRune (query.drop i)).2 + 1)
    else i + (decodeRune (query.drop i)).2
  else i
termination_by query.length - i
decreasing_by
  all_goals
    have := decodeRune_width_pos (s := query.drop i) (by simpa using ‹i < query.length›)
    omega

/-- `skipNumericLiteral`. -/
def skipNumericLiteral (query : Bytes) (i : Nat) : Nat :=
  if i < query.length then
    if !isDigit (decodeRune (query.drop i)).1 && (decodeRune (query.drop i)).1 != dot.toNat then i
    else skipNumericLiteral query (i + (decodeRune (query.drop i)).2)
  else i
termination_by query.length - i
decreasing_by
  have := decodeRune_width_pos (s := query.drop i) (by simpa using ‹i < query.length›)
  omega

/-! ## Truncation -/

/-- The marker of a cut preview, an ellipsis of three bytes. -/
def truncationMarker : Bytes := [0xE2, 0x80, 0xA6]

/-- The loop of `truncateUTF8`: back off to the end of a valid prefix. -/
def backOff (value : Bytes) : Nat → Nat
  | 0 => 0
  | position + 1 =>
      if validString (value.take (position + 1)) then position + 1 else backOff value position

/-- `truncateUTF8`, for budgets that hold the marker. -/
def truncateUTF8 (value : Bytes) (maxBytes : Nat) : Bytes × Bool :=
  if value.length ≤ maxBytes then (value, false)
  else
    (value.take (backOff value (maxBytes - truncationMarker.length)) ++ truncationMarker, true)

/-! ## The scanner -/

/-- The variables of the scanning loop. -/
structure Scan where
  /-- Position of the next unread byte. -/
  i : Nat
  /-- Preview written so far. -/
  out : Bytes
  /-- Whether the last rune was white space, which is written once. -/
  lastWasSpace : Bool
  deriving DecidableEq, Repr

/-- The body of the scanning loop, up to the budget check. -/
def redactStep (query : Bytes) (scan : Scan) : Scan :=
  if isEscapeStringStart query scan.i then
    { i := skipEscapeQuotedLiteral query (scan.i + 2)
      out := scan.out ++ [mark]
      lastWasSpace := false }
  else
    match dollarQuoteDelimiter query scan.i with
    | some delimiter =>
        { i := skipDollarQuotedLiteral query (scan.i + delimiter.length) delimiter
          out := scan.out ++ [mark]
          lastWasSpace := false }
    | none =>
        let r := (decodeRune (query.drop scan.i)).1
        let size := (decodeRune (query.drop scan.i)).2
        if r = quote.toNat then
          { i := skipQuotedLiteral query (scan.i + size)
            out := scan.out ++ [mark]
            lastWasSpace := false }
        else if isSpace r then
          { i := scan.i + size
            out :=
              if !scan.lastWasSpace && 0 < scan.out.length then scan.out ++ [blank] else scan.out
            lastWasSpace := true }
        else if isDigit r then
          { i := skipNumericLiteral query (scan.i + size)
            out := scan.out ++ [mark]
            lastWasSpace := false }
        else
          { i := scan.i + size
            out := scan.out ++ encodeRune r
            lastWasSpace := false }

/-! ## Every turn of the loop advances -/

theorem le_skipEscapeQuotedLiteral (query : Bytes) (i : Nat) :
    i ≤ skipEscapeQuotedLiteral query i := by
  fun_induction skipEscapeQuotedLiteral query i <;> omega

theorem le_skipQuotedLiteral (query : Bytes) (i : Nat) : i ≤ skipQuotedLiteral query i := by
  fun_induction skipQuotedLiteral query i <;> omega

theorem le_skipNumericLiteral (query : Bytes) (i : Nat) : i ≤ skipNumericLiteral query i := by
  fun_induction skipNumericLiteral query i <;> omega

/-- A delimiter is the text of the query at its position, with both of its dollars inside. -/
theorem dollarQuoteDelimiter_spec {query delimiter : Bytes} {i : Nat}
    (opens : dollarQuoteDelimiter query i = some delimiter) :
    2 ≤ delimiter.length ∧ i + delimiter.length ≤ query.length ∧
      delimiter = (query.drop i).take delimiter.length := by
  unfold dollarQuoteDelimiter at opens
  split_ifs at opens with other
  have first := List.getElem?_eq_some_iff.mp (not_not.mp other)
  obtain ⟨inside, _⟩ := first
  cases found : indexByte (query.drop (i + 1)) dollar with
  | none => simp [found] at opens
  | some relativeEnd =>
      have second := (List.findIdx?_eq_some_iff_getElem.mp found).1
      rw [List.length_drop] at second
      simp only [found] at opens
      split_ifs at opens
      have delimiter_eq := Option.some.inj opens
      have length_eq : delimiter.length = relativeEnd + 2 := by
        rw [← delimiter_eq, List.length_take, List.length_drop]
        omega
      exact ⟨by omega, by omega, by rw [length_eq, delimiter_eq]⟩

theorem le_skipDollarQuotedLiteral {query : Bytes} {i : Nat} (delimiter : Bytes)
    (inside : i ≤ query.length) : i ≤ skipDollarQuotedLiteral query i delimiter := by
  unfold skipDollarQuotedLiteral
  split <;> omega

/-- The loop's measure: one turn moves the position forward. -/
theorem redactStep_advances {query : Bytes} {scan : Scan} (inside : scan.i < query.length) :
    scan.i < (redactStep query scan).i := by
  have width := decodeRune_width_pos (s := query.drop scan.i) (by simpa using inside)
  unfold redactStep
  by_cases escape : isEscapeStringStart query scan.i
  · have := le_skipEscapeQuotedLiteral query (scan.i + 2)
    rw [if_pos escape]
    simp only
    omega
  · rw [if_neg escape]
    split
    next delimiter opens =>
      obtain ⟨length_ge, within, _⟩ := dollarQuoteDelimiter_spec opens
      have := le_skipDollarQuotedLiteral delimiter within
      simp only
      omega
    next =>
      have := le_skipQuotedLiteral query (scan.i + (decodeRune (query.drop scan.i)).2)
      have := le_skipNumericLiteral query (scan.i + (decodeRune (query.drop scan.i)).2)
      simp only
      split_ifs <;> simp only <;> omega

/-! ## The redactor -/

/-- The scanning loop with its budget check. -/
def redactLoop (query : Bytes) (maxBytes : Nat) (scan : Scan) : Bytes × Bool :=
  if scan.i < query.length then
    if maxBytes ≤ (redactStep query scan).out.length ∧
        (redactStep query scan).i < query.length then
      ((truncateUTF8 (trimSpace (redactStep query scan).out) maxBytes).1, true)
    else redactLoop query maxBytes (redactStep query scan)
  else (trimSpace scan.out, false)
termination_by query.length - scan.i
decreasing_by
  have := redactStep_advances ‹scan.i < query.length›
  omega

/-- `redactSQLValues`: the preview and whether it was cut. -/
def redactSQLValues (query : Bytes) (maxBytes : Nat) : Bytes × Bool :=
  redactLoop query maxBytes { i := 0, out := [], lastWasSpace := false }

/-- `maxSQLPreviewBytes`. -/
def maxSQLPreviewBytes : Nat := 2048

/-- `sqlSummary`: the logged fields of a statement. -/
structure SqlSummary where
  /-- What is shown of the statement. -/
  preview : Bytes
  /-- The length of the statement. -/
  bytes : Nat
  /-- Whether the preview was cut. -/
  truncated : Bool
  deriving DecidableEq, Repr

/-- `summarizeSQL`. -/
def summarizeSQL (query : Bytes) : SqlSummary :=
  { preview := (redactSQLValues query maxSQLPreviewBytes).1
    bytes := query.length
    truncated := (redactSQLValues query maxSQLPreviewBytes).2 }

end CommonGo.Redact
