import CommonGo.Db.Redact
import CommonGo.Program.Loop

/-!
# The indices of the redactor

The scanner of the redactor once more, with every index and every slice of the source checked and
every loop limited to as many turns as there are bytes.  It has no faults and finds what the
redactor finds: all positions stay within the query, and every loop ends.
-/

namespace CommonGo.Redact

open Go Program

namespace Checked

/-! ## Literals -/

/-- `isEscapeStringStart`, with its index expressions checked. -/
def isEscapeStringStart (query : Bytes) (i : Nat) : Except Fault Bool :=
  if i + 1 < query.length then do
    let first ← elementAt query i
    if first = upperE ∨ first = lowerE then
      let second ← elementAt query (i + 1)
      return second == quote
    else return false
  else return false

/-- The end of a turn over a quoted literal, behind the rune that it has read. -/
def closingTurn (query : Bytes) (next i : Nat) : Except Fault (Turn Nat Nat) :=
  if next ≠ quote.toNat then return .next i
  else if i < query.length then do
    let b ← elementAt query i
    if b = quote then return .next (i + 1) else return .done i
  else return .done i

/-- One turn of the loop in `skipEscapeQuotedLiteral`. -/
def skipEscapeQuotedTurn (query : Bytes) (i : Nat) : Except Fault (Turn Nat Nat) :=
  if i < query.length then do
    let b ← elementAt query i
    if b = backslash then
      if i + 1 < query.length then
        let rest ← sliceFrom query (i + 1)
        return .next (i + 1 + (decodeRune rest).2)
      else return .next (i + 1)
    else
      let rest ← sliceFrom query i
      closingTurn query (decodeRune rest).1 (i + (decodeRune rest).2)
  else return .done i

/-- `skipEscapeQuotedLiteral`, checked. -/
def skipEscapeQuotedLiteral (query : Bytes) (i : Nat) : Except Fault Nat :=
  loop (skipEscapeQuotedTurn query) (query.length + 1) i

/-- One turn of the loop in `skipQuotedLiteral`. -/
def skipQuotedTurn (query : Bytes) (i : Nat) : Except Fault (Turn Nat Nat) :=
  if i < query.length then do
    let rest ← sliceFrom query i
    closingTurn query (decodeRune rest).1 (i + (decodeRune rest).2)
  else return .done i

/-- `skipQuotedLiteral`, checked. -/
def skipQuotedLiteral (query : Bytes) (i : Nat) : Except Fault Nat :=
  loop (skipQuotedTurn query) (query.length + 1) i

/-- One turn of the loop in `skipNumericLiteral`. -/
def skipNumericTurn (query : Bytes) (i : Nat) : Except Fault (Turn Nat Nat) :=
  if i < query.length then do
    let rest ← sliceFrom query i
    if !isDigit (decodeRune rest).1 && (decodeRune rest).1 != dot.toNat then return .done i
    else return .next (i + (decodeRune rest).2)
  else return .done i

/-- `skipNumericLiteral`, checked. -/
def skipNumericLiteral (query : Bytes) (i : Nat) : Except Fault Nat :=
  loop (skipNumericTurn query) (query.length + 1) i

/-- `dollarQuoteDelimiter`, checked. -/
def dollarQuoteDelimiter (query : Bytes) (i : Nat) : Except Fault (Option Bytes) :=
  if query.length ≤ i then return none
  else do
    let b ← elementAt query i
    if b ≠ dollar then return none
    else
      let rest ← sliceFrom query (i + 1)
      match indexByte rest dollar with
      | none => return none
      | some relativeEnd =>
          let tag ← slice query (i + 1) (i + 1 + relativeEnd)
          if validDollarQuoteTag tag then
            let delimiter ← slice query i (i + 1 + relativeEnd + 1)
            return some delimiter
          else return none

/-- `skipDollarQuotedLiteral`, checked. -/
def skipDollarQuotedLiteral (query : Bytes) (i : Nat) (delimiter : Bytes) : Except Fault Nat := do
  let rest ← sliceFrom query i
  match index rest delimiter with
  | none => return query.length
  | some relativeEnd => return i + relativeEnd + delimiter.length

/-! ## The scanner -/

/-- The body of the loop in `redactSQLValues`, checked. -/
def redactStep (query : Bytes) (scan : Scan) : Except Fault Scan := do
  let escape ← isEscapeStringStart query scan.i
  if escape then
    let i ← skipEscapeQuotedLiteral query (scan.i + 2)
    return { i := i, out := scan.out ++ [mark], lastWasSpace := false }
  else
    let found ← dollarQuoteDelimiter query scan.i
    match found with
    | some delimiter =>
        let i ← skipDollarQuotedLiteral query (scan.i + delimiter.length) delimiter
        return { i := i, out := scan.out ++ [mark], lastWasSpace := false }
    | none =>
        let rest ← sliceFrom query scan.i
        let r := (decodeRune rest).1
        let size := (decodeRune rest).2
        if r = quote.toNat then
          let i ← skipQuotedLiteral query (scan.i + size)
          return { i := i, out := scan.out ++ [mark], lastWasSpace := false }
        else if isSpace r then
          return {
            i := scan.i + size
            out :=
              if !scan.lastWasSpace && 0 < scan.out.length then scan.out ++ [blank] else scan.out
            lastWasSpace := true }
        else if isDigit r then
          let i ← skipNumericLiteral query (scan.i + size)
          return { i := i, out := scan.out ++ [mark], lastWasSpace := false }
        else
          return { i := scan.i + size, out := scan.out ++ encodeRune r, lastWasSpace := false }

/-- A turn of the scanning loop; the result says whether the budget has ended it. -/
def scanTurn (query : Bytes) (maxBytes : Nat) (scan : Scan) :
    Except Fault (Turn Scan (Scan × Bool)) :=
  if scan.i < query.length then do
    let next ← redactStep query scan
    if maxBytes ≤ next.out.length ∧ next.i < query.length then return .done (next, true)
    else return .next next
  else return .done (scan, false)

/-- The loop of `redactSQLValues`, from the start of the query. -/
def scan (query : Bytes) (maxBytes : Nat) : Except Fault (Scan × Bool) :=
  loop (scanTurn query maxBytes) (query.length + 1) { i := 0, out := [], lastWasSpace := false }

/-! ## Truncation -/

/-- One turn of the loop in `truncateUTF8`. -/
def backOffTurn (value : Bytes) (position : Nat) : Except Fault (Turn Nat Nat) :=
  if 0 < position then do
    let front ← slice value 0 position
    if validString front then return .done position else return .next (position - 1)
  else return .done position

/-- A budget without room for the marker makes the end of the slice negative. -/
def truncateUTF8 (value : Bytes) (maxBytes : Nat) : Except Fault (Bytes × Bool) :=
  if value.length ≤ maxBytes then return (value, false)
  else if maxBytes < truncationMarker.length then .error .outOfRange
  else do
    let position ←
      loop (backOffTurn value) (maxBytes + 1) (maxBytes - truncationMarker.length)
    let front ← slice value 0 position
    return (front ++ truncationMarker, true)

/-- `redactSQLValues`, checked. -/
def redactSQLValues (query : Bytes) (maxBytes : Nat) : Except Fault (Bytes × Bool) := do
  let (last, cut) ← scan query maxBytes
  if cut then
    let (preview, _) ← truncateUTF8 (trimSpace last.out) maxBytes
    return (preview, true)
  else return (trimSpace last.out, false)

end Checked

/-! ## No literal leaves the query -/

section Literals

variable {query : Bytes} {i : Nat}

/-- The rune at a position ends within the query. -/
theorem rune_inside (inside : i < query.length) :
    i < i + (decodeRune (query.drop i)).2 ∧ i + (decodeRune (query.drop i)).2 ≤ query.length := by
  have positive := decodeRune_width_pos (s := query.drop i) (by simpa using inside)
  have bounded := decodeRune_width_le (query.drop i)
  rw [List.length_drop] at bounded
  omega

theorem isEscapeStringStart_checked :
    Checked.isEscapeStringStart query i = .ok (isEscapeStringStart query i) := by
  unfold Checked.isEscapeStringStart isEscapeStringStart
  by_cases room : i + 1 < query.length
  · obtain ⟨first, read, here⟩ := elementAt_eq_ok (show i < query.length by omega)
    obtain ⟨second, readNext, after⟩ := elementAt_eq_ok room
    simp only [room, if_true, read, readNext, here, after, bind, Except.bind, pure, Except.pure]
    split_ifs with letter <;> simp_all
  · simp [room, pure, Except.pure]

theorem closingTurn_eq (next : Nat) :
    Checked.closingTurn query next i =
      if next ≠ quote.toNat then .ok (.next i)
      else if query[i]? = some quote then .ok (.next (i + 1))
      else .ok (.done i) := by
  unfold Checked.closingTurn
  split_ifs with other room double double
  · rfl
  · obtain ⟨b, read, here⟩ := elementAt_eq_ok room
    obtain rfl : b = quote := by simpa [here] using double
    rw [read]
    rfl
  · obtain ⟨b, read, here⟩ := elementAt_eq_ok room
    have single : b ≠ quote := by simpa [here] using double
    rw [read]
    exact if_neg single
  · simp [List.getElem?_eq_none (Nat.not_lt.mp room)] at double
  · rfl

/-- What a loop over a literal is to find: the end of the literal, within the query. -/
def Finds (query : Bytes) (skip : Nat → Nat) (i j : Nat) : Prop := j = skip i ∧ j ≤ query.length

/-- A turn is as good as the one before it if the end of the literal is the same. -/
theorem Finds.of_eq {skip : Nat → Nat} {k : Nat} (same : skip i = skip k) (j : Nat)
    (found : Finds query skip k j) : Finds query skip i j :=
  ⟨found.1.trans same.symm, found.2⟩

/-- What one turn of a loop over a literal does. -/
def TurnFinds (query : Bytes) (skip : Nat → Nat) (turn : Except Fault (Turn Nat Nat)) (i : Nat) :
    Prop :=
  Progress (· ≤ query.length) (query.length - ·) (Finds query skip) i turn

theorem TurnFinds.next {skip : Nat → Nat} {k : Nat} (forward : i < k) (within : k ≤ query.length)
    (same : skip i = skip k) : TurnFinds query skip (.ok (.next k)) i :=
  Progress.next within (show query.length - k < query.length - i by omega) (Finds.of_eq same)

theorem TurnFinds.done {skip : Nat → Nat} {j : Nat} (within : j ≤ query.length)
    (found : skip i = j) : TurnFinds query skip (.ok (.done j)) i :=
  Progress.done ⟨found.symm, within⟩

/-- The loops over literals start within the query and have a turn for each byte. -/
theorem finds_of_turns {skip : Nat → Nat} {turn : Nat → Except Fault (Turn Nat Nat)}
    (turns : ∀ i ≤ query.length, TurnFinds query skip (turn i) i) (inside : i ≤ query.length) :
    loop turn (query.length + 1) i = .ok (skip i) ∧ skip i ≤ query.length := by
  obtain ⟨j, returned, rfl, within⟩ :=
    loop_returns (· ≤ query.length) (query.length - ·) (Finds query skip) turns inside
      (show query.length - i < query.length + 1 by omega)
  exact ⟨returned, within⟩

/-- The end of a turn over a quoted literal. -/
theorem closingTurn_finds {skip : Nat → Nat} {next k : Nat} (forward : i < k)
    (within : k ≤ query.length)
    (equation : skip i =
      if next ≠ quote.toNat then skip k
      else if query[k]? = some quote then skip (k + 1)
      else k) :
    TurnFinds query skip (Checked.closingTurn query next k) i := by
  rw [closingTurn_eq]
  split_ifs at equation ⊢ with other double
  · exact .next forward within equation
  · obtain ⟨room, _⟩ := List.getElem?_eq_some_iff.mp double
    exact .next (by omega) room equation
  · exact .done within equation

theorem skipEscapeQuotedTurn_finds (inside : i ≤ query.length) :
    TurnFinds query (skipEscapeQuotedLiteral query) (Checked.skipEscapeQuotedTurn query i) i := by
  unfold Checked.skipEscapeQuotedTurn
  by_cases room : i < query.length
  · obtain ⟨forward, within⟩ := rune_inside room
    obtain ⟨b, read, here⟩ := elementAt_eq_ok room
    have equation := skipEscapeQuotedLiteral.eq_def query i
    rw [if_pos room, here] at equation
    rw [if_pos room, read, sliceFrom_eq_ok inside]
    by_cases escaped : b = backslash
    · rw [if_pos (congrArg some escaped)] at equation
      by_cases more : i + 1 < query.length
      · obtain ⟨behind, ends⟩ := rune_inside more
        rw [if_pos more] at equation
        rw [sliceFrom_eq_ok more.le]
        simp only [bind, Except.bind, escaped, if_true, more]
        exact .next (by omega) ends equation
      · rw [if_neg more] at equation
        simp only [bind, Except.bind, escaped, if_true, more, if_false]
        exact .next (Nat.lt_succ_self i) room equation
    · rw [if_neg (by simpa using escaped)] at equation
      simp only [bind, Except.bind, escaped, if_false]
      exact closingTurn_finds forward within equation
  · rw [if_neg room]
    exact .done inside (by rw [skipEscapeQuotedLiteral, if_neg room])

theorem skipQuotedTurn_finds (inside : i ≤ query.length) :
    TurnFinds query (skipQuotedLiteral query) (Checked.skipQuotedTurn query i) i := by
  unfold Checked.skipQuotedTurn
  by_cases room : i < query.length
  · obtain ⟨forward, within⟩ := rune_inside room
    rw [if_pos room, sliceFrom_eq_ok inside]
    refine closingTurn_finds forward within ?_
    rw [skipQuotedLiteral, if_pos room]
  · rw [if_neg room]
    exact .done inside (by rw [skipQuotedLiteral, if_neg room])

theorem skipNumericTurn_finds (inside : i ≤ query.length) :
    TurnFinds query (skipNumericLiteral query) (Checked.skipNumericTurn query i) i := by
  unfold Checked.skipNumericTurn
  by_cases room : i < query.length
  · obtain ⟨forward, within⟩ := rune_inside room
    have equation := skipNumericLiteral.eq_def query i
    rw [if_pos room] at equation
    rw [if_pos room, sliceFrom_eq_ok inside]
    simp only [bind, Except.bind]
    split_ifs at equation ⊢ with other
    · exact .done inside equation
    · exact .next forward within equation
  · rw [if_neg room]
    exact .done inside (by rw [skipNumericLiteral, if_neg room])

theorem skipEscapeQuotedLiteral_checked (inside : i ≤ query.length) :
    Checked.skipEscapeQuotedLiteral query i = .ok (skipEscapeQuotedLiteral query i) ∧
      skipEscapeQuotedLiteral query i ≤ query.length :=
  finds_of_turns (fun _ => skipEscapeQuotedTurn_finds) inside

theorem skipQuotedLiteral_checked (inside : i ≤ query.length) :
    Checked.skipQuotedLiteral query i = .ok (skipQuotedLiteral query i) ∧
      skipQuotedLiteral query i ≤ query.length :=
  finds_of_turns (fun _ => skipQuotedTurn_finds) inside

theorem skipNumericLiteral_checked (inside : i ≤ query.length) :
    Checked.skipNumericLiteral query i = .ok (skipNumericLiteral query i) ∧
      skipNumericLiteral query i ≤ query.length :=
  finds_of_turns (fun _ => skipNumericTurn_finds) inside

theorem dollarQuoteDelimiter_checked :
    Checked.dollarQuoteDelimiter query i = .ok (dollarQuoteDelimiter query i) := by
  unfold Checked.dollarQuoteDelimiter dollarQuoteDelimiter
  by_cases room : i < query.length
  · obtain ⟨b, read, here⟩ := elementAt_eq_ok room
    rw [if_neg (Nat.not_le.mpr room), read, here,
      sliceFrom_eq_ok (show i + 1 ≤ query.length from room)]
    simp only [bind, Except.bind]
    by_cases opens : b = dollar
    · rw [if_neg (not_not.mpr opens), if_neg (not_not.mpr (congrArg some opens))]
      cases found : indexByte (query.drop (i + 1)) dollar with
      | none => rfl
      | some relativeEnd =>
          have second := (List.findIdx?_eq_some_iff_getElem.mp found).1
          rw [List.length_drop] at second
          dsimp only
          rw [slice_eq_ok (by omega) (by omega), slice_eq_ok (by omega) (by omega),
            show i + 1 + relativeEnd - (i + 1) = relativeEnd by omega,
            show i + 1 + relativeEnd + 1 - i = relativeEnd + 2 by omega]
          dsimp only
          split_ifs <;> rfl
    · rw [if_pos opens, if_pos (by simpa using opens)]
      rfl
  · rw [if_pos (Nat.not_lt.mp room), List.getElem?_eq_none (Nat.not_lt.mp room)]
    rfl

theorem skipDollarQuotedLiteral_checked (delimiter : Bytes) (inside : i ≤ query.length) :
    Checked.skipDollarQuotedLiteral query i delimiter =
        .ok (skipDollarQuotedLiteral query i delimiter) ∧
      skipDollarQuotedLiteral query i delimiter ≤ query.length := by
  unfold Checked.skipDollarQuotedLiteral skipDollarQuotedLiteral
  rw [sliceFrom_eq_ok inside]
  cases found : index (query.drop i) delimiter with
  | none => exact ⟨by simp [found, bind, Except.bind, pure, Except.pure], le_rfl⟩
  | some relativeEnd =>
      have ends := index_length_le found
      rw [List.length_drop] at ends
      exact ⟨by simp [found, bind, Except.bind, pure, Except.pure], by simp only; omega⟩

end Literals

/-! ## The scan ends -/

/-- The checked step is the step, and it stays within the query. -/
theorem redactStep_checked {query : Bytes} {scan : Scan} (inside : scan.i < query.length) :
    Checked.redactStep query scan = .ok (redactStep query scan) ∧
      (redactStep query scan).i ≤ query.length := by
  obtain ⟨_, within⟩ := rune_inside inside
  unfold Checked.redactStep redactStep
  rw [isEscapeStringStart_checked, dollarQuoteDelimiter_checked, sliceFrom_eq_ok inside.le]
  simp only [bind, Except.bind]
  by_cases escape : isEscapeStringStart query scan.i = true
  · have room : scan.i + 2 ≤ query.length := by
      simp only [isEscapeStringStart, Bool.and_eq_true, decide_eq_true_eq] at escape
      omega
    obtain ⟨skipped, ends⟩ := skipEscapeQuotedLiteral_checked room
    rw [if_pos escape, if_pos escape, skipped]
    exact ⟨rfl, ends⟩
  · rw [if_neg escape, if_neg escape]
    cases opens : dollarQuoteDelimiter query scan.i with
    | some delimiter =>
        obtain ⟨_, room, _⟩ := dollarQuoteDelimiter_spec opens
        obtain ⟨skipped, ends⟩ := skipDollarQuotedLiteral_checked delimiter room
        simp only [skipped]
        exact ⟨rfl, ends⟩
    | none =>
        obtain ⟨quoted, quotedEnds⟩ := skipQuotedLiteral_checked within
        obtain ⟨number, numberEnds⟩ := skipNumericLiteral_checked within
        simp only [quoted, number]
        by_cases literal : (decodeRune (query.drop scan.i)).1 = quote.toNat
        · rw [if_pos literal, if_pos literal]
          exact ⟨rfl, quotedEnds⟩
        · rw [if_neg literal, if_neg literal]
          by_cases space : isSpace (decodeRune (query.drop scan.i)).1 = true
          · rw [if_pos space, if_pos space]
            exact ⟨rfl, within⟩
          · rw [if_neg space, if_neg space]
            split_ifs
            · exact ⟨rfl, numberEnds⟩
            · exact ⟨rfl, within⟩

/-- What `redactSQLValues` makes of the end of the scan. -/
def finish (maxBytes : Nat) (last : Scan × Bool) : Bytes × Bool :=
  if last.2 then ((truncateUTF8 (trimSpace last.1.out) maxBytes).1, true)
  else (trimSpace last.1.out, false)

/-- From every position within it, the scan ends within the query, and at its end unless the budget
has ended it. -/
theorem scanLoop_ends {query : Bytes} {scan : Scan} (maxBytes : Nat)
    (inside : scan.i ≤ query.length) :
    ∃ last, loop (Checked.scanTurn query maxBytes) (query.length + 1) scan = .ok last ∧
      last.1.i ≤ query.length ∧ (last.2 = false → last.1.i = query.length) ∧
      redactLoop query maxBytes scan = finish maxBytes last := by
  refine loop_returns (fun scan => scan.i ≤ query.length) (fun scan => query.length - scan.i)
    (fun scan last => last.1.i ≤ query.length ∧ (last.2 = false → last.1.i = query.length) ∧
      redactLoop query maxBytes scan = finish maxBytes last)
    (fun scan inside => ?_) inside (Nat.lt_succ_of_le (Nat.sub_le _ _))
  have equation := redactLoop.eq_def query maxBytes scan
  unfold Checked.scanTurn
  by_cases room : scan.i < query.length
  · obtain ⟨stepped, within⟩ := redactStep_checked room
    have forward := redactStep_advances room
    rw [if_pos room] at equation
    rw [if_pos room, stepped]
    simp only [bind, Except.bind]
    split_ifs at equation ⊢ with full
    · exact .done ⟨within, by simp, equation⟩
    · refine .next within (show query.length - _ < query.length - scan.i by omega) ?_
      exact fun last found => ⟨found.1, found.2.1, equation.trans found.2.2⟩
  · rw [if_neg room] at equation ⊢
    exact .done ⟨inside, fun _ => le_antisymm inside (Nat.not_lt.mp room), equation⟩

theorem backOff_checked {value : Bytes} {position turns : Nat} (inside : position ≤ value.length)
    (enough : position < turns) :
    loop (Checked.backOffTurn value) turns position = .ok (backOff value position) ∧
      backOff value position ≤ position := by
  have turn : ∀ position ≤ value.length,
      Progress (· ≤ value.length) id
        (fun start found => found = backOff value start ∧ found ≤ start) position
        (Checked.backOffTurn value position) := by
    intro position inside
    cases position with
    | zero => exact .done ⟨rfl, le_rfl⟩
    | succ position =>
        have equation := backOff.eq_def value (position + 1)
        rw [Checked.backOffTurn, if_pos (Nat.succ_pos _), slice_eq_ok (Nat.zero_le _) inside]
        simp only [bind, Except.bind, List.drop_zero, Nat.sub_zero] at equation ⊢
        split_ifs at equation ⊢ with valid
        · exact .done ⟨equation.symm, le_rfl⟩
        · refine .next (by omega) (Nat.lt_succ_self _) ?_
          rintro found ⟨same, before⟩
          exact ⟨same.trans equation.symm, by omega⟩
  obtain ⟨found, returned, rfl, before⟩ := loop_returns _ _ _ turn inside enough
  exact ⟨returned, before⟩

theorem truncateUTF8_checked (value : Bytes) {maxBytes : Nat} (room : 3 ≤ maxBytes) :
    Checked.truncateUTF8 value maxBytes = .ok (truncateUTF8 value maxBytes) := by
  have marker : truncationMarker.length = 3 := rfl
  unfold Checked.truncateUTF8 truncateUTF8
  split_ifs with fits small
  · rfl
  · omega
  · obtain ⟨returned, before⟩ :=
      @backOff_checked value (maxBytes - truncationMarker.length) (maxBytes + 1) (by omega)
        (by omega)
    rw [returned]
    simp only [bind, Except.bind]
    rw [slice_eq_ok (Nat.zero_le _) (by omega)]
    rfl

/-! ## Results -/

/-- A function that starts at `i` returns a position from there on, within the query. -/
def Advances (query : Bytes) (i : Nat) (outcome : Except Fault Nat) : Prop :=
  ∃ j, outcome = .ok j ∧ i ≤ j ∧ j ≤ query.length

/-- The functions that skip a literal return, and do not leave the query. -/
theorem literals_advance {query : Bytes} {i : Nat} (inside : i ≤ query.length) :
    Advances query i (Checked.skipQuotedLiteral query i) ∧
      Advances query i (Checked.skipEscapeQuotedLiteral query i) ∧
      Advances query i (Checked.skipNumericLiteral query i) := by
  obtain ⟨quoted, quotedEnds⟩ := skipQuotedLiteral_checked inside
  obtain ⟨escaped, escapedEnds⟩ := skipEscapeQuotedLiteral_checked inside
  obtain ⟨number, numberEnds⟩ := skipNumericLiteral_checked inside
  exact ⟨⟨_, quoted, le_skipQuotedLiteral query i, quotedEnds⟩,
    ⟨_, escaped, le_skipEscapeQuotedLiteral query i, escapedEnds⟩,
    ⟨_, number, le_skipNumericLiteral query i, numberEnds⟩⟩

/-- A dollar quote is looked for without a fault; its delimiter is the text at its place, and the
literal behind it is skipped within the query. -/
theorem dollarQuote_advances (query : Bytes) (i : Nat) :
    ∃ found, Checked.dollarQuoteDelimiter query i = .ok found ∧
      ∀ delimiter, found = some delimiter →
        delimiter <+: query.drop i ∧ 2 ≤ delimiter.length ∧
          Advances query (i + delimiter.length)
            (Checked.skipDollarQuotedLiteral query (i + delimiter.length) delimiter) := by
  refine ⟨_, dollarQuoteDelimiter_checked, fun delimiter opens => ?_⟩
  obtain ⟨long, room, text⟩ := dollarQuoteDelimiter_spec opens
  obtain ⟨skipped, ends⟩ := skipDollarQuotedLiteral_checked delimiter room
  refine ⟨?_, long, _, skipped, le_skipDollarQuotedLiteral delimiter room, ends⟩
  rw [text]
  exact List.take_prefix _ _

theorem redactSQLValues_checked (query : Bytes) {maxBytes : Nat} (room : 3 ≤ maxBytes) :
    Checked.redactSQLValues query maxBytes = .ok (redactSQLValues query maxBytes) := by
  obtain ⟨⟨last, cut⟩, ended, _, _, result⟩ :=
    @scanLoop_ends query { i := 0, out := [], lastWasSpace := false } maxBytes (Nat.zero_le _)
  rw [Checked.redactSQLValues, Checked.scan, ended, redactSQLValues, result, finish]
  simp only [bind, Except.bind, truncateUTF8_checked _ room]
  split_ifs <;> rfl

/-- No index of the scanner leaves the query, every turn moves forward, and every loop ends. -/
theorem scanner_in_range (query : Bytes) :
    (∀ i ≤ query.length,
      Advances query i (Checked.skipQuotedLiteral query i) ∧
        Advances query i (Checked.skipEscapeQuotedLiteral query i) ∧
        Advances query i (Checked.skipNumericLiteral query i)) ∧
      (∀ i ≤ query.length, ∃ found, Checked.dollarQuoteDelimiter query i = .ok found ∧
        ∀ delimiter, found = some delimiter →
          delimiter <+: query.drop i ∧ 2 ≤ delimiter.length ∧
            Advances query (i + delimiter.length)
              (Checked.skipDollarQuotedLiteral query (i + delimiter.length) delimiter)) ∧
      (∀ scan : Scan, scan.i < query.length →
        ∃ next, Checked.redactStep query scan = .ok next ∧ scan.i < next.i ∧
          next.i ≤ query.length) ∧
      (∀ maxBytes, ∃ last cut, Checked.scan query maxBytes = .ok (last, cut) ∧
        last.i ≤ query.length ∧ (cut = false → last.i = query.length)) ∧
      ∀ maxBytes ≥ 3,
        Checked.redactSQLValues query maxBytes = .ok (redactSQLValues query maxBytes) := by
  refine ⟨fun i => literals_advance, fun i _ => dollarQuote_advances query i, ?_, ?_,
    fun maxBytes => redactSQLValues_checked query⟩
  · intro scan inside
    obtain ⟨stepped, within⟩ := redactStep_checked inside
    exact ⟨_, stepped, redactStep_advances inside, within⟩
  · intro maxBytes
    obtain ⟨⟨last, cut⟩, ended, within, whole, _⟩ :=
      @scanLoop_ends query { i := 0, out := [], lastWasSpace := false } maxBytes (Nat.zero_le _)
    exact ⟨last, cut, ended, within, whole⟩

/-- An escape string that ends in its backslash. -/
def danglingEscape : Bytes := [upperE, quote, backslash]

theorem scanner_in_range_danglingEscape :
    Advances danglingEscape 2 (Checked.skipEscapeQuotedLiteral danglingEscape 2) ∧
      Checked.redactSQLValues danglingEscape 3 = .ok (redactSQLValues danglingEscape 3) := by
  obtain ⟨literals, _, _, _, whole⟩ := scanner_in_range danglingEscape
  exact ⟨(literals 2 (by decide)).2.1, whole 3 (by decide)⟩

end CommonGo.Redact
