import CommonGo.Db.Redact

/-!
# The redactor as a function of the unread suffix

What one turn of the scanning loop reads and writes depends on the unread suffix of the query alone.
This file measures the skipping loops on suffixes, byte by byte where the source goes rune by rune,
and splits the redactor into a scan that produces emissions and a rendering of these emissions
under the byte budget.
-/

namespace CommonGo.Redact

open Go

/-! ## Lengths of skipped text -/

/-- Bytes of a standard literal behind its opening quote. -/
def quotedLen : Bytes → Nat
  | [] => 0
  | [_] => 1
  | b :: c :: rest =>
      if b ≠ quote then quotedLen (c :: rest) + 1
      else if c = quote then quotedLen rest + 2
      else 1

/-- Bytes of an escape literal behind its opening quote. -/
def escapeLen : Bytes → Nat
  | [] => 0
  | [_] => 1
  | b :: c :: rest =>
      if b = backslash then escapeLen rest + 2
      else if b ≠ quote then escapeLen (c :: rest) + 1
      else if c = quote then escapeLen rest + 2
      else 1

/-- Bytes of a dollar-quoted literal behind its opening delimiter. -/
def dollarLen (s delimiter : Bytes) : Nat :=
  match index s delimiter with
  | none => s.length
  | some position => position + delimiter.length

/-- Bytes of a number behind its first digit. -/
def numericLen : Bytes → Nat
  | [] => 0
  | b :: rest =>
      if isDigit (decodeRune (b :: rest)).1 || (decodeRune (b :: rest)).1 == dot.toNat then
        (decodeRune (b :: rest)).2 + numericLen ((b :: rest).drop (decodeRune (b :: rest)).2)
      else 0
termination_by s => s.length
decreasing_by
  have := decodeRune_width_pos (List.cons_ne_nil b rest)
  simp only [List.length_drop, List.length_cons]
  omega

theorem quotedLen_cons_of_ne {b : UInt8} (rest : Bytes) (plain : b ≠ quote) :
    quotedLen (b :: rest) = quotedLen rest + 1 := by
  cases rest with
  | nil => simp [quotedLen]
  | cons c rest => simp [quotedLen, plain]

theorem quotedLen_quote_quote (rest : Bytes) :
    quotedLen (quote :: quote :: rest) = quotedLen rest + 2 := by
  simp [quotedLen]

theorem quotedLen_quote {rest : Bytes} (closed : rest.head? ≠ some quote) :
    quotedLen (quote :: rest) = 1 := by
  cases rest with
  | nil => simp [quotedLen]
  | cons c rest => simp_all [quotedLen]

theorem escapeLen_cons_of_ne {b : UInt8} (rest : Bytes) (plain : b ≠ quote)
    (literal : b ≠ backslash) : escapeLen (b :: rest) = escapeLen rest + 1 := by
  cases rest with
  | nil => simp [escapeLen]
  | cons c rest => simp [escapeLen, plain, literal]

theorem escapeLen_backslash (c : UInt8) (rest : Bytes) :
    escapeLen (backslash :: c :: rest) = escapeLen rest + 2 := by
  simp [escapeLen]

theorem escapeLen_quote_quote (rest : Bytes) :
    escapeLen (quote :: quote :: rest) = escapeLen rest + 2 := by
  simp [escapeLen, quote, backslash]

theorem escapeLen_quote {rest : Bytes} (closed : rest.head? ≠ some quote) :
    escapeLen (quote :: rest) = 1 := by
  cases rest with
  | nil => simp [escapeLen]
  | cons c rest =>
      simp_all [escapeLen, quote, backslash]

/-- Text without quotes stays inside a standard literal. -/
theorem quotedLen_append {front : Bytes} (rest : Bytes) (plain : ∀ b ∈ front, b ≠ quote) :
    quotedLen (front ++ rest) = front.length + quotedLen rest := by
  induction front with
  | nil => simp
  | cons b front ih =>
      rw [List.cons_append, quotedLen_cons_of_ne _ (plain b List.mem_cons_self),
        ih fun c member => plain c (List.mem_cons_of_mem b member), List.length_cons]
      omega

/-- Text without quotes and backslashes stays inside an escape literal. -/
theorem escapeLen_append {front : Bytes} (rest : Bytes)
    (plain : ∀ b ∈ front, b ≠ quote ∧ b ≠ backslash) :
    escapeLen (front ++ rest) = front.length + escapeLen rest := by
  induction front with
  | nil => simp
  | cons b front ih =>
      obtain ⟨not_quote, not_backslash⟩ := plain b List.mem_cons_self
      rw [List.cons_append, escapeLen_cons_of_ne _ not_quote not_backslash,
        ih fun c member => plain c (List.mem_cons_of_mem b member), List.length_cons]
      omega

theorem quotedLen_le (s : Bytes) : quotedLen s ≤ s.length := by
  fun_induction quotedLen s <;> simp_all

theorem escapeLen_le (s : Bytes) : escapeLen s ≤ s.length := by
  fun_induction escapeLen s <;> simp_all

/-! ## The loops of the source on suffixes -/

theorem isAscii_quote : isAscii quote = true := by decide

theorem isAscii_backslash : isAscii backslash = true := by decide

private theorem quotedLen_rune {s : Bytes} (plain : (decodeRune s).1 ≠ quote.toNat) :
    quotedLen s = (decodeRune s).2 + quotedLen (s.drop (decodeRune s).2) := by
  have split := quotedLen_append (s.drop (decodeRune s).2)
    (decodeRune_take_ne isAscii_quote plain)
  rw [List.take_append_drop, List.length_take, Nat.min_eq_left (decodeRune_width_le s)] at split
  exact split

private theorem escapeLen_rune {s : Bytes} (plain : (decodeRune s).1 ≠ quote.toNat)
    (literal : (decodeRune s).1 ≠ backslash.toNat) :
    escapeLen s = (decodeRune s).2 + escapeLen (s.drop (decodeRune s).2) := by
  have split := escapeLen_append (s.drop (decodeRune s).2) fun b member =>
    ⟨decodeRune_take_ne isAscii_quote plain b member,
      decodeRune_take_ne isAscii_backslash literal b member⟩
  rw [List.take_append_drop, List.length_take, Nat.min_eq_left (decodeRune_width_le s)] at split
  exact split

/-- A position whose rune is an ASCII byte holds that byte. -/
private theorem drop_of_rune_eq {query : Bytes} {i : Nat} {a : UInt8} (ascii : isAscii a)
    (inside : i < query.length) (rune : (decodeRune (query.drop i)).1 = a.toNat) :
    query.drop i = a :: query.drop (i + 1) ∧ (decodeRune (query.drop i)).2 = 1 := by
  rw [List.drop_eq_getElem_cons inside] at rune ⊢
  have head := (decodeRune_eq_ascii_iff ascii).mp rune
  rw [head, decodeRune_ascii _ ascii]
  exact ⟨rfl, rfl⟩

private theorem drop_of_getElem? {query : Bytes} {i : Nat} {a : UInt8}
    (byte : query[i]? = some a) : i < query.length ∧ query.drop i = a :: query.drop (i + 1) := by
  obtain ⟨inside, value⟩ := List.getElem?_eq_some_iff.mp byte
  exact ⟨inside, by rw [List.drop_eq_getElem_cons inside, value]⟩

theorem skipQuotedLiteral_eq {query : Bytes} {i : Nat} (inside : i ≤ query.length) :
    skipQuotedLiteral query i = i + quotedLen (query.drop i) := by
  fun_induction skipQuotedLiteral query i with
  | case1 i within plain ih =>
      have width_le := decodeRune_width_le (query.drop i)
      rw [List.length_drop] at width_le
      rw [ih (by omega), quotedLen_rune plain, List.drop_drop]
      omega
  | case2 i within closing doubled ih =>
      obtain ⟨front, width⟩ := drop_of_rune_eq isAscii_quote within (not_not.mp closing)
      rw [width] at doubled ih ⊢
      obtain ⟨next, second⟩ := drop_of_getElem? doubled
      rw [ih (by omega), front, second, quotedLen_quote_quote]
      omega
  | case3 i within closing single =>
      obtain ⟨front, width⟩ := drop_of_rune_eq isAscii_quote within (not_not.mp closing)
      rw [width] at single ⊢
      rw [front, quotedLen_quote (by rwa [List.head?_drop])]
  | case4 i outside =>
      rw [List.drop_eq_nil_of_le (by omega)]
      rfl

/-- A backslash takes the rune behind it into the literal. -/
private theorem escapeLen_backslash_rune {s : Bytes} (nonempty : s ≠ []) :
    escapeLen (backslash :: s) = 1 + (decodeRune s).2 + escapeLen (s.drop (decodeRune s).2) := by
  obtain ⟨b, rest, rfl⟩ := List.exists_cons_of_ne_nil nonempty
  rw [escapeLen_backslash]
  cases head : isAscii b with
  | true =>
      rw [decodeRune_ascii rest head]
      simp only [List.drop_succ_cons, List.drop_zero]
      omega
  | false =>
      obtain ⟨_, width_pos, width_le, nonascii⟩ := decodeRune_nonascii rest head
      obtain ⟨width, width_eq⟩ : ∃ width, (decodeRune (b :: rest)).2 = width + 1 :=
        ⟨(decodeRune (b :: rest)).2 - 1, by omega⟩
      rw [width_eq] at nonascii width_le ⊢
      have inner : ∀ c ∈ rest.take width, c ≠ quote ∧ c ≠ backslash := by
        intro c member
        have c_nonascii := nonascii c (by simp [member])
        constructor <;> rintro rfl <;> exact absurd c_nonascii (by decide)
      have split := escapeLen_append (rest.drop width) inner
      rw [List.take_append_drop, List.length_take, Nat.min_eq_left (by simpa using width_le)]
        at split
      rw [split, List.drop_succ_cons]
      omega

theorem skipEscapeQuotedLiteral_eq {query : Bytes} {i : Nat} (inside : i ≤ query.length) :
    skipEscapeQuotedLiteral query i = i + escapeLen (query.drop i) := by
  fun_induction skipEscapeQuotedLiteral query i with
  | case1 i within escaped next ih =>
      obtain ⟨_, front⟩ := drop_of_getElem? escaped
      have width_le := decodeRune_width_le (query.drop (i + 1))
      rw [List.length_drop] at width_le
      rw [ih (by omega), front, escapeLen_backslash_rune (by simpa using next), List.drop_drop]
      omega
  | case2 i within escaped last ih =>
      obtain ⟨_, front⟩ := drop_of_getElem? escaped
      rw [ih (by omega), front, List.drop_eq_nil_of_le (by omega)]
      rfl
  | case3 i within unescaped plain ih =>
      have width_le := decodeRune_width_le (query.drop i)
      rw [List.length_drop] at width_le
      have literal : (decodeRune (query.drop i)).1 ≠ backslash.toNat := by
        intro rune
        obtain ⟨front, _⟩ := drop_of_rune_eq isAscii_backslash within rune
        apply unescaped
        rw [← List.head?_drop, front]
        rfl
      rw [ih (by omega), escapeLen_rune plain literal, List.drop_drop]
      omega
  | case4 i within unescaped closing doubled ih =>
      obtain ⟨front, width⟩ := drop_of_rune_eq isAscii_quote within (not_not.mp closing)
      rw [width] at doubled ih ⊢
      obtain ⟨next, second⟩ := drop_of_getElem? doubled
      rw [ih (by omega), front, second, escapeLen_quote_quote]
      omega
  | case5 i within unescaped closing single =>
      obtain ⟨front, width⟩ := drop_of_rune_eq isAscii_quote within (not_not.mp closing)
      rw [width] at single ⊢
      rw [front, escapeLen_quote (by rwa [List.head?_drop])]
  | case6 i outside =>
      rw [List.drop_eq_nil_of_le (by omega)]
      rfl

theorem skipDollarQuotedLiteral_eq {query : Bytes} {i : Nat} (delimiter : Bytes)
    (inside : i ≤ query.length) :
    skipDollarQuotedLiteral query i delimiter = i + dollarLen (query.drop i) delimiter := by
  unfold skipDollarQuotedLiteral dollarLen
  cases index (query.drop i) delimiter with
  | none =>
      simp only [List.length_drop]
      omega
  | some position =>
      simp only
      omega

theorem numericLen_eq {s : Bytes} (nonempty : s ≠ []) :
    numericLen s =
      if isDigit (decodeRune s).1 || (decodeRune s).1 == dot.toNat then
        (decodeRune s).2 + numericLen (s.drop (decodeRune s).2)
      else 0 := by
  obtain ⟨b, rest, rfl⟩ := List.exists_cons_of_ne_nil nonempty
  rw [numericLen]

theorem skipNumericLiteral_eq {query : Bytes} {i : Nat} (inside : i ≤ query.length) :
    skipNumericLiteral query i = i + numericLen (query.drop i) := by
  fun_induction skipNumericLiteral query i with
  | case1 i within stop =>
      rw [numericLen_eq (by simpa using within), if_neg]
      · simp
      · simpa using stop
  | case2 i within continues ih =>
      have width_le := decodeRune_width_le (query.drop i)
      rw [List.length_drop] at width_le
      rw [ih (by omega), numericLen_eq (s := query.drop i) (by simpa using within), if_pos,
        List.drop_drop]
      · omega
      · simpa [or_iff_not_imp_left] using continues
  | case3 i outside =>
      rw [List.drop_eq_nil_of_le (by omega)]
      simp [numericLen]

theorem isEscapeStringStart_drop (query : Bytes) (i : Nat) :
    isEscapeStringStart query i = isEscapeStringStart (query.drop i) 0 := by
  simp only [isEscapeStringStart, List.length_drop, List.getElem?_drop, Nat.add_zero, Nat.zero_add]
  congr 2
  simp only [decide_eq_decide]
  omega

theorem dollarQuoteDelimiter_drop (query : Bytes) (i : Nat) :
    dollarQuoteDelimiter query i = dollarQuoteDelimiter (query.drop i) 0 := by
  simp only [dollarQuoteDelimiter, List.getElem?_drop, List.drop_drop, Nat.add_zero, Nat.zero_add]

/-! ## Emissions -/

/-- What one turn of the loop contributes to the preview. -/
inductive Emission where
  /-- A redacted value. -/
  | value
  /-- One white-space rune. -/
  | space
  /-- A rune copied from the query. -/
  | char (r : Nat)
  deriving DecidableEq, Repr

/-- The emission of the loop at an unread suffix, with the number of bytes it reads. -/
def scanStep (s : Bytes) : Emission × Nat :=
  if isEscapeStringStart s 0 then (.value, 2 + escapeLen (s.drop 2))
  else
    match dollarQuoteDelimiter s 0 with
    | some delimiter =>
        (.value, delimiter.length + dollarLen (s.drop delimiter.length) delimiter)
    | none =>
        if (decodeRune s).1 = quote.toNat then
          (.value, (decodeRune s).2 + quotedLen (s.drop (decodeRune s).2))
        else if isSpace (decodeRune s).1 then (.space, (decodeRune s).2)
        else if isDigit (decodeRune s).1 then
          (.value, (decodeRune s).2 + numericLen (s.drop (decodeRune s).2))
        else (.char (decodeRune s).1, (decodeRune s).2)

/-- Append an emission to the preview. -/
def Emission.write (out : Bytes) (lastWasSpace : Bool) : Emission → Bytes
  | .value => out ++ [mark]
  | .space => if !lastWasSpace && 0 < out.length then out ++ [blank] else out
  | .char r => out ++ encodeRune r

/-- One turn of the loop is one emission of the unread suffix. -/
theorem redactStep_eq {query : Bytes} {scan : Scan} (inside : scan.i < query.length) :
    redactStep query scan =
      { i := scan.i + (scanStep (query.drop scan.i)).2
        out := (scanStep (query.drop scan.i)).1.write scan.out scan.lastWasSpace
        lastWasSpace := (scanStep (query.drop scan.i)).1 == .space } := by
  have width_le := decodeRune_width_le (query.drop scan.i)
  rw [List.length_drop] at width_le
  unfold redactStep scanStep
  rw [isEscapeStringStart_drop, dollarQuoteDelimiter_drop]
  by_cases escape : isEscapeStringStart (query.drop scan.i) 0
  · have room : scan.i + 2 ≤ query.length := by
      simp only [isEscapeStringStart, Bool.and_eq_true, decide_eq_true_eq, List.length_drop]
        at escape
      omega
    rw [if_pos escape, if_pos escape, skipEscapeQuotedLiteral_eq room, List.drop_drop]
    simp [Emission.write, Nat.add_assoc]
  · rw [if_neg escape, if_neg escape]
    cases opens : dollarQuoteDelimiter (query.drop scan.i) 0 with
    | some delimiter =>
        obtain ⟨_, room, _⟩ := dollarQuoteDelimiter_spec opens
        rw [List.length_drop] at room
        simp only
        rw [skipDollarQuotedLiteral_eq delimiter (by omega), List.drop_drop]
        simp [Emission.write, Nat.add_assoc]
    | none =>
        simp only
        rw [skipQuotedLiteral_eq (by omega), skipNumericLiteral_eq (by omega), List.drop_drop]
        split_ifs <;> simp_all [Emission.write, Nat.add_assoc]

theorem scanStep_pos {s : Bytes} (nonempty : s ≠ []) : 1 ≤ (scanStep s).2 := by
  have width := decodeRune_width_pos nonempty
  unfold scanStep
  split_ifs
  · simp only
    omega
  all_goals
    split
    next delimiter opens =>
      have := (dollarQuoteDelimiter_spec opens).1
      simp only
      omega
    next =>
      simp only
      omega

/-- The emissions of a whole scan. -/
def emissions : Bytes → List Emission
  | [] => []
  | b :: rest =>
      (scanStep (b :: rest)).1 :: emissions ((b :: rest).drop (scanStep (b :: rest)).2)
termination_by s => s.length
decreasing_by
  have := scanStep_pos (List.cons_ne_nil b rest)
  simp only [List.length_drop, List.length_cons]
  omega

@[simp]
theorem emissions_nil : emissions [] = [] := by
  rw [emissions]

theorem emissions_eq {s : Bytes} (nonempty : s ≠ []) :
    emissions s = (scanStep s).1 :: emissions (s.drop (scanStep s).2) := by
  obtain ⟨b, rest, rfl⟩ := List.exists_cons_of_ne_nil nonempty
  rw [emissions]

theorem emissions_eq_nil_iff {s : Bytes} : emissions s = [] ↔ s = [] := by
  constructor
  · intro empty
    by_contra nonempty
    rw [emissions_eq nonempty] at empty
    contradiction
  · rintro rfl
    exact emissions_nil

/-- Write emissions under a byte budget: the preview is cut at the first emission that reaches the
budget with text left to scan. -/
def render (maxBytes : Nat) (out : Bytes) (lastWasSpace : Bool) : List Emission → Bytes × Bool
  | [] => (trimSpace out, false)
  | emission :: rest =>
      if maxBytes ≤ (emission.write out lastWasSpace).length ∧ rest ≠ [] then
        ((truncateUTF8 (trimSpace (emission.write out lastWasSpace)) maxBytes).1, true)
      else render maxBytes (emission.write out lastWasSpace) (emission == .space) rest

theorem redactLoop_eq_render (query : Bytes) (maxBytes : Nat) (scan : Scan) :
    redactLoop query maxBytes scan =
      render maxBytes scan.out scan.lastWasSpace (emissions (query.drop scan.i)) := by
  fun_induction redactLoop query maxBytes scan with
  | case1 scan inside cut =>
      rw [redactStep_eq inside] at cut ⊢
      simp only at cut ⊢
      rw [emissions_eq (by simpa using inside), render, if_pos]
      refine ⟨cut.1, ?_⟩
      rw [Ne, emissions_eq_nil_iff, List.drop_drop, List.drop_eq_nil_iff]
      omega
  | case2 scan inside uncut ih =>
      rw [redactStep_eq inside] at uncut ih ⊢
      simp only at uncut ih ⊢
      rw [ih, emissions_eq (s := query.drop scan.i) (by simpa using inside), render, if_neg,
        List.drop_drop]
      rw [Ne, emissions_eq_nil_iff, List.drop_drop, List.drop_eq_nil_iff]
      omega
  | case3 scan outside =>
      rw [List.drop_eq_nil_of_le (by omega), emissions_nil, render]

/-- The redactor scans a query into emissions and renders them. -/
theorem redactSQLValues_eq (query : Bytes) (maxBytes : Nat) :
    redactSQLValues query maxBytes = render maxBytes [] false (emissions query) := by
  rw [redactSQLValues, redactLoop_eq_render]
  rfl

/-! ## Reading a part of the query -/

/-- The loop reads from one unread suffix to another with the given emissions. -/
inductive Reads : Bytes → List Emission → Bytes → Prop
  | refl (s : Bytes) : Reads s [] s
  | head {s after : Bytes} {rest : List Emission} (nonempty : s ≠ []) :
      Reads (s.drop (scanStep s).2) rest after → Reads s ((scanStep s).1 :: rest) after

namespace Reads

theorem trans {s middle after : Bytes} {left right : List Emission}
    (first : Reads s left middle) (second : Reads middle right after) :
    Reads s (left ++ right) after := by
  induction first with
  | refl => exact second
  | head nonempty _ ih => exact .head nonempty (ih second)

theorem emissions_eq {s after : Bytes} {read : List Emission} (path : Reads s read after) :
    emissions s = read ++ emissions after := by
  induction path with
  | refl => rfl
  | head nonempty _ ih => rw [Redact.emissions_eq nonempty, ih, List.cons_append]

/-- One turn of the loop whose outcome is known. -/
theorem single {s after : Bytes} {emission : Emission} {size : Nat}
    (nonempty : s ≠ []) (step : scanStep s = (emission, size)) (rest : s.drop size = after) :
    Reads s [emission] after := by
  have path : Reads s [(scanStep s).1] (s.drop (scanStep s).2) := .head nonempty (.refl _)
  rw [step] at path
  simpa only [rest] using path

end Reads

end CommonGo.Redact
