import CommonGo.Db.Alike

/-!
# Bound values in explained statements

GORM's dialectors explain a prepared statement by writing its bound values into the places of their
placeholders: numbers as numerals, strings between two escapers with the escapers inside doubled.
The escaper is the apostrophe for PostgreSQL and MySQL and the double quote for SQLite.
-/

namespace CommonGo.Redact

open Go

/-- What a placeholder binds. -/
inductive HoleKind where
  | text
  | number
  deriving DecidableEq, Repr

/-- A value bound to a placeholder. -/
inductive BoundValue where
  | text (v : Bytes)
  | number (numeral : Numeral)

/-- The hole that a value fits. -/
def BoundValue.kind : BoundValue → HoleKind
  | .text _ => .text
  | .number _ => .number

/-- The rendering of a bound value in `logger.ExplainSQL`. -/
def BoundValue.explain (escaper : UInt8) : BoundValue → Bytes
  | .text v => escaper :: (doubled escaper v ++ [escaper])
  | .number numeral => numeral.text

/-- A statement with placeholders: its first piece of text, then each hole with the piece behind
it. -/
structure Template where
  /-- The text before the first hole. -/
  head : Bytes
  /-- The holes, each with the text behind it. -/
  holes : List (HoleKind × Bytes)

namespace Template

/-- The pieces of text, in order. -/
def pieces (template : Template) : List Bytes := template.head :: template.holes.map Prod.snd

/-- The kinds of the holes, in order. -/
def kinds (template : Template) : List HoleKind := template.holes.map Prod.fst

/-- Values that fit the holes one by one. -/
def Fits (template : Template) (values : List BoundValue) : Prop :=
  values.map BoundValue.kind = template.kinds

/-- Write values into holes. -/
def fillHoles (escaper : UInt8) : List (HoleKind × Bytes) → List BoundValue → Bytes
  | (_, piece) :: holes, value :: values =>
      value.explain escaper ++ (piece ++ fillHoles escaper holes values)
  | _, _ => []

/-- The explained statement. -/
def fill (template : Template) (escaper : UInt8) (values : List BoundValue) : Bytes :=
  template.head ++ fillHoles escaper template.holes values

/-- Templates whose text holds no quote and no dollar, keeps holes apart and puts no `E` directly in
front of a string. -/
structure Admissible (template : Template) : Prop where
  /-- No piece of text holds a quote or a dollar. -/
  clean : ∀ piece ∈ template.pieces, ∀ b ∈ piece, b ≠ quote ∧ b ≠ dollar
  /-- There is text between two holes. -/
  separated : ∀ piece ∈ (template.holes.map Prod.snd).dropLast, piece ≠ []
  /-- No string is made an escape string by the text before it. -/
  unprefixed : ∀ entry ∈ template.pieces.zip template.kinds, entry.2 = .text →
    entry.1.getLast? ≠ some upperE ∧ entry.1.getLast? ≠ some lowerE

end Template

private theorem ne_quote_of_isDecimal {b : UInt8} (digit : isDecimal b) : b ≠ quote := by
  rintro rfl
  exact absurd digit (by decide)

private theorem exists_text {value : BoundValue} (kind : value.kind = .text) :
    ∃ v, value = .text v := by
  cases value with
  | text v => exact ⟨v, rfl⟩
  | number numeral => cases kind

private theorem exists_number {value : BoundValue} (kind : value.kind = .number) :
    ∃ numeral, value = .number numeral := by
  cases value with
  | text v => cases kind
  | number numeral => exact ⟨numeral, rfl⟩

open Template in
/-- What follows a hole starts with no quote. -/
private theorem head?_fillHoles_ne {holes : List (HoleKind × Bytes)} {kind : HoleKind}
    {piece : Bytes} (clean : ∀ b ∈ piece, b ≠ quote ∧ b ≠ dollar)
    (separated : ∀ later ∈ (((kind, piece) :: holes).map Prod.snd).dropLast, later ≠ [])
    (values : List BoundValue) : (piece ++ fillHoles quote holes values).head? ≠ some quote := by
  cases piece with
  | cons b piece =>
      intro next
      exact (clean b List.mem_cons_self).1 (by simpa using next)
  | nil =>
      cases holes with
      | nil => simp [fillHoles]
      | cons next holes => exact absurd rfl (separated [] List.mem_cons_self)

open Template in
/-- Fillings of the same holes behind the same text are alike. -/
private theorem alike_fill {holes : List (HoleKind × Bytes)} {text : Bytes}
    {left right : List BoundValue}
    (clean : ∀ piece ∈ text :: holes.map Prod.snd, ∀ b ∈ piece, b ≠ quote ∧ b ≠ dollar)
    (separated : ∀ piece ∈ (holes.map Prod.snd).dropLast, piece ≠ [])
    (unprefixed : ∀ entry ∈ (text :: holes.map Prod.snd).zip (holes.map Prod.fst),
      entry.2 = .text → entry.1.getLast? ≠ some upperE ∧ entry.1.getLast? ≠ some lowerE)
    (left_fits : left.map BoundValue.kind = holes.map Prod.fst)
    (right_fits : right.map BoundValue.kind = holes.map Prod.fst) :
    Alike (text ++ fillHoles quote holes left) (text ++ fillHoles quote holes right) := by
  induction holes generalizing text left right with
  | nil =>
      simp only [fillHoles]
      exact .same _
  | cons hole holes ih =>
      obtain ⟨kind, piece⟩ := hole
      obtain ⟨value, left, rfl⟩ : ∃ value rest, left = value :: rest := by
        cases left with
        | nil => simp at left_fits
        | cons value rest => exact ⟨value, rest, rfl⟩
      obtain ⟨other, right, rfl⟩ : ∃ other rest, right = other :: rest := by
        cases right with
        | nil => simp at right_fits
        | cons other rest => exact ⟨other, rest, rfl⟩
      simp only [List.map_cons, List.cons.injEq] at left_fits right_fits
      have piece_clean : ∀ b ∈ piece, b ≠ quote ∧ b ≠ dollar := clean piece (by simp)
      have rest_alike : Alike (piece ++ fillHoles quote holes left)
          (piece ++ fillHoles quote holes right) := by
        apply ih
        · exact fun later member => clean later (List.mem_cons_of_mem text member)
        · intro later member
          apply separated later
          cases holes with
          | nil => simp at member
          | cons next holes => exact List.mem_cons_of_mem piece member
        · exact fun entry member => unprefixed entry (List.mem_cons_of_mem _ member)
        · exact left_fits.2
        · exact right_fits.2
      have closed := head?_fillHoles_ne piece_clean separated
      have text_clean := clean text List.mem_cons_self
      simp only [fillHoles]
      cases kind with
      | text =>
          obtain ⟨v, rfl⟩ := exists_text left_fits.1
          obtain ⟨w, rfl⟩ := exists_text right_fits.1
          have plain : ∀ rest, PlainText text rest := fun rest =>
            plainText_of_clean text_clean fun _ =>
              unprefixed (text, .text) List.mem_cons_self rfl
          exact (Alike.literal (.standard v) (.standard w) (closed left) (closed right)
            rest_alike).append_left (plain _) (plain _)
      | number =>
          obtain ⟨n, rfl⟩ := exists_number left_fits.1
          obtain ⟨m, rfl⟩ := exists_number right_fits.1
          have plain : ∀ (numeral : Numeral) (rest : Bytes),
              PlainText text (numeral.text ++ rest) := fun numeral rest =>
            plainText_of_clean text_clean fun head =>
              absurd (by simpa [Numeral.text] using head)
                (ne_quote_of_isDecimal numeral.head_digit)
          exact (Alike.number n m rest_alike).append_left (plain n _) (plain m _)

/-- Bound values do not reach the log: two explanations of one template, by PostgreSQL's or MySQL's
dialector, have the same preview and the same truncation flag under every budget. -/
theorem redactSQLValues_fill_eq {template : Template} {left right : List BoundValue}
    (admissible : template.Admissible) (left_fits : template.Fits left)
    (right_fits : template.Fits right) :
    (∀ maxBytes, 3 ≤ maxBytes →
      redactSQLValues (template.fill quote left) maxBytes =
        redactSQLValues (template.fill quote right) maxBytes) ∧
      (summarizeSQL (template.fill quote left)).preview =
        (summarizeSQL (template.fill quote right)).preview ∧
      (summarizeSQL (template.fill quote left)).truncated =
        (summarizeSQL (template.fill quote right)).truncated := by
  have same : ∀ maxBytes, redactSQLValues (template.fill quote left) maxBytes =
      redactSQLValues (template.fill quote right) maxBytes :=
    (alike_fill admissible.clean admissible.separated admissible.unprefixed left_fits
      right_fits).redact_eq
  exact ⟨fun maxBytes _ => same maxBytes, congrArg Prod.fst (same _), congrArg Prod.snd (same _)⟩

/-- The statement `a=_ b=_` with a string and a number bound. -/
def sampleTemplate : Template := ⟨[0x61, 0x3D], [(.text, [0x20, 0x62, 0x3D]), (.number, [])]⟩

/-- A string of quotes, dollars, a backslash and a broken encoding is hidden like the empty one. -/
theorem redactSQLValues_fill_eq_sample :
    redactSQLValues
        (sampleTemplate.fill quote [.text [quote, dollar, dollar, backslash, quote, 0xC3],
          .number ⟨0x37, [], by decide, by simp⟩]) 8 =
      redactSQLValues
        (sampleTemplate.fill quote
          [.text [], .number ⟨0x31, [0x2E, 0x35], by decide, by simp [isDecimal, dot]⟩]) 8 := by
  have admissible : sampleTemplate.Admissible := by
    constructor <;>
      simp [sampleTemplate, Template.pieces, Template.kinds, quote, dollar, upperE, lowerE]
  exact (redactSQLValues_fill_eq admissible (by rfl) (by rfl)).1 8 (by decide)

/-! ## SQLite -/

/-- Templates of string holes whose text holds no quote of either kind and no dollar and keeps holes
apart. -/
structure Template.SqliteAdmissible (template : Template) : Prop where
  /-- All holes are for strings. -/
  strings : ∀ hole ∈ template.holes, hole.1 = .text
  /-- No piece of text holds a quote or a dollar. -/
  clean : ∀ piece ∈ template.pieces, ∀ b ∈ piece, b ≠ quote ∧ b ≠ doubleQuote ∧ b ≠ dollar
  /-- There is text between two holes. -/
  separated : ∀ piece ∈ (template.holes.map Prod.snd).dropLast, piece ≠ []

/-- A one-letter value between double quotes is copied with its quotes. -/
private theorem emissions_doubleQuoted {text rest : Bytes} {letter : UInt8}
    (clean : ∀ b ∈ text, b ≠ quote ∧ b ≠ dollar)
    (is_letter : letter = 0x78 ∨ letter = 0x79) :
    emissions (text ++ (doubleQuote :: letter :: doubleQuote :: rest)) =
      emissions text ++ .char doubleQuote.toNat :: .char letter.toNat ::
        .char doubleQuote.toNat :: emissions rest := by
  have copied : ∀ (b : UInt8) (tail : Bytes), b = doubleQuote ∨ b = 0x78 ∨ b = 0x79 →
      emissions (b :: tail) = .char b.toNat :: emissions tail := by
    intro b tail b_eq
    have inert : Inert b := by
      rcases b_eq with rfl | rfl | rfl <;> refine ⟨?_, ?_, ?_, ?_⟩ <;> decide
    apply emissions_char (inert.plainByte tail)
    all_goals rcases b_eq with rfl | rfl | rfl <;> decide
  have plain : PlainText text (doubleQuote :: letter :: doubleQuote :: rest) :=
    plainText_of_clean clean fun head => absurd head (by simp [doubleQuote, quote])
  have breaks : Breaks (doubleQuote :: letter :: doubleQuote :: rest) := by
    intro b tail shape
    obtain ⟨rfl, rfl⟩ := List.cons.inj shape
    decide
  rw [(reads_plainText plain breaks).emissions_eq, copied _ _ (.inl rfl),
    copied letter _ (.inr is_letter), copied _ _ (.inl rfl)]

/-- SQLite's dialector hides its bound strings exactly when there are none. -/
theorem samePreview_fill_doubleQuote_iff {template : Template}
    (admissible : template.SqliteAdmissible) :
    (∀ left right, template.Fits left → template.Fits right →
        SamePreview (template.fill doubleQuote left) (template.fill doubleQuote right)) ↔
      template.holes = [] := by
  obtain ⟨head, holes⟩ := template
  constructor
  · intro same
    cases holes with
    | nil => rfl
    | cons hole holes =>
        exfalso
        obtain ⟨kind, piece⟩ := hole
        have kind_eq : kind = .text := admissible.strings (kind, piece) List.mem_cons_self
        have head_clean : ∀ b ∈ head, b ≠ quote ∧ b ≠ dollar := fun b member =>
          ⟨(admissible.clean head List.mem_cons_self b member).1,
            (admissible.clean head List.mem_cons_self b member).2.2⟩
        let empties := holes.map fun _ => BoundValue.text []
        have fits : ∀ v, Template.Fits ⟨head, (kind, piece) :: holes⟩ (.text v :: empties) := by
          intro v
          have kinds : ∀ hole ∈ holes, HoleKind.text = hole.1 := fun hole member =>
            (admissible.strings hole (List.mem_cons_of_mem _ member)).symm
          simp only [Template.Fits, Template.kinds, List.map_cons, BoundValue.kind, kind_eq,
            empties, List.map_map]
          rw [List.cons.injEq]
          exact ⟨rfl, List.map_congr_left kinds⟩
        have previews := samePreview_iff.mp
          (same (.text [0x78] :: empties) (.text [0x79] :: empties) (fits _) (fits _))
        have counts := congrArg (List.count 0x78) previews
        rw [count_fullPreview (by decide), count_fullPreview (by decide)] at counts
        have explained : ∀ letter : UInt8, letter ≠ doubleQuote →
            Template.fill ⟨head, (kind, piece) :: holes⟩ doubleQuote (.text [letter] :: empties) =
              head ++ (doubleQuote :: letter :: doubleQuote ::
                (piece ++ Template.fillHoles doubleQuote holes empties)) := by
          intro letter other
          simp [Template.fill, Template.fillHoles, BoundValue.explain, doubled, other]
        rw [explained _ (by decide), explained _ (by decide),
          emissions_doubleQuoted head_clean (.inl rfl),
          emissions_doubleQuoted head_clean (.inr rfl)] at counts
        simp only [List.flatMap_append, List.flatMap_cons, List.count_append, Emission.bytes]
          at counts
        have char_x : (encodeRune (0x78 : UInt8).toNat).count 0x78 = 1 := by decide
        have char_y : (encodeRune (0x79 : UInt8).toNat).count 0x78 = 0 := by decide
        omega
  · rintro holes_eq left right left_fits right_fits
    change holes = [] at holes_eq
    subst holes_eq
    obtain rfl : left = [] := by simpa [Template.Fits, Template.kinds] using left_fits
    obtain rfl : right = [] := by simpa [Template.Fits, Template.kinds] using right_fits
    exact samePreview_iff.mpr rfl

/-- The template `a=_` with a string bound. -/
def sqliteTemplate : Template := ⟨[0x61, 0x3D], [(.text, [])]⟩

/-- It cannot hide the string. -/
theorem samePreview_fill_doubleQuote_iff_sample :
    ¬ ∀ left right, sqliteTemplate.Fits left → sqliteTemplate.Fits right →
      SamePreview (sqliteTemplate.fill doubleQuote left)
        (sqliteTemplate.fill doubleQuote right) := by
  rw [samePreview_fill_doubleQuote_iff]
  · simp [sqliteTemplate]
  · constructor <;> simp [sqliteTemplate, Template.pieces, quote, doubleQuote, dollar]

/-- Two strings bound to the template `a=_` and explained for SQLite appear in uncut previews. -/
theorem sqlite_bound_value_logged :
    sqliteTemplate.SqliteAdmissible ∧
      redactSQLValues (sqliteTemplate.fill doubleQuote [.text [0x78]]) 2048 =
        ([0x61, 0x3D, doubleQuote, 0x78, doubleQuote], false) ∧
      redactSQLValues (sqliteTemplate.fill doubleQuote [.text [0x79]]) 2048 =
        ([0x61, 0x3D, doubleQuote, 0x79, doubleQuote], false) := by
  refine ⟨?_, by decide +kernel, by decide +kernel⟩
  constructor <;> simp [sqliteTemplate, Template.pieces, quote, doubleQuote, dollar]

end CommonGo.Redact
