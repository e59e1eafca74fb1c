import CommonGo.Db.Alike

/-!
# Statements around their literals

A skeleton is the text of a statement without its literals.  Fillings of one skeleton are alike when
every piece of text in front of a literal closes the literals that it opens itself.
-/

namespace CommonGo.Redact

open Go

/-- ASCII white space. -/
def asciiSpace (b : UInt8) : Bool := isAscii b && isSpace b.toNat

theorem ne_of_asciiSpace {a b : UInt8} (space : asciiSpace a) (visible : asciiSpace b = false) :
    a ≠ b := by
  rintro rfl
  rw [space] at visible
  contradiction

/-! ## Text that closes its own literals -/

/-- Text in which every literal that opens is closed again. -/
inductive PairsOff : Bytes → Prop
  | nil : PairsOff []
  | byte {b : UInt8} {text : Bytes} : PlainByte b text → PairsOff text → PairsOff (b :: text)
  | literal (literal : StringLiteral) {text : Bytes} : literal.Closed text → PairsOff text →
      PairsOff (literal.text ++ text)

theorem PairsOff.append_left {text rest : Bytes} (plain : PlainText text rest)
    (pairs : PairsOff rest) : PairsOff (text ++ rest) := by
  induction text with
  | nil => exact pairs
  | cons b text ih => exact .byte plain.1 (ih plain.2)

theorem pairsOff_of_clean {text : Bytes} (clean : ∀ b ∈ text, b ≠ quote ∧ b ≠ dollar) :
    PairsOff text := by
  have plain : PlainText text [] := plainText_of_clean clean (by simp)
  simpa using PairsOff.nil.append_left plain

/-- The empty text, or text that ends in white space. -/
def EndsBlank (text : Bytes) : Prop := text.getLast?.all asciiSpace

instance (text : Bytes) : Decidable (EndsBlank text) :=
  inferInstanceAs (Decidable (text.getLast?.all asciiSpace = true))

theorem EndsBlank.of_append (front : Bytes) {text : Bytes} (ends : EndsBlank (front ++ text)) :
    EndsBlank text := by
  cases text with
  | nil => rfl
  | cons b text =>
      rw [EndsBlank, List.getLast?_append_of_ne_nil _ (List.cons_ne_nil b text)] at ends
      exact ends

theorem EndsBlank.exists_last {text : Bytes} (ends : EndsBlank text) (nonempty : text ≠ []) :
    ∃ front last, text = front ++ [last] ∧ asciiSpace last := by
  refine ⟨text.dropLast, text.getLast nonempty, (List.dropLast_append_getLast nonempty).symm, ?_⟩
  rw [EndsBlank, List.getLast?_eq_some_getLast nonempty] at ends
  exact ends

theorem asciiSpace_tagCont {b : UInt8} (space : asciiSpace b) : tagCont b = false := by
  simp only [asciiSpace, isAscii, Bool.and_eq_true, decide_eq_true_eq] at space
  have range := (isSpace_ascii space.1).mp space.2
  have under : b ≠ underscore := by
    rintro rfl
    exact absurd range (by decide)
  cases cont : tagCont b with
  | false => rfl
  | true =>
      simp only [tagCont_iff, tagStart_iff, under, false_or] at cont
      omega

theorem asciiSpace_notMem_delimiterOf {b : UInt8} {tag : Bytes} (space : asciiSpace b)
    (valid : isTag tag) : b ∉ delimiterOf tag := by
  have not_dollar : b ≠ dollar := ne_of_asciiSpace space (by decide)
  intro member
  have in_tag : b ∈ tag := by simpa [delimiterOf, not_dollar] using member
  have cont := tagCont_of_mem valid in_tag
  rw [asciiSpace_tagCont space] at cont
  contradiction

/-- Text that ends in white space decides by itself whether a byte of it opens a literal. -/
theorem PlainByte.append {b : UInt8} {text : Bytes} (plain : PlainByte b text)
    (ends : EndsBlank (b :: text)) (rest : Bytes) : PlainByte b (text ++ rest) := by
  refine ⟨plain.not_quote, ?_, ?_⟩
  · rw [isEscapeStringStart_cons]
    rintro ⟨letter, next⟩
    cases text with
    | nil =>
        have space : asciiSpace b := ends
        rcases letter with rfl | rfl <;> exact absurd space (by decide)
    | cons c text =>
        apply plain.not_escape
        rw [isEscapeStringStart_cons]
        exact ⟨letter, next⟩
  · cases opens : dollarQuoteDelimiter (b :: (text ++ rest)) 0 with
    | none => rfl
    | some delimiter =>
        obtain ⟨tag, tail, valid, _, whole⟩ := dollarQuoteDelimiter_eq_some opens
        obtain ⟨front, last, text_eq, space⟩ := ends.exists_last (List.cons_ne_nil b text)
        have found : delimiterOf tag <+: front ++ last :: rest := by
          refine ⟨tail, ?_⟩
          rw [← whole, ← List.cons_append, text_eq, List.append_assoc]
          rfl
        obtain ⟨more, front_eq⟩ :=
          isPrefix_of_notMem found (asciiSpace_notMem_delimiterOf space valid)
        have alone := plain.not_dollar
        rw [text_eq, ← front_eq, List.append_assoc,
          dollarQuoteDelimiter_delimiterOf _ valid] at alone
        contradiction

theorem StringLiteral.getLast?_text (literal : StringLiteral) :
    literal.text.getLast? = some quote ∨ literal.text.getLast? = some Redact.dollar := by
  have ends : ∀ (front : Bytes) (b : UInt8), (front ++ [b]).getLast? = some b := fun _ _ =>
    List.getLast?_concat
  cases literal with
  | standard v => exact .inl (ends (quote :: doubled quote v) quote)
  | escape upper items => exact .inl (ends (_ :: quote :: escapeBody items) quote)
  | dollar literal =>
      right
      rw [text, DollarLiteral.text, List.getLast?_append_of_ne_nil _ (by simp [delimiterOf])]
      exact ends (Redact.dollar :: literal.tag) Redact.dollar

/-- A literal inside text that ends in white space is closed by that text. -/
theorem StringLiteral.Closed.append {literal : StringLiteral} {text : Bytes}
    (closed : literal.Closed text) (ends : EndsBlank (literal.text ++ text)) (rest : Bytes) :
    literal.Closed (text ++ rest) := by
  cases text with
  | nil =>
      rw [List.append_nil, EndsBlank] at ends
      rcases literal.getLast?_text with last | last <;> rw [last] at ends <;>
        exact absurd ends (by decide)
  | cons b text =>
      cases literal with
      | standard v => exact closed
      | escape upper items => exact closed
      | dollar literal => trivial

/-- Text that pairs off keeps what follows it alike. -/
theorem PairsOff.alike {text s t : Bytes} (pairs : PairsOff text) (ends : EndsBlank text)
    (alike : Alike s t) : Alike (text ++ s) (text ++ t) := by
  induction pairs with
  | nil => exact alike
  | @byte b text plain pairs ih =>
      have text_ends : EndsBlank text := EndsBlank.of_append [b] ends
      exact .byte (plain.append ends s) (plain.append ends t) (ih text_ends)
  | @literal literal text closed pairs ih =>
      rw [List.append_assoc, List.append_assoc]
      exact .literal literal literal (closed.append ends s) (closed.append ends t)
        (ih (ends.of_append literal.text))

/-! ## Skeletons -/

/-- The text in front of the first literal and the text behind each literal. -/
structure Skeleton where
  /-- The text before the first literal. -/
  head : Bytes
  /-- The text behind each literal. -/
  tails : List Bytes

namespace Skeleton

/-- Pieces of text that a literal follows. -/
def before (skeleton : Skeleton) : List Bytes := (skeleton.head :: skeleton.tails).dropLast

/-- The statement with the given literals. -/
def fill (skeleton : Skeleton) (literals : List Bytes) : Bytes :=
  skeleton.head ++ (literals.zip skeleton.tails).flatMap fun entry => entry.1 ++ entry.2

/-- White space stands between the literals and all other text. -/
@[mk_iff]
structure Separated (skeleton : Skeleton) : Prop where
  /-- White space comes before every literal. -/
  before_literal : ∀ text ∈ skeleton.before, EndsBlank text
  /-- White space, if anything, comes behind every literal. -/
  after_literal : ∀ text ∈ skeleton.tails, text.head?.all asciiSpace
  /-- Two literals do not touch. -/
  between : ∀ text ∈ skeleton.tails.dropLast, text ≠ []

instance (skeleton : Skeleton) : Decidable skeleton.Separated :=
  decidable_of_iff' _ skeleton.separated_iff

@[simp]
theorem fill_nil (head : Bytes) (literals : List Bytes) : fill ⟨head, []⟩ literals = head := by
  simp [fill]

@[simp]
theorem fill_cons (head tail : Bytes) (tails : List Bytes) (literal : Bytes)
    (literals : List Bytes) :
    fill ⟨head, tail :: tails⟩ (literal :: literals) =
      head ++ (literal ++ fill ⟨tail, tails⟩ literals) := by
  simp [fill]

theorem Separated.tail {head tail : Bytes} {tails : List Bytes}
    (separated : Separated ⟨head, tail :: tails⟩) : Separated ⟨tail, tails⟩ := by
  refine ⟨fun text member => ?_, fun text member => ?_, fun text member => ?_⟩
  · exact separated.before_literal text (List.mem_cons_of_mem head member)
  · exact separated.after_literal text (List.mem_cons_of_mem tail member)
  · apply separated.between text
    cases tails with
    | nil => simp at member
    | cons next tails => exact List.mem_cons_of_mem tail member

/-- What follows a literal does not continue it. -/
theorem Separated.closed {head tail : Bytes} {tails : List Bytes}
    (separated : Separated ⟨head, tail :: tails⟩) (literals : List Bytes) :
    (fill ⟨tail, tails⟩ literals).head? ≠ some quote := by
  cases tail with
  | nil =>
      cases tails with
      | nil => simp
      | cons next tails => exact absurd rfl (separated.between [] List.mem_cons_self)
  | cons b tail =>
      have space : asciiSpace b := separated.after_literal (b :: tail) List.mem_cons_self
      have other := ne_of_asciiSpace space (by decide : asciiSpace quote = false)
      simpa [fill] using other

/-- Fillings of a skeleton with standard literals are alike when its text pairs off. -/
theorem Separated.alike_fill {skeleton : Skeleton} (separated : skeleton.Separated)
    (pairs : ∀ text ∈ skeleton.before, PairsOff text) {left right : List Bytes}
    (left_fits : left.length = skeleton.tails.length)
    (right_fits : right.length = skeleton.tails.length) :
    Alike (skeleton.fill (left.map standardLiteral))
      (skeleton.fill (right.map standardLiteral)) := by
  obtain ⟨head, tails⟩ := skeleton
  induction tails generalizing head left right with
  | nil =>
      rw [fill_nil, fill_nil]
      exact .same head
  | cons tail tails ih =>
      obtain ⟨v, left, rfl⟩ := List.exists_cons_of_length_eq_add_one left_fits
      obtain ⟨w, right, rfl⟩ := List.exists_cons_of_length_eq_add_one right_fits
      have later := ih tail separated.tail
        (fun text member => pairs text (List.mem_cons_of_mem head member))
        (by simpa using left_fits) (by simpa using right_fits)
      rw [List.map_cons, List.map_cons, fill_cons, fill_cons]
      have head_first : head ∈ before ⟨head, tail :: tails⟩ := List.mem_cons_self
      exact (pairs head head_first).alike (separated.before_literal head head_first)
        (.literal (.standard v) (.standard w) (separated.closed _) (separated.closed _) later)

end Skeleton

end CommonGo.Redact
