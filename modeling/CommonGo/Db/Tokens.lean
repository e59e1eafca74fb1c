import CommonGo.Db.Literal
import Mathlib.Data.List.DropRight

/-!
# Redaction of token sequences

A query is given as a list of plain runes, runs of white space, numbers and string literals.  The
loop makes the emissions of the tokens, one token after the other, so an uncut preview is the
rendering of the list: a mark for each value and a blank for each run of white space.
-/

namespace CommonGo.Redact

open Go

/-! ## Reading encoded runes -/

theorem head?_encodeRune_append {r : Nat} {a : UInt8} (rest : Bytes) (scalar : validRune r)
    (ascii : isAscii a) : (encodeRune r ++ rest).head? = some a ↔ r = a.toNat := by
  obtain ⟨b, more, text⟩ := List.exists_cons_of_ne_nil (encodeRune_ne_nil r)
  have decoded := decodeRune_encodeRune rest scalar
  rw [text, List.cons_append] at decoded ⊢
  have first : (decodeRune (b :: (more ++ rest))).1 = r := by rw [decoded]
  rw [← first, decodeRune_eq_ascii_iff ascii]
  simp

/-- One turn of the loop at an encoded rune. -/
theorem scanStep_rune {r : Nat} {rest : Bytes} (scalar : validRune r)
    (not_quote : r ≠ quote.toNat) (not_dollar : r ≠ dollar.toNat)
    (not_escape : rest.head? = some quote → r ≠ upperE.toNat ∧ r ≠ lowerE.toNat) :
    scanStep (encodeRune r ++ rest) =
      if isSpace r then (.space, (encodeRune r).length)
      else if isDigit r then (.value, (encodeRune r).length + numericLen rest)
      else (.char r, (encodeRune r).length) := by
  have decoded := decodeRune_encodeRune rest scalar
  have heads : ∀ a : UInt8, isAscii a → (encodeRune r ++ rest).head? = some a → r = a.toNat :=
    fun a ascii => (head?_encodeRune_append rest scalar ascii).mp
  have drop_eq : (encodeRune r ++ rest).drop (encodeRune r).length = rest := List.drop_left
  obtain ⟨b, more, text⟩ := List.exists_cons_of_ne_nil (encodeRune_ne_nil r)
  rw [text, List.cons_append] at heads decoded drop_eq ⊢
  rw [scanStep_of_plain, decoded, drop_eq, if_neg]
  · rintro rfl
    exact not_quote (heads quote (by decide) rfl)
  · rw [isEscapeStringStart_cons]
    rintro ⟨letter, next⟩
    have letter_rune : r = upperE.toNat ∨ r = lowerE.toNat :=
      letter.imp (fun equal => heads upperE (by decide) (by rw [equal]; rfl))
        (fun equal => heads lowerE (by decide) (by rw [equal]; rfl))
    have short : encodeRune r = [UInt8.ofNat r] := by
      apply encodeRune_ascii
      rcases letter_rune with rfl | rfl <;> decide
    obtain rfl : more = [] := by
      rw [text] at short
      exact (List.cons.inj short).2
    rcases letter_rune with upper | lower
    · exact (not_escape next).1 upper
    · exact (not_escape next).2 lower
  · apply dollarQuoteDelimiter_of_ne
    rintro rfl
    exact not_dollar (heads dollar (by decide) rfl)

theorem numericLen_rune {r : Nat} (rest : Bytes) (scalar : validRune r) :
    numericLen (encodeRune r ++ rest) =
      if isDigit r || r == dot.toNat then (encodeRune r).length + numericLen rest else 0 := by
  rw [numericLen_eq (by simp [encodeRune_ne_nil]), decodeRune_encodeRune rest scalar,
    List.drop_left]

theorem numericLen_runes {runes : List Nat} (rest : Bytes)
    (numeric : ∀ r ∈ runes, isDigit r ∨ r = dot.toNat) :
    numericLen (runes.flatMap encodeRune ++ rest) =
      (runes.flatMap encodeRune).length + numericLen rest := by
  induction runes with
  | nil => simp
  | cons r runes ih =>
      have numeric_r := numeric r List.mem_cons_self
      have scalar : validRune r := by
        rcases numeric_r with digit | rfl
        · exact validRune_of_isDigit digit
        · decide
      rw [List.flatMap_cons, List.append_assoc, numericLen_rune _ scalar,
        if_pos (by simpa using numeric_r),
        ih fun c member => numeric c (List.mem_cons_of_mem r member), List.length_append]
      omega

/-! ## Tokens -/

/-- A token of the forms that the redactor supports. -/
inductive Token where
  /-- A rune without meaning to the redactor. -/
  | plain (r : Nat) (scalar : validRune r) (not_quote : r ≠ quote.toNat)
      (not_dollar : r ≠ dollar.toNat) (not_space : isSpace r = false)
      (not_digit : isDigit r = false)
  /-- White space. -/
  | space (first : Nat) (run : List Nat) (spaces : ∀ r ∈ first :: run, isSpace r)
  /-- A digit, then digits and points. -/
  | number (first : Nat) (tail : List Nat) (digit : isDigit first)
      (digits : ∀ r ∈ tail, isDigit r ∨ r = dot.toNat)
  | literal (value : StringLiteral)

namespace Token

/-- Text of a token in the query. -/
def text : Token → Bytes
  | .plain r _ _ _ _ _ => encodeRune r
  | .space first run _ => (first :: run).flatMap encodeRune
  | .number first tail _ _ => (first :: tail).flatMap encodeRune
  | .literal value => value.text

/-- Text of a token in the preview. -/
def shown : Token → Bytes
  | .plain r _ _ _ _ _ => encodeRune r
  | .space _ _ _ => [blank]
  | .number _ _ _ _ | .literal _ => [mark]

/-- White space. -/
def isBlank : Token → Bool
  | .space _ _ _ => true
  | _ => false

/-- A string literal. -/
def isLiteral : Token → Bool
  | .literal _ => true
  | _ => false

/-- A number. -/
def isNumber : Token → Bool
  | .number _ _ _ _ => true
  | _ => false

/-- The plain rune `.`. -/
def isPoint : Token → Bool
  | .plain r _ _ _ _ _ => r == dot.toNat
  | _ => false

/-- Tokens that may stand next to each other: literals next to white space only, and no number in
front of what would continue it. -/
@[mk_iff]
structure Adjacent (left right : Token) : Prop where
  /-- A literal has white space behind it. -/
  after_literal : left.isLiteral → right.isBlank
  /-- A literal has white space before it. -/
  before_literal : right.isLiteral → left.isBlank
  /-- A number is not continued. -/
  after_number : left.isNumber → ¬ right.isNumber ∧ ¬ right.isPoint

instance : DecidableRel Adjacent := fun left right =>
  decidable_of_iff' _ (adjacent_iff left right)

/-- What the loop emits for a token. -/
def emissions : Token → List Emission
  | .plain r _ _ _ _ _ => [.char r]
  | .space first run _ => (first :: run).map fun _ => .space
  | .number _ _ _ _ | .literal _ => [.value]

/-- Text that cannot be taken for a part of the token in front of it. -/
structure Follows (token : Token) (rest : Bytes) : Prop where
  /-- A literal is not continued by a second quote. -/
  closed : token.isBlank = false → rest.head? ≠ some quote
  /-- A number ends where its token does. -/
  ends_number : token.isNumber → numericLen rest = 0

theorem follows_nil (token : Token) : token.Follows [] :=
  ⟨fun _ => by simp, fun _ => by simp [numericLen]⟩

/-- A rune that is neither quote, digit nor point follows every token. -/
theorem follows_rune {token : Token} {r : Nat} {rest : Bytes} (scalar : validRune r)
    (not_quote : r ≠ quote.toNat)
    (not_numeric : token.isNumber → isDigit r = false ∧ r ≠ dot.toNat) :
    token.Follows (encodeRune r ++ rest) := by
  refine ⟨fun _ => ?_, fun number => ?_⟩
  · rw [Ne, head?_encodeRune_append rest scalar (by decide)]
    exact not_quote
  · obtain ⟨not_digit, not_dot⟩ := not_numeric number
    rw [numericLen_rune rest scalar, if_neg (by simp [not_digit, not_dot])]

theorem ne_of_isSpace {r : Nat} {a : UInt8} (space : isSpace r)
    (visible : isSpace a.toNat = false) : r ≠ a.toNat := by
  rintro rfl
  rw [space] at visible
  contradiction

theorem ne_of_isDigit {r : Nat} {a : UInt8} (digit : isDigit r) (other : isDigit a.toNat = false) :
    r ≠ a.toNat := by
  rintro rfl
  rw [digit] at other
  contradiction

theorem Adjacent.follows {left right : Token} (adjacent : left.Adjacent right) (rest : Bytes) :
    left.Follows (right.text ++ rest) := by
  cases right with
  | plain r scalar not_quote not_dollar not_space not_digit =>
      refine follows_rune scalar not_quote fun number => ⟨not_digit, ?_⟩
      simpa [isPoint] using (adjacent.after_number number).2
  | space first run spaces =>
      have space := spaces first List.mem_cons_self
      rw [text, List.flatMap_cons, List.append_assoc]
      exact follows_rune (validRune_of_isSpace space) (ne_of_isSpace space (by decide)) fun _ =>
        ⟨isDigit_of_isSpace space, ne_of_isSpace space (by decide)⟩
  | number first tail digit digits =>
      rw [text, List.flatMap_cons, List.append_assoc]
      exact follows_rune (validRune_of_isDigit digit) (ne_of_isDigit digit (by decide))
        fun number => absurd rfl (adjacent.after_number number).1
  | literal value =>
      have blank_left := adjacent.before_literal rfl
      refine ⟨fun visible => ?_, fun number => ?_⟩
      · rw [blank_left] at visible
        contradiction
      · cases left <;> simp_all [isBlank, isNumber]

theorem reads_spaces {run : List Nat} (spaces : ∀ r ∈ run, isSpace r) (rest : Bytes) :
    Reads (run.flatMap encodeRune ++ rest) (run.map fun _ => .space) rest := by
  induction run with
  | nil => exact .refl rest
  | cons r run ih =>
      have space := spaces r List.mem_cons_self
      have later := ih fun c member => spaces c (List.mem_cons_of_mem r member)
      rw [List.flatMap_cons, List.append_assoc, List.map_cons]
      have first : Reads (encodeRune r ++ (run.flatMap encodeRune ++ rest)) [.space]
          (run.flatMap encodeRune ++ rest) := by
        refine .single (by simp [encodeRune_ne_nil]) ?_ List.drop_left
        rw [scanStep_rune (validRune_of_isSpace space) (ne_of_isSpace space (by decide))
          (ne_of_isSpace space (by decide)) fun _ =>
            ⟨ne_of_isSpace space (by decide), ne_of_isSpace space (by decide)⟩, if_pos space]
      exact first.trans later

/-- The loop reads a token and stops where the token stops. -/
theorem reads {token : Token} {rest : Bytes} (follows : token.Follows rest) :
    Reads (token.text ++ rest) token.emissions rest := by
  cases token with
  | plain r scalar not_quote not_dollar not_space not_digit =>
      refine .single (by simp [text, encodeRune_ne_nil]) ?_ List.drop_left
      rw [text, scanStep_rune scalar not_quote not_dollar
        fun next => absurd next (follows.closed rfl), not_space, not_digit]
      rfl
  | space first run spaces => exact reads_spaces spaces rest
  | number first tail digit digits =>
      refine .single (by simp [text, encodeRune_ne_nil]) ?_ List.drop_left
      have not_space : isSpace first = false := by
        cases space : isSpace first with
        | false => rfl
        | true => rw [isDigit_of_isSpace space] at digit; contradiction
      rw [text, List.flatMap_cons, List.append_assoc, scanStep_rune (validRune_of_isDigit digit)
        (ne_of_isDigit digit (by decide)) (ne_of_isDigit digit (by decide)) fun _ =>
          ⟨ne_of_isDigit digit (by decide), ne_of_isDigit digit (by decide)⟩,
        not_space, digit, numericLen_runes rest digits, follows.ends_number rfl]
      simp
  | literal value => exact reads_literal value (value.closed_of_head? (follows.closed rfl))

/-- Text of a token sequence. -/
def concatenation (tokens : List Token) : Bytes := tokens.flatMap text

/-- The loop reads a token sequence token by token. -/
theorem emissions_concatenation {tokens : List Token} (adjacent : tokens.IsChain Adjacent) :
    Redact.emissions (concatenation tokens) = tokens.flatMap emissions := by
  induction tokens with
  | nil => exact emissions_nil
  | cons token tokens ih =>
      have follows : token.Follows (concatenation tokens) := by
        cases tokens with
        | nil => exact token.follows_nil
        | cons next tokens =>
            rw [List.isChain_cons_cons] at adjacent
            exact adjacent.1.follows (concatenation tokens)
      rw [concatenation, List.flatMap_cons, ← concatenation, (reads follows).emissions_eq,
        ih adjacent.tail, List.flatMap_cons]

/-! ## The rendering -/

/-- Shown text of a sequence, one blank for each run of white space. -/
def collapse (inRun : Bool) : List Token → Bytes
  | [] => []
  | token :: rest =>
      (if token.isBlank && inRun then [] else token.shown) ++ collapse token.isBlank rest

/-- The reference rendering: the shown text without the blanks at its ends. -/
def reference (tokens : List Token) : Bytes :=
  ((collapse false tokens).dropWhile (· == blank)).rdropWhile (· == blank)

/-- The first white space of a run decides what is written for the run. -/
theorem written_spaces (out : Bytes) (lastWasSpace : Bool) (run : List Nat) (list : List Emission) :
    written (Emission.space.write out lastWasSpace) true
        ((run.map fun _ => Emission.space) ++ list) =
      written (Emission.space.write out lastWasSpace) true list := by
  induction run with
  | nil => rfl
  | cons r run ih =>
      rw [List.map_cons, List.cons_append, written, ← ih]
      simp [Emission.write]

/-- Shown text is appended to the preview, where an empty preview counts as white space. -/
theorem written_emissions (out : Bytes) (lastWasSpace : Bool) (tokens : List Token) :
    written out lastWasSpace (tokens.flatMap emissions) =
      out ++ collapse (lastWasSpace || out.isEmpty) tokens := by
  induction tokens generalizing out lastWasSpace with
  | nil => simp [written, collapse]
  | cons token tokens ih =>
      have marked : (Emission.value == .space) = false ∧ (out ++ [mark]).isEmpty = false := by simp
      rw [List.flatMap_cons, collapse]
      cases token with
      | plain r scalar not_quote not_dollar not_space not_digit =>
          have nonempty : (out ++ encodeRune r).isEmpty = false := by simp [encodeRune_ne_nil]
          have copied : (Emission.char r == .space) = false := rfl
          rw [emissions, List.singleton_append, written, ih, copied, Emission.write, nonempty]
          simp [isBlank, shown]
      | space first run spaces =>
          rw [emissions, List.map_cons, List.cons_append, written, beq_self_eq_true, written_spaces,
            ih, Bool.true_or, isBlank, Bool.true_and]
          cases lastWasSpace with
          | true => simp [Emission.write]
          | false =>
              cases out with
              | nil => simp [Emission.write]
              | cons b out => simp [Emission.write, shown]
      | number first tail digit digits =>
          rw [emissions, List.singleton_append, written, ih, marked.1, Emission.write, marked.2]
          simp [isBlank, shown]
      | literal value =>
          rw [emissions, List.singleton_append, written, ih, marked.1, Emission.write, marked.2]
          simp [isBlank, shown]

/-- The text shown behind white space starts with no blank. -/
theorem head?_collapse (tokens : List Token) : (collapse true tokens).head? ≠ some blank := by
  induction tokens with
  | nil => simp [collapse]
  | cons token tokens ih =>
      rw [collapse]
      cases token with
      | plain r scalar not_quote not_dollar not_space not_digit =>
          simp only [isBlank, Bool.false_and, Bool.false_eq_true, if_false, shown]
          rw [Ne, head?_encodeRune_append _ scalar (by decide)]
          rintro rfl
          exact absurd not_space (by decide)
      | space first run spaces => simpa [isBlank] using ih
      | number first tail digit digits => simp [isBlank, shown, mark, blank]
      | literal value => simp [isBlank, shown, mark, blank]

theorem dropWhile_of_head? {s : Bytes} (visible : s.head? ≠ some blank) :
    s.dropWhile (· == blank) = s := by
  cases s with
  | nil => rfl
  | cons b s =>
      rw [List.dropWhile_cons_of_neg]
      simpa using visible

/-- Dropping the blanks in front is counting the start as white space. -/
theorem dropWhile_collapse (tokens : List Token) :
    (collapse false tokens).dropWhile (· == blank) = collapse true tokens := by
  have leading := dropWhile_of_head? (head?_collapse tokens)
  cases tokens with
  | nil => rfl
  | cons token tokens =>
      cases blank_first : token.isBlank with
      | true =>
          have shown_eq : token.shown = [blank] := by
            cases token <;> simp_all [isBlank, shown]
          have later := dropWhile_of_head? (head?_collapse tokens)
          rw [collapse, collapse, blank_first, shown_eq]
          simpa using later
      | false =>
          rw [collapse, blank_first] at leading ⊢
          rw [collapse, blank_first]
          exact leading

end Token

/-- An encoded rune that is no white space does not end in a blank. -/
theorem rdropWhile_encodeRune {r : Nat} (front : Bytes) (not_space : isSpace r = false) :
    (front ++ encodeRune r).rdropWhile (· == blank) = front ++ encodeRune r := by
  rw [List.rdropWhile_eq_self_iff]
  intro nonempty
  rw [List.getLast_append_of_ne_nil _ (encodeRune_ne_nil r), beq_iff_eq]
  intro last_eq
  rcases Nat.lt_or_ge r 0x80 with small | large
  · simp only [encodeRune_ascii small, List.getLast_singleton] at last_eq
    have rune_eq := congrArg UInt8.toNat last_eq
    rw [UInt8.toNat_ofNat', Nat.mod_eq_of_lt (by omega)] at rune_eq
    rw [rune_eq] at not_space
    exact absurd not_space (by decide)
  · obtain ⟨lead, conts, text, _, some_cont, _, conts_cont⟩ := encodeRune_shape large
    have conts_ne : conts ≠ [] := List.ne_nil_of_length_pos some_cont
    simp only [text, List.getLast_cons conts_ne] at last_eq
    have cont := conts_cont _ (List.getLast_mem conts_ne)
    rw [last_eq] at cont
    exact absurd cont (by decide)

/-- Trimming a written text is dropping its trailing blanks. -/
theorem trimSpace_eq_rdropWhile {out : Bytes} {lastWasSpace : Bool}
    (settled : Settled out lastWasSpace) :
    trimSpace out = out.rdropWhile (· == blank) ∧ out.length ≤ (trimSpace out).length + 1 := by
  rcases trimSpace_settled settled with ⟨out_eq, trimmed⟩ | ⟨front, r, _, visible, trimmed, out_eq⟩
  · rw [trimmed, out_eq]
    simp
  · have kept := rdropWhile_encodeRune front visible
    rw [← trimmed] at kept
    cases lastWasSpace with
    | true =>
        rw [if_pos rfl] at out_eq
        constructor
        · conv_rhs => rw [out_eq]
          rw [List.rdropWhile_concat_pos _ _ _ (by simp), kept]
        · conv_lhs => rw [out_eq]
          simp
    | false =>
        rw [if_neg Bool.false_ne_true, List.append_nil] at out_eq
        rw [← out_eq] at kept ⊢
        exact ⟨kept.symm, by omega⟩

/-- The redactor renders every token sequence as the reference does. -/
theorem redactSQLValues_concatenation {tokens : List Token} {maxBytes : Nat}
    (adjacent : tokens.IsChain Token.Adjacent)
    (fits : ((Token.reference tokens).length : Int) < maxBytes - 4) :
    redactSQLValues (Token.concatenation tokens) maxBytes = (Token.reference tokens, false) := by
  have written_eq : written [] false (emissions (Token.concatenation tokens)) =
      (Token.collapse false tokens).dropWhile (· == blank) := by
    rw [Token.emissions_concatenation adjacent, Token.written_emissions, Token.dropWhile_collapse]
    rfl
  obtain ⟨trailing, settled⟩ :=
    written_settled (.inl rfl) (emissions_shown (Token.concatenation tokens))
  obtain ⟨trimmed, length_le⟩ := trimSpace_eq_rdropWhile settled
  have preview_eq : fullPreview (Token.concatenation tokens) = Token.reference tokens := by
    rw [fullPreview, trimmed, written_eq, Token.reference]
  rw [← preview_eq, fullPreview] at fits
  rw [redactSQLValues_of_fits (by omega), preview_eq]

/-- White space, the rune `x`, a literal of each form and a number. -/
def sampleTokens : List Token :=
  [.space 0x09 [] (by simp [isSpace]),
    .plain 0x78 (by decide) (by decide) (by decide) (by decide) (by decide),
    .space 0x20 [] (by simp [isSpace]), .literal (.standard [0x61, quote]),
    .space 0x20 [] (by simp [isSpace]), .literal (.escape true [.escaped quote]),
    .space 0x20 [] (by simp [isSpace]), .literal (.dollar ⟨[], [0x62], by decide, by decide⟩),
    .space 0x20 [] (by simp [isSpace]), .number 0x31 [0x2E] (by decide) (by simp [dot])]

/-- They are shown as `x ? ? ? ?`. -/
theorem redactSQLValues_concatenation_sample :
    redactSQLValues (Token.concatenation sampleTokens) 14 =
      ([0x78, blank, mark, blank, mark, blank, mark, blank, mark], false) :=
  redactSQLValues_concatenation (by decide) (by decide)

end CommonGo.Redact
