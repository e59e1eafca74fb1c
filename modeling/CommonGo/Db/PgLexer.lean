import CommonGo.Db.Comments

/-!
# The lexer of PostgreSQL

A reference lexer for queries without quoted identifiers and comments.  It takes the longest token
at every position: identifiers swallow letters, digits and dollars, so that `E'` and `$tag$` open a
literal only where a token starts.  So do `B'`, `X'` and `U&'`, of which the redactor knows nothing.
`N'` is a keyword in front of a standard literal.
-/

namespace CommonGo.Redact

open Go

/-- Kinds of tokens. -/
inductive PgKind where
  | identifier
  | number
  /-- A standard literal, possibly continued on another line. -/
  | standard (continued : Bool)
  /-- An escape literal, possibly continued on another line. -/
  | escape (continued : Bool)
  /-- A dollar-quoted literal. -/
  | dollar (tag : Bytes)
  /-- A bit string `B'..'` or `X'..'`. -/
  | bits
  /-- A literal with Unicode escapes, `U&'..'`. -/
  | unicode
  /-- White space, an operator or any other single byte. -/
  | other
  deriving DecidableEq, Repr

/-- A string literal. -/
def PgKind.isString : PgKind → Bool
  | .standard _ | .escape _ | .dollar _ | .bits | .unicode => true
  | .identifier | .number | .other => false

/-- A literal with a prefix that the redactor takes for text. -/
def PgKind.isPrefixed : PgKind → Bool
  | .bits | .unicode => true
  | .standard _ | .escape _ | .dollar _ | .identifier | .number | .other => false

/-- First byte of an identifier or of a tag: a letter, the underscore or a byte above ASCII. -/
def identStart (b : UInt8) : Bool := tagStart b || !isAscii b

/-- Later byte of a tag. -/
def pgTagCont (b : UInt8) : Bool := tagCont b || !isAscii b

/-- Later byte of an identifier. -/
def identCont (b : UInt8) : Bool := pgTagCont b || b == dollar

/-- The tag of the dollar-quote delimiter in front of the text. -/
def pgTag : Bytes → Option Bytes
  | [] => none
  | b :: rest =>
      if b = dollar ∧ (rest.takeWhile pgTagCont).head?.all identStart ∧
          (rest.dropWhile pgTagCont).head? = some dollar then
        some (rest.takeWhile pgTagCont)
      else none

/-- White space with a newline in it and the quote behind it, which continue a literal. -/
def continuation (s : Bytes) : Option Nat :=
  if ((s.takeWhile asciiSpace).any fun b => b == 0x0A || b == 0x0D) ∧
      (s.dropWhile asciiSpace).head? = some quote then
    some ((s.takeWhile asciiSpace).length + 1)
  else none

theorem continuation_nil : continuation [] = none := rfl

theorem continuation_pos {s : Bytes} {size : Nat} (continues : continuation s = some size) :
    0 < size := by
  unfold continuation at continues
  split_ifs at continues
  have := Option.some.inj continues
  omega

/-- Bytes of a literal behind its opening quote, given the bytes of one segment. -/
def stringLen (segment : Bytes → Nat) (s : Bytes) : Nat :=
  match _found : continuation (s.drop (segment s)) with
  | none => segment s
  | some size => segment s + size + stringLen segment (s.drop (segment s + size))
termination_by s.length
decreasing_by
  have size_pos := continuation_pos _found
  have nonempty : s ≠ [] := by
    rintro rfl
    simp [continuation_nil] at _found
  have := List.length_pos_iff.mpr nonempty
  simp only [List.length_drop]
  omega

/-- Whether a literal has more than one segment. -/
def isContinued (segment : Bytes → Nat) (s : Bytes) : Bool :=
  (continuation (s.drop (segment s))).isSome

/-- Bytes of a bit string behind its opening quote; quotes are not doubled in it. -/
def bitsLen (s : Bytes) : Nat := min ((s.takeWhile (· != quote)).length + 1) s.length

/-- A literal with a prefix other than `E` in front of the text, with its number of bytes. -/
def prefixedToken : Bytes → Option (PgKind × Nat)
  | b :: c :: rest =>
      if (b = 0x42 ∨ b = 0x62 ∨ b = 0x58 ∨ b = 0x78) ∧ c = quote then
        some (.bits, 2 + stringLen bitsLen rest)
      else if (b = 0x55 ∨ b = 0x75) ∧ c = 0x26 ∧ rest.head? = some quote then
        some (.unicode, 3 + stringLen quotedLen rest.tail)
      else none
  | _ => none

/-- Leading digits. -/
def digitsLen (s : Bytes) : Nat := (s.takeWhile isDecimal).length

/-- A point with the digits behind it; two points are an operator. -/
def fractionLen : Bytes → Nat
  | [] => 0
  | b :: rest => if b = dot ∧ rest.head? ≠ some dot then 1 + digitsLen rest else 0

/-- An exponent with its sign. -/
def exponentLen : Bytes → Nat
  | b :: c :: rest =>
      if b = upperE ∨ b = lowerE then
        if isDecimal c then 1 + digitsLen (c :: rest)
        else if (c = 0x2B ∨ c = 0x2D) ∧ rest.head?.any isDecimal then 2 + digitsLen rest
        else 0
      else 0
  | _ => 0

/-- Bytes of a number. -/
def numberLen (s : Bytes) : Nat :=
  digitsLen s + fractionLen (s.drop (digitsLen s)) +
    exponentLen (s.drop (digitsLen s + fractionLen (s.drop (digitsLen s))))

/-- The token in front of a non-empty text, with its number of bytes. -/
def pgToken : Bytes → PgKind × Nat
  | [] => (.other, 0)
  | b :: rest =>
      if b = quote then (.standard (isContinued quotedLen rest), 1 + stringLen quotedLen rest)
      else if (b = upperE ∨ b = lowerE) ∧ rest.head? = some quote then
        (.escape (isContinued escapeLen rest.tail), 2 + stringLen escapeLen rest.tail)
      else
        match prefixedToken (b :: rest), pgTag (b :: rest) with
        | some token, _ => token
        | none, some tag =>
            (.dollar tag, (delimiterOf tag).length +
              dollarLen ((b :: rest).drop (delimiterOf tag).length) (delimiterOf tag))
        | none, none =>
            if identStart b then (.identifier, 1 + (rest.takeWhile identCont).length)
            else if isDecimal b ∨ (b = dot ∧ rest.head?.any isDecimal) then
              (.number, numberLen (b :: rest))
            else (.other, 1)

/-- A token of a query. -/
structure PgToken where
  /-- What the token is. -/
  kind : PgKind
  /-- Its position in the query. -/
  start : Nat
  /-- Its own text. -/
  text : Bytes
  /-- The text behind it. -/
  rest : Bytes
  deriving DecidableEq, Repr

/-- Position behind a token. -/
def PgToken.stop (token : PgToken) : Nat := token.start + token.text.length

/-- The token in front of a text that stands at the given position. -/
def pgTokenAt (start : Nat) (s : Bytes) : PgToken :=
  ⟨(pgToken s).1, start, s.take (pgToken s).2, s.drop (pgToken s).2⟩

/-! ## Tags -/

theorem pgTag_eq_some {s tag : Bytes} (opens : pgTag s = some tag) :
    ∃ rest, s = delimiterOf tag ++ rest := by
  cases s with
  | nil => simp [pgTag] at opens
  | cons b rest =>
      rw [pgTag] at opens
      split_ifs at opens with shape
      obtain ⟨rfl, _, closes⟩ := shape
      obtain rfl := Option.some.inj opens
      obtain ⟨more, tail_eq⟩ := List.head?_eq_some_iff.mp closes
      refine ⟨more, ?_⟩
      conv_lhs => rw [← List.takeWhile_append_dropWhile (p := pgTagCont) (l := rest), tail_eq]
      simp [delimiterOf]

/-- A tag that the redactor accepts is one of PostgreSQL. -/
theorem pgTag_of_dollarQuoteDelimiter {s delimiter : Bytes}
    (opens : dollarQuoteDelimiter s 0 = some delimiter) :
    ∃ tag, pgTag s = some tag ∧ isTag tag ∧ delimiter = delimiterOf tag := by
  obtain ⟨tag, rest, valid, delimiter_eq, rfl⟩ := dollarQuoteDelimiter_eq_some opens
  have conts : ∀ b ∈ tag, pgTagCont b := by
    intro b member
    simp [pgTagCont, tagCont_of_mem valid member]
  have stops : pgTagCont dollar = false := by decide
  have starts : tag.head?.all identStart := by
    cases tag with
    | nil => rfl
    | cons first tag =>
        simp only [isTag, Bool.and_eq_true] at valid
        simp [identStart, valid.1]
  have taken : (tag ++ dollar :: rest).takeWhile pgTagCont = tag := by
    rw [List.takeWhile_append_of_pos conts, List.takeWhile_cons_of_neg (by simp [stops])]
    simp
  have left : (tag ++ dollar :: rest).dropWhile pgTagCont = dollar :: rest := by
    rw [List.dropWhile_append_of_pos conts, List.dropWhile_cons_of_neg (by simp [stops])]
  refine ⟨tag, ?_, valid, delimiter_eq⟩
  simp only [delimiterOf, List.cons_append, List.append_assoc, List.nil_append, pgTag, taken, left]
  rw [if_pos ⟨trivial, starts, rfl⟩]

theorem dollarQuoteDelimiter_of_pgTag {s tag : Bytes} (opens : pgTag s = some tag)
    (valid : isTag tag) : dollarQuoteDelimiter s 0 = some (delimiterOf tag) := by
  obtain ⟨rest, rfl⟩ := pgTag_eq_some opens
  exact dollarQuoteDelimiter_delimiterOf rest valid

/-! ## Sizes of tokens -/

theorem length_takeWhile_le (p : UInt8 → Bool) (s : Bytes) : (s.takeWhile p).length ≤ s.length :=
  (List.takeWhile_sublist p).length_le

theorem continuation_le {s : Bytes} {size : Nat} (continues : continuation s = some size) :
    size ≤ s.length := by
  unfold continuation at continues
  split_ifs at continues with shape
  obtain rfl := Option.some.inj continues
  obtain ⟨more, tail_eq⟩ := List.head?_eq_some_iff.mp shape.2
  have split := congrArg List.length (List.takeWhile_append_dropWhile (p := asciiSpace) (l := s))
  rw [tail_eq, List.length_append, List.length_cons] at split
  omega

theorem stringLen_le {segment : Bytes → Nat} (inside : ∀ s, segment s ≤ s.length) (s : Bytes) :
    stringLen segment s ≤ s.length := by
  fun_induction stringLen segment s with
  | case1 s => exact inside s
  | case2 s size continues ih =>
      have size_le := continuation_le continues
      have segment_le := inside s
      rw [List.length_drop] at ih size_le
      omega

theorem dollarLen_le (s delimiter : Bytes) : dollarLen s delimiter ≤ s.length := by
  unfold dollarLen
  split
  · exact le_rfl
  · next position found => exact index_length_le found

theorem digitsLen_le (s : Bytes) : digitsLen s ≤ s.length := length_takeWhile_le isDecimal s

theorem fractionLen_le (s : Bytes) : fractionLen s ≤ s.length := by
  unfold fractionLen
  split
  · simp
  · next b rest =>
      have := digitsLen_le rest
      split_ifs
      · rw [List.length_cons]
        omega
      · simp

theorem exponentLen_le (s : Bytes) : exponentLen s ≤ s.length := by
  unfold exponentLen
  split
  · next b c rest =>
      have with_digit := digitsLen_le (c :: rest)
      have with_sign := digitsLen_le rest
      simp only [List.length_cons] at with_digit ⊢
      split_ifs <;> omega
  · simp

theorem numberLen_le (s : Bytes) : numberLen s ≤ s.length := by
  have whole := digitsLen_le s
  have fraction := fractionLen_le (s.drop (digitsLen s))
  have exponent := exponentLen_le (s.drop (digitsLen s + fractionLen (s.drop (digitsLen s))))
  rw [List.length_drop] at fraction exponent
  unfold numberLen
  omega

theorem one_le_numberLen {b : UInt8} {rest : Bytes}
    (starts : isDecimal b ∨ (b = dot ∧ rest.head?.any isDecimal)) :
    1 ≤ numberLen (b :: rest) := by
  unfold numberLen
  rcases starts with digit | ⟨rfl, digit⟩
  · have : 1 ≤ digitsLen (b :: rest) := by simp [digitsLen, digit]
    omega
  · have none_whole : digitsLen (dot :: rest) = 0 := by
      simp [digitsLen, show isDecimal dot = false by decide]
    have fraction : 1 ≤ fractionLen (dot :: rest) := by
      rw [fractionLen, if_pos]
      · omega
      · refine ⟨rfl, fun next => ?_⟩
        rw [next] at digit
        exact absurd digit (by decide)
    rw [none_whole, List.drop_zero]
    omega

theorem bitsLen_le (s : Bytes) : bitsLen s ≤ s.length := Nat.min_le_right _ _

/-- A prefix is a letter that opens nothing for the redactor. -/
theorem prefixedToken_eq_some {b : UInt8} {rest : Bytes} {token : PgKind × Nat}
    (found : prefixedToken (b :: rest) = some token) :
    token.1.isPrefixed = true ∧ Inert b ∧ 1 ≤ token.2 ∧ token.2 ≤ (b :: rest).length := by
  cases rest with
  | nil => cases found
  | cons c rest =>
      rw [prefixedToken] at found
      simp only [List.length_cons]
      split_ifs at found with bits unicode
      · obtain rfl := Option.some.inj found
        have body := stringLen_le bitsLen_le rest
        refine ⟨rfl, ?_, by simp only; omega, by simp only; omega⟩
        obtain ⟨rfl | rfl | rfl | rfl, _⟩ := bits <;> refine ⟨?_, ?_, ?_, ?_⟩ <;> decide
      · obtain rfl := Option.some.inj found
        obtain ⟨more, rfl⟩ := List.head?_eq_some_iff.mp unicode.2.2
        have body := stringLen_le quotedLen_le more
        simp only [List.tail_cons, List.length_cons]
        refine ⟨rfl, ?_, by omega, by omega⟩
        obtain ⟨rfl | rfl, _⟩ := unicode <;> refine ⟨?_, ?_, ?_, ?_⟩ <;> decide

/-- A token has at least one byte and ends inside the text. -/
theorem pgToken_size {s : Bytes} (nonempty : s ≠ []) :
    1 ≤ (pgToken s).2 ∧ (pgToken s).2 ≤ s.length := by
  obtain ⟨b, rest, rfl⟩ := List.exists_cons_of_ne_nil nonempty
  rw [pgToken, List.length_cons]
  by_cases is_quote : b = quote
  · have := stringLen_le quotedLen_le rest
    rw [if_pos is_quote]
    omega
  rw [if_neg is_quote]
  by_cases is_escape : (b = upperE ∨ b = lowerE) ∧ rest.head? = some quote
  · have body := stringLen_le escapeLen_le rest.tail
    obtain ⟨more, rfl⟩ := List.head?_eq_some_iff.mp is_escape.2
    rw [if_pos is_escape, List.length_cons]
    rw [List.tail_cons] at body
    simp only [List.tail_cons]
    omega
  rw [if_neg is_escape]
  cases introduced : prefixedToken (b :: rest) with
  | some token => exact (prefixedToken_eq_some introduced).2.2
  | none =>
      cases opens : pgTag (b :: rest) with
      | some tag =>
          obtain ⟨more, text⟩ := pgTag_eq_some opens
          have delimiter_pos : 1 ≤ (delimiterOf tag).length := by simp [delimiterOf]
          have body := dollarLen_le more (delimiterOf tag)
          have total := congrArg List.length text
          rw [List.length_append, List.length_cons] at total
          simp only
          rw [text, List.drop_left]
          omega
      | none =>
          simp only
          split_ifs with is_ident is_number
          · have := length_takeWhile_le identCont rest
            simp only
            omega
          · exact ⟨one_le_numberLen is_number, numberLen_le (b :: rest)⟩
          · simp

/-! ## Tokens of a query -/

/-- The tokens of a text that stands at the given position. -/
def pgLex (start : Nat) : Bytes → List PgToken
  | [] => []
  | b :: rest =>
      pgTokenAt start (b :: rest) ::
        pgLex (start + (pgToken (b :: rest)).2) ((b :: rest).drop (pgToken (b :: rest)).2)
termination_by s => s.length
decreasing_by
  have := pgToken_size (List.cons_ne_nil b rest)
  simp only [List.length_drop, List.length_cons]
  omega

/-- Tokens that the redactor cannot tell from others: an identifier that ends in `E` in front of a
quote or holds a dollar-quote delimiter, a dollar-quoted literal whose tag is not ASCII, a literal
continued on another line, and a literal with a prefix other than `E`. -/
def PgToken.misread (token : PgToken) : Bool :=
  match token.kind with
  | .identifier =>
      (2 ≤ token.text.length &&
          (token.text.getLast? == some upperE || token.text.getLast? == some lowerE) &&
          token.rest.head? == some quote) ||
        token.text.tails.any fun s => (dollarQuoteDelimiter s 0).isSome
  | .dollar tag => !isTag tag
  | .standard continued | .escape continued => continued
  | .bits | .unicode => true
  | .number | .other => false

/-- Suffixes of a text at which tokens start. -/
inductive Lexes : Bytes → Bytes → Prop
  | refl (s : Bytes) : Lexes s s
  | head {s t : Bytes} (nonempty : s ≠ []) : Lexes (s.drop (pgToken s).2) t → Lexes s t

namespace Lexes

theorem trans {s t u : Bytes} (first : Lexes s t) (second : Lexes t u) : Lexes s u := by
  induction first with
  | refl => exact second
  | head nonempty _ ih => exact .head nonempty (ih second)

theorem next {s t : Bytes} (path : Lexes s t) (nonempty : t ≠ []) :
    Lexes s (t.drop (pgToken t).2) :=
  path.trans (.head nonempty (.refl _))

theorem isSuffix {s t : Bytes} (path : Lexes s t) : t <:+ s := by
  induction path with
  | refl => exact List.suffix_refl _
  | head _ _ ih => exact ih.trans (List.drop_suffix _ _)

theorem total {s t u : Bytes} (first : Lexes s t) (second : Lexes s u) :
    Lexes t u ∨ Lexes u t := by
  induction first with
  | refl => exact .inl second
  | head nonempty path ih =>
      cases second with
      | refl => exact .inr (.head nonempty path)
      | head _ later => exact ih later

/-- No token starts inside another one. -/
theorem eq_zero_of_drop {s t : Bytes} {offset : Nat} (path : Lexes s t) (nonempty : t ≠ [])
    (inner : Lexes s (t.drop offset)) (inside : offset < (pgToken t).2) : offset = 0 := by
  have size_le := (pgToken_size nonempty).2
  rcases path.total inner with later | earlier
  · generalize target_eq : t.drop offset = target at later
    have target_length := congrArg List.length target_eq
    rw [List.length_drop] at target_length
    cases later with
    | refl => omega
    | head _ later =>
        have shorter := later.isSuffix.length_le
        rw [List.length_drop] at shorter
        omega
  · have longer := earlier.isSuffix.length_le
    rw [List.length_drop] at longer
    have := List.length_pos_iff.mpr nonempty
    omega

end Lexes

theorem mem_pgLex {token : PgToken} {start : Nat} {query : Bytes} :
    token ∈ pgLex start query ↔ ∃ s, Lexes query s ∧ s ≠ [] ∧
      token = pgTokenAt (start + (query.length - s.length)) s := by
  generalize size_eq : query.length = size
  induction size using Nat.strong_induction_on generalizing start query with
  | _ size ih =>
      cases query with
      | nil =>
          rw [pgLex]
          simp only [List.not_mem_nil, false_iff, not_exists, not_and]
          intro s path nonempty
          exact absurd (List.suffix_nil.mp path.isSuffix) nonempty
      | cons b rest =>
          obtain ⟨size_pos, size_le⟩ := pgToken_size (List.cons_ne_nil b rest)
          have tail_length := List.length_drop (i := (pgToken (b :: rest)).2) (l := b :: rest)
          rw [pgLex, List.mem_cons, ih _ (by omega) rfl]
          constructor
          · rintro (rfl | ⟨s, path, nonempty, rfl⟩)
            · refine ⟨b :: rest, .refl _, by simp, ?_⟩
              rw [← size_eq, Nat.sub_self, Nat.add_zero]
            · have shorter := path.isSuffix.length_le
              refine ⟨s, .head (by simp) path, nonempty, ?_⟩
              congr 1
              omega
          · rintro ⟨s, path, nonempty, rfl⟩
            cases path with
            | refl =>
                left
                rw [← size_eq, Nat.sub_self, Nat.add_zero]
            | head _ path =>
                have shorter := path.isSuffix.length_le
                refine .inr ⟨s, path, nonempty, ?_⟩
                congr 1
                omega

end CommonGo.Redact
