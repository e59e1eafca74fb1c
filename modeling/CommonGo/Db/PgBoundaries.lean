import CommonGo.Db.PgAgreement

/-!
# Literal boundaries

The positions that the scanning loop visits, the literals it skips there, and the tokens of the
lexer at the same positions.
-/

namespace CommonGo.Redact

open Go

/-- States of the scanning loop when the budget cuts nothing. -/
inductive Visited (query : Bytes) : Scan → Prop
  | start : Visited query ⟨0, [], false⟩
  | step {scan : Scan} : Visited query scan → scan.i < query.length →
      Visited query (redactStep query scan)

/-- The loop enters a branch that skips a string literal. -/
def OpensLiteral (query : Bytes) (i : Nat) : Prop :=
  isEscapeStringStart query i ∨ (dollarQuoteDelimiter query i).isSome ∨
    (decodeRune (query.drop i)).1 = quote.toNat

/-- The redactor finds the literals of the lexer: it takes the escape and the dollar branch where
such tokens start, and skips the same stretches of the query. -/
structure LiteralsAgree (query : Bytes) : Prop where
  /-- The escape branch is taken where an escape string starts. -/
  escape : ∀ scan, Visited query scan → scan.i < query.length →
    (isEscapeStringStart query scan.i ↔ ∃ token ∈ pgLex 0 query,
      ∃ continued, token.kind = .escape continued ∧ token.start = scan.i)
  /-- The dollar branch is taken where a dollar-quoted string starts. -/
  dollar : ∀ scan, Visited query scan → scan.i < query.length →
    ((dollarQuoteDelimiter query scan.i).isSome ↔ ∃ token ∈ pgLex 0 query,
      ∃ tag, token.kind = .dollar tag ∧ token.start = scan.i)
  /-- What is skipped is what the lexer takes for one literal. -/
  boundaries : ∀ first last,
    (∃ scan, Visited query scan ∧ scan.i < query.length ∧ OpensLiteral query scan.i ∧
        scan.i = first ∧ (redactStep query scan).i = last) ↔
      ∃ token ∈ pgLex 0 query, token.kind.isString ∧ token.start = first ∧ token.stop = last

/-! ## Positions and suffixes -/

theorem scanStep_le {s : Bytes} (nonempty : s ≠ []) : (scanStep s).2 ≤ s.length := by
  obtain ⟨b, rest, rfl⟩ := List.exists_cons_of_ne_nil nonempty
  by_cases escape : isEscapeStringStart (b :: rest) 0
  · have body := escapeLen_le ((b :: rest).drop 2)
    rw [scanStep, if_pos escape]
    rw [isEscapeStringStart_cons] at escape
    obtain ⟨more, rfl⟩ := List.head?_eq_some_iff.mp escape.2
    simp only [List.drop_succ_cons, List.drop_zero, List.length_cons] at body ⊢
    omega
  cases opens : dollarQuoteDelimiter (b :: rest) 0 with
  | some delimiter =>
      obtain ⟨tag, more, _, rfl, text⟩ := dollarQuoteDelimiter_eq_some opens
      have body := dollarLen_le more (delimiterOf tag)
      have total := congrArg List.length text
      rw [List.length_append] at total
      rw [scanStep, if_neg escape, opens]
      simp only
      rw [total]
      conv_lhs => rw [text, List.drop_left]
      omega
  | none =>
      have width_le := decodeRune_width_le (b :: rest)
      have number_le := numericLen_le ((b :: rest).drop (decodeRune (b :: rest)).2)
      have quoted_le := quotedLen_le rest
      rw [List.length_drop] at number_le
      rw [scanStep_of_plain escape (by rw [opens])]
      rw [List.length_cons] at *
      split_ifs <;> simp only <;> omega

theorem Visited.reads {query : Bytes} {scan : Scan} (visited : Visited query scan) :
    scan.i ≤ query.length ∧ ∃ read, Reads query read (query.drop scan.i) := by
  induction visited with
  | start => exact ⟨Nat.zero_le _, [], .refl query⟩
  | @step scan _ inside ih =>
      obtain ⟨_, read, visits⟩ := ih
      have nonempty : query.drop scan.i ≠ [] := by simpa using inside
      have size_le := scanStep_le nonempty
      rw [List.length_drop] at size_le
      have next := visits.trans (.head nonempty (.refl _))
      rw [List.drop_drop] at next
      rw [redactStep_eq inside]
      exact ⟨by simp only; omega, _, next⟩

theorem Visited.of_reads {query s : Bytes} {read : List Emission} (visits : Reads query read s) :
    ∃ scan, Visited query scan ∧ query.drop scan.i = s := by
  have onwards : ∀ {t u : Bytes} {read : List Emission} {scan : Scan}, Reads t read u →
      Visited query scan → query.drop scan.i = t →
        ∃ scan, Visited query scan ∧ query.drop scan.i = u := by
    intro t u read scan path
    induction path generalizing scan with
    | refl => exact fun visited here => ⟨scan, visited, here⟩
    | head nonempty _ ih =>
        intro visited here
        have inside : scan.i < query.length := by
          by_contra outside
          rw [List.drop_of_length_le (by omega)] at here
          exact nonempty here.symm
        refine ih (.step visited inside) ?_
        rw [redactStep_eq inside, ← List.drop_drop, here]
  exact onwards visits .start rfl

/-- Tokens of a query by their position. -/
theorem mem_pgLex_iff {query : Bytes} {token : PgToken} :
    token ∈ pgLex 0 query ↔ token.start < query.length ∧ Lexes query (query.drop token.start) ∧
      token = pgTokenAt token.start (query.drop token.start) := by
  rw [mem_pgLex]
  constructor
  · rintro ⟨s, path, nonempty, rfl⟩
    have length_pos := List.length_pos_iff.mpr nonempty
    have length_le := path.isSuffix.length_le
    have s_eq : query.drop (query.length - s.length) = s :=
      (List.suffix_iff_eq_drop.mp path.isSuffix).symm
    simp only [Nat.zero_add]
    have start_eq : (pgTokenAt (query.length - s.length) s).start = query.length - s.length := rfl
    rw [start_eq, s_eq]
    exact ⟨by omega, path, rfl⟩
  · rintro ⟨inside, path, token_eq⟩
    refine ⟨query.drop token.start, path, by simpa using inside, ?_⟩
    rw [List.length_drop, Nat.zero_add, Nat.sub_sub_self inside.le]
    exact token_eq

/-! ## Branches and tokens -/

theorem exists_cons_drop {query : Bytes} {i : Nat} (inside : i < query.length) :
    ∃ b rest, query.drop i = b :: rest :=
  List.exists_cons_of_ne_nil (by simpa using inside)

theorem opensLiteral_iff {query : Bytes} {i : Nat} {b : UInt8} {rest : Bytes}
    (here : query.drop i = b :: rest) : OpensLiteral query i ↔ ¬ PlainByte b rest := by
  have rune : (decodeRune (b :: rest)).1 = quote.toNat ↔ b = quote :=
    decodeRune_eq_ascii_iff isAscii_quote
  rw [OpensLiteral, isEscapeStringStart_drop, dollarQuoteDelimiter_drop, here, rune]
  constructor
  · rintro (escape | dollar | is_quote) plain
    · exact plain.not_escape escape
    · rw [plain.not_dollar] at dollar
      contradiction
    · exact plain.not_quote is_quote
  · intro opens
    by_contra closed
    simp only [not_or] at closed
    exact opens ⟨closed.2.2, closed.1, by simpa using closed.2.1⟩

theorem escape_iff_kind (b : UInt8) (rest : Bytes) :
    isEscapeStringStart (b :: rest) 0 ↔
      ∃ continued, (pgToken (b :: rest)).1 = .escape continued := by
  constructor
  · intro escape
    have letter := ((isEscapeStringStart_cons b rest).mp escape).1
    rcases pgToken_cases b rest with ⟨rfl, _⟩ | ⟨_, token⟩ | ⟨tag, opens, _⟩ | ⟨inert, _⟩ |
      ⟨plain, _⟩
    · rcases letter with letter | letter <;> exact absurd letter (by decide)
    · exact ⟨_, by rw [token]⟩
    · obtain ⟨more, text⟩ := pgTag_eq_some opens
      obtain ⟨rfl, _⟩ := List.cons.inj text
      rcases letter with letter | letter <;> exact absurd letter (by decide)
    · exact absurd escape (inert.plainByte rest).not_escape
    · exact absurd escape plain.not_escape
  · rintro ⟨continued, kind⟩
    rcases pgToken_cases b rest with ⟨_, token⟩ | ⟨escape, _⟩ | ⟨_, _, token⟩ | ⟨_, introduced⟩ |
      ⟨_, token | token | token⟩
    · simp [token] at kind
    · exact escape
    · simp [token] at kind
    · simp [kind, PgKind.isPrefixed] at introduced
    · simp [token] at kind
    · simp [token] at kind
    · simp [token] at kind

theorem pgTag_of_kind {b : UInt8} {rest tag : Bytes}
    (kind : (pgToken (b :: rest)).1 = .dollar tag) : pgTag (b :: rest) = some tag := by
  rcases pgToken_cases b rest with ⟨_, token⟩ | ⟨_, token⟩ | ⟨tag', opens, token⟩ |
    ⟨_, introduced⟩ | ⟨_, token | token | token⟩
  · simp [token] at kind
  · simp [token] at kind
  · obtain rfl : tag' = tag := by simpa [token] using kind
    exact opens
  · simp [kind, PgKind.isPrefixed] at introduced
  · simp [token] at kind
  · simp [token] at kind
  · simp [token] at kind

theorem prefixedToken_dollar (rest : Bytes) : prefixedToken (dollar :: rest) = none := by
  cases introduced : prefixedToken (dollar :: rest) with
  | none => rfl
  | some token => exact absurd rfl (prefixedToken_eq_some introduced).2.1.2.1

theorem kind_of_pgTag {b : UInt8} {rest tag : Bytes} (opens : pgTag (b :: rest) = some tag) :
    (pgToken (b :: rest)).1 = .dollar tag := by
  obtain ⟨more, text⟩ := pgTag_eq_some opens
  obtain ⟨rfl, _⟩ := List.cons.inj text
  rw [pgToken, if_neg (by decide), if_neg, prefixedToken_dollar, opens]
  rintro ⟨letter | letter, _⟩ <;> exact absurd letter (by decide)

/-- A byte at which a literal token without a prefix starts is not inert. -/
theorem not_inert_of_string {b : UInt8} {rest : Bytes}
    (string : (pgToken (b :: rest)).1.isString)
    (bare : (pgToken (b :: rest)).1.isPrefixed = false) : ¬ Inert b := by
  rintro ⟨not_quote, not_dollar, not_upper, not_lower⟩
  rcases pgToken_cases b rest with ⟨is_quote, _⟩ | ⟨escape, _⟩ | ⟨tag, opens, _⟩ |
    ⟨_, introduced⟩ | ⟨_, token | token | token⟩
  · exact not_quote is_quote
  · exact not_isEscapeStringStart rest not_upper not_lower escape
  · obtain ⟨more, text⟩ := pgTag_eq_some opens
    exact not_dollar (List.cons.inj text).1
  · rw [bare] at introduced
    cases introduced
  · simp [token, PgKind.isString] at string
  · simp [token, PgKind.isString] at string
  · simp [token, PgKind.isString] at string

theorem not_inert_of_opens {b : UInt8} {rest : Bytes} (opens : ¬ PlainByte b rest) : ¬ Inert b := by
  intro inert
  exact opens (inert.plainByte rest)

theorem not_plainText_split {text rest : Bytes} (opens : ¬ PlainText text rest) :
    ∃ front b more, text = front ++ b :: more ∧ PlainText front (b :: more ++ rest) ∧
      ¬ PlainByte b (more ++ rest) := by
  induction text with
  | nil => exact absurd trivial opens
  | cons b text ih =>
      by_cases plain : PlainByte b (text ++ rest)
      · obtain ⟨front, c, more, rfl, front_plain, c_opens⟩ := ih fun later => opens ⟨plain, later⟩
        refine ⟨b :: front, c, more, rfl, ⟨?_, front_plain⟩, c_opens⟩
        simpa using plain
      · exact ⟨[], b, text, rfl, trivial, plain⟩

theorem lt_stringLen {segment : Bytes → Nat} {s : Bytes} (continued : isContinued segment s) :
    segment s < stringLen segment s := by
  obtain ⟨size, continues⟩ := Option.isSome_iff_exists.mp continued
  have size_pos := continuation_pos continues
  rw [stringLen]
  split
  · next stops =>
      rw [continues] at stops
      contradiction
  · next found =>
      have := continuation_pos found
      omega

/-! ## Agreement -/

theorem exists_visited {query rest : Bytes} {b : UInt8} (path : Walks query (b :: rest))
    (opens : ¬ Inert b) :
    ∃ scan, Visited query scan ∧ scan.i < query.length ∧ query.drop scan.i = b :: rest := by
  obtain ⟨read, visits⟩ := path.exists_reads opens
  obtain ⟨scan, visited, here⟩ := Visited.of_reads visits
  refine ⟨scan, visited, ?_, here⟩
  by_contra outside
  rw [List.drop_of_length_le (by omega)] at here
  simp at here

theorem exists_token_iff {query : Bytes} {i : Nat} (inside : i < query.length)
    (property : PgKind → Prop) :
    (∃ token ∈ pgLex 0 query, property token.kind ∧ token.start = i) ↔
      Lexes query (query.drop i) ∧ property (pgToken (query.drop i)).1 := by
  constructor
  · rintro ⟨token, member, kind, rfl⟩
    obtain ⟨_, path, token_eq⟩ := mem_pgLex_iff.mp member
    refine ⟨path, ?_⟩
    rw [token_eq] at kind
    exact kind
  · rintro ⟨path, kind⟩
    exact ⟨pgTokenAt i (query.drop i), mem_pgLex_iff.mpr ⟨inside, path, rfl⟩, kind, rfl⟩

theorem PgToken.exists_start_iff {query : Bytes} {α : Type} {i : Nat} (kind : α → PgKind) :
    (∃ token ∈ pgLex 0 query, ∃ a, token.kind = kind a ∧ token.start = i) ↔
      ∃ token ∈ pgLex 0 query, (∃ a, token.kind = kind a) ∧ token.start = i := by
  simp only [exists_and_right]

/-- The stop of the token at a position. -/
theorem stop_pgTokenAt {s : Bytes} (i : Nat) (nonempty : s ≠ []) :
    (pgTokenAt i s).stop = i + (pgToken s).2 := by
  rw [PgToken.stop, pgTokenAt, List.length_take, Nat.min_eq_left (pgToken_size nonempty).2]

section Read

variable {query : Bytes} (read : ∀ u, Lexes query u → u ≠ [] → (pgTokenAt 0 u).misread = false)

include read

/-- A literal that the scanner opens starts a token. -/
private theorem lexes_of_visited {scan : Scan} {b : UInt8} {rest : Bytes}
    (visited : Visited query scan) (here : query.drop scan.i = b :: rest)
    (opens : ¬ PlainByte b rest) : Lexes query (b :: rest) := by
  obtain ⟨_, reads, visits⟩ := visited.reads
  rw [here] at visits
  exact (Walks.of_reads visits).lexes_of_opens read opens

/-- A literal that the scanner opens is a string of the lexer, with the same end. -/
private theorem token_of_visited {scan : Scan} (visited : Visited query scan)
    (inside : scan.i < query.length) (opens : OpensLiteral query scan.i) :
    ∃ token ∈ pgLex 0 query, token.kind.isString ∧ token.start = scan.i ∧
      token.stop = (redactStep query scan).i := by
  obtain ⟨b, rest, here⟩ := exists_cons_drop inside
  rw [opensLiteral_iff here] at opens
  have path := lexes_of_visited read visited here opens
  have string : (pgToken (b :: rest)).1.isString := by
    cases kind : (pgToken (b :: rest)).1.isString with
    | true => rfl
    | false => exact absurd (plain_of_not_string kind) opens
  refine ⟨pgTokenAt scan.i (b :: rest), ?_, string, rfl, ?_⟩
  · rw [mem_pgLex_iff]
    rw [← here] at path ⊢
    exact ⟨inside, path, rfl⟩
  · rw [stop_pgTokenAt _ (List.cons_ne_nil b rest), redactStep_eq inside, here,
      scanStep_pgToken string (read _ path (List.cons_ne_nil b rest))]

/-- A string of the lexer is a literal that the scanner opens, with the same end. -/
private theorem visited_of_token {token : PgToken} (member : token ∈ pgLex 0 query)
    (string : token.kind.isString) :
    ∃ scan, Visited query scan ∧ scan.i < query.length ∧ OpensLiteral query scan.i ∧
      scan.i = token.start ∧ (redactStep query scan).i = token.stop := by
  obtain ⟨inside, path, token_eq⟩ := mem_pgLex_iff.mp member
  obtain ⟨b, rest, here⟩ := exists_cons_drop inside
  rw [here] at path token_eq
  have nonempty := List.cons_ne_nil b rest
  have token_string : (pgToken (b :: rest)).1.isString := by
    rw [token_eq] at string
    exact string
  have read_path : ReadLexes query (b :: rest) :=
    .of_lexes (fun u starts => read u starts.lexes) (.refl query) path
  have bare : (pgToken (b :: rest)).1.isPrefixed = false := by
    by_contra introduced
    have misread := misread_of_isPrefixed (Bool.not_eq_false _ ▸ introduced)
    rw [read _ path nonempty] at misread
    cases misread
  obtain ⟨scan, visited, scan_inside, scan_here⟩ :=
    exists_visited read_path.walks (not_inert_of_string token_string bare)
  have same : scan.i = token.start := by
    have lengths := congrArg List.length (scan_here.trans here.symm)
    rw [List.length_drop, List.length_drop] at lengths
    omega
  refine ⟨scan, visited, scan_inside, ?_, same, ?_⟩
  · rw [opensLiteral_iff scan_here]
    exact not_plain_of_string token_string (read _ path nonempty)
  · have stop_eq : token.stop = token.start + (pgToken (b :: rest)).2 := by
      rw [token_eq]
      exact stop_pgTokenAt _ nonempty
    rw [redactStep_eq scan_inside, scan_here,
      scanStep_pgToken token_string (read _ path nonempty), stop_eq, same]

theorem literalsAgree_of_read : LiteralsAgree query := by
  constructor
  · intro scan visited inside
    obtain ⟨b, rest, here⟩ := exists_cons_drop inside
    rw [PgToken.exists_start_iff, exists_token_iff inside fun kind => ∃ c, kind = .escape c,
      isEscapeStringStart_drop, here, ← escape_iff_kind, iff_and_self]
    exact fun escape => lexes_of_visited read visited here fun plain => plain.not_escape escape
  · intro scan visited inside
    obtain ⟨b, rest, here⟩ := exists_cons_drop inside
    rw [PgToken.exists_start_iff, exists_token_iff inside fun kind => ∃ tag, kind = .dollar tag,
      dollarQuoteDelimiter_drop, here]
    constructor
    · intro dollar
      obtain ⟨delimiter, opens⟩ := Option.isSome_iff_exists.mp dollar
      obtain ⟨tag, tagged, _⟩ := pgTag_of_dollarQuoteDelimiter opens
      refine ⟨lexes_of_visited read visited here fun plain => ?_, tag, kind_of_pgTag tagged⟩
      rw [plain.not_dollar] at opens
      contradiction
    · rintro ⟨path, tag, kind⟩
      have valid := read _ path (List.cons_ne_nil b rest)
      simp only [PgToken.misread, pgTokenAt, kind, Bool.not_eq_false'] at valid
      rw [dollarQuoteDelimiter_of_pgTag (pgTag_of_kind kind) valid]
      rfl
  · intro first last
    constructor
    · rintro ⟨scan, visited, inside, opens, rfl, rfl⟩
      exact token_of_visited read visited inside opens
    · rintro ⟨token, member, string, rfl, rfl⟩
      exact visited_of_token read member string

end Read

/-- Bytes of an identifier are no quotes. -/
theorem ne_quote_of_identifier {s : Bytes} (ident : (pgToken s).1 = .identifier) :
    ∀ b ∈ s.take (pgToken s).2, b ≠ quote := by
  cases s with
  | nil => simp [pgToken] at ident
  | cons b rest =>
      rcases pgToken_cases b rest with ⟨_, token⟩ | ⟨_, token⟩ | ⟨_, _, token⟩ |
        ⟨_, introduced⟩ | ⟨plain, token | token | token⟩
      · simp [token] at ident
      · simp [token] at ident
      · simp [token] at ident
      · simp [ident, PgKind.isPrefixed] at introduced
      · obtain ⟨word, after, rfl, taken, conts, _⟩ := exists_takeWhile identCont rest
        rw [token, taken, Nat.add_comm, List.take_succ_cons, List.take_left]
        intro c member
        rcases List.mem_cons.mp member with rfl | later
        · exact plain.not_quote
        · rintro rfl
          exact absurd (conts quote later) (by decide)
      · simp [token] at ident
      · simp [token] at ident

/-- Where an identifier is misread the redactor takes a branch inside it. -/
theorem not_misread_identifier {query s : Bytes} (agree : LiteralsAgree query)
    (path : ReadLexes query s) (nonempty : s ≠ []) (ident : (pgToken s).1 = .identifier) :
    (pgTokenAt 0 s).misread = false := by
  by_contra misread
  rw [Bool.not_eq_false] at misread
  obtain ⟨front, b, more, text_eq, front_plain, opens⟩ :=
    not_plainText_split (not_plainText_of_misread ident misread)
  have s_eq : s = front ++ (b :: more ++ s.drop (pgToken s).2) := by
    rw [← List.append_assoc, ← text_eq, List.take_append_drop]
  have inner : s.drop front.length = b :: more ++ s.drop (pgToken s).2 := by
    conv_lhs => rw [s_eq, List.drop_left]
  have walk : Walks query (b :: more ++ s.drop (pgToken s).2) := by
    have onwards := Walks.of_plainText front_plain
    rw [← s_eq] at onwards
    exact path.walks.trans onwards
  obtain ⟨scan, visited, inside, here⟩ := exists_visited walk (not_inert_of_opens opens)
  have not_quote : b ≠ quote := ne_quote_of_identifier ident b (by rw [text_eq]; simp)
  have token_here : Lexes query (query.drop scan.i) ∧ (pgToken (query.drop scan.i)).1.isString := by
    have taken : isEscapeStringStart query scan.i ∨ (dollarQuoteDelimiter query scan.i).isSome := by
      rw [isEscapeStringStart_drop, dollarQuoteDelimiter_drop, here]
      by_contra closed
      rw [not_or] at closed
      exact opens ⟨not_quote, closed.1, by simpa using closed.2⟩
    rcases taken with escape | dollar
    · have found := (agree.escape scan visited inside).mp escape
      rw [PgToken.exists_start_iff, exists_token_iff inside fun kind => ∃ c, kind = .escape c]
        at found
      obtain ⟨starts, continued, kind⟩ := found
      exact ⟨starts, by rw [kind]; rfl⟩
    · have found := (agree.dollar scan visited inside).mp dollar
      rw [PgToken.exists_start_iff, exists_token_iff inside fun kind => ∃ tag, kind = .dollar tag]
        at found
      obtain ⟨starts, tag, kind⟩ := found
      exact ⟨starts, by rw [kind]; rfl⟩
  rw [here.trans inner.symm] at token_here
  have text_length := congrArg List.length text_eq
  rw [List.length_take, List.length_append, List.length_cons] at text_length
  have front_zero := path.lexes.eq_zero_of_drop nonempty token_here.1 (by omega)
  rw [front_zero, List.drop_zero, ident] at token_here
  exact absurd token_here.2 (by decide)

/-- A literal that is continued ends later than the one that the redactor skips. -/
theorem not_continued {query : Bytes} {b : UInt8} {rest : Bytes} (agree : LiteralsAgree query)
    (path : ReadLexes query (b :: rest)) (opens : ¬ PlainByte b rest) :
    (scanStep (b :: rest)).2 = (pgToken (b :: rest)).2 := by
  obtain ⟨scan, visited, inside, here⟩ := exists_visited path.walks (not_inert_of_opens opens)
  obtain ⟨token, member, _, start_eq, stop_eq⟩ := (agree.boundaries scan.i _).mp
    ⟨scan, visited, inside, (opensLiteral_iff here).mpr opens, rfl, rfl⟩
  obtain ⟨_, _, token_eq⟩ := mem_pgLex_iff.mp member
  rw [start_eq, here] at token_eq
  rw [token_eq, stop_pgTokenAt _ (List.cons_ne_nil b rest), redactStep_eq inside, here] at stop_eq
  simp only at stop_eq
  omega

/-- The redactor opens no literal at a prefix. -/
theorem not_isPrefixed {query : Bytes} {b : UInt8} {rest : Bytes} (agree : LiteralsAgree query)
    (path : Lexes query (b :: rest)) (inert : Inert b) :
    (pgToken (b :: rest)).1.isPrefixed = false := by
  by_contra introduced
  have string := isString_of_isPrefixed (Bool.not_eq_false _ ▸ introduced)
  have starts : query.drop (query.length - (b :: rest).length) = b :: rest :=
    (List.suffix_iff_eq_drop.mp path.isSuffix).symm
  obtain ⟨scan, _, inside, opens, start_eq, _⟩ := (agree.boundaries _ _).mpr
    ⟨_, mem_pgLex.mpr ⟨b :: rest, path, List.cons_ne_nil b rest, rfl⟩, string, rfl, rfl⟩
  have here : query.drop scan.i = b :: rest := by
    rw [start_eq]
    simpa [pgTokenAt] using starts
  exact (opensLiteral_iff here).mp opens (inert.plainByte rest)

theorem read_of_literalsAgree {query s : Bytes} (agree : LiteralsAgree query)
    (path : ReadLexes query s) (nonempty : s ≠ []) : (pgTokenAt 0 s).misread = false := by
  obtain ⟨b, rest, rfl⟩ := List.exists_cons_of_ne_nil nonempty
  rcases pgToken_cases b rest with ⟨rfl, token⟩ | ⟨escape, token⟩ | ⟨tag, opens, token⟩ |
    ⟨inert, introduced⟩ | ⟨_, token | token | token⟩
  · have sizes := not_continued agree path fun plain => plain.not_quote rfl
    simp only [PgToken.misread, pgTokenAt, token]
    rw [scanStep_quote, token] at sizes
    by_contra continued
    have longer := lt_stringLen (Bool.not_eq_false _ ▸ continued)
    omega
  · have sizes := not_continued agree path fun plain => plain.not_escape escape
    simp only [PgToken.misread, pgTokenAt, token]
    rw [scanStep, if_pos escape, token, List.drop_succ_cons, List.drop_one] at sizes
    by_contra continued
    have longer := lt_stringLen (Bool.not_eq_false _ ▸ continued)
    simp only at sizes
    omega
  · have kind : (pgToken (b :: rest)).1 = .dollar tag := by rw [token]
    obtain ⟨scan, visited, inside, here⟩ :=
      exists_visited path.walks (not_inert_of_string (by rw [kind]; rfl) (by rw [kind]; rfl))
    have taken : (dollarQuoteDelimiter query scan.i).isSome := by
      rw [agree.dollar scan visited inside, PgToken.exists_start_iff,
        exists_token_iff inside fun kind => ∃ tag, kind = .dollar tag, here]
      exact ⟨path.lexes, tag, kind⟩
    rw [dollarQuoteDelimiter_drop, here] at taken
    obtain ⟨delimiter, delimits⟩ := Option.isSome_iff_exists.mp taken
    obtain ⟨tag', tagged, valid, _⟩ := pgTag_of_dollarQuoteDelimiter delimits
    obtain rfl : tag' = tag := Option.some.inj (tagged.symm.trans opens)
    simp only [PgToken.misread, pgTokenAt, kind, valid, Bool.not_true]
  · rw [not_isPrefixed agree path.lexes inert] at introduced
    cases introduced
  · exact not_misread_identifier agree path nonempty (by rw [token])
  · simp only [PgToken.misread, pgTokenAt, token]
  · simp only [PgToken.misread, pgTokenAt, token]

/-- The redactor finds the literals of the lexer exactly in the queries without misread tokens. -/
theorem literalsAgree_iff (query : Bytes) :
    LiteralsAgree query ↔ ∀ token ∈ pgLex 0 query, token.misread = false := by
  constructor
  · intro agree token member
    obtain ⟨inside, path, token_eq⟩ := mem_pgLex_iff.mp member
    have nonempty : query.drop token.start ≠ [] := by simpa using inside
    have reached : ReadLexes query (query.drop token.start) :=
      .of_lexes (fun u starts => read_of_literalsAgree agree starts) (.refl query) path
    rw [token_eq]
    exact read_of_literalsAgree agree reached nonempty
  · intro read
    refine literalsAgree_of_read fun u path nonempty => ?_
    have token_read := read _ (mem_pgLex.mpr ⟨u, path, nonempty, rfl⟩)
    exact token_read

-- In `B'1''0'` the first token ends at the second quote.
example : (pgLex 0 (ascii "B'1''0'")).map (fun token => (token.kind, token.stop)) =
    [(.bits, 4), (.standard false, 7)] := by
  decide +kernel

/-- The query `LIKE'a\'`. -/
def likeQuery : Bytes := [0x4C, 0x49, 0x4B, 0x45, quote, 0x61, backslash, quote]

/-- The redactor takes the escape branch at the last letter of `LIKE`, where no token starts. -/
theorem likeQuery_disagrees : ¬ LiteralsAgree likeQuery := by
  intro agree
  let third := redactStep likeQuery (redactStep likeQuery (redactStep likeQuery ⟨0, [], false⟩))
  have visited : Visited likeQuery third :=
    .step (.step (.step .start (by decide)) (by decide +kernel)) (by decide +kernel)
  obtain ⟨token, member, continued, kind, _⟩ :=
    (agree.escape third visited (by decide +kernel)).mp (by decide +kernel)
  have kinds : ∀ token ∈ pgLex 0 likeQuery,
      token.kind = .identifier ∨ token.kind = .standard false := by
    decide +kernel
  rcases kinds token member with other | other <;> rw [other] at kind <;> contradiction

end CommonGo.Redact
