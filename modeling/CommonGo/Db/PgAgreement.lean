import CommonGo.Db.PgLexer
import Mathlib.Data.List.Infix
import Mathlib.Data.List.TakeWhile

/-!
# Agreement with the lexer of PostgreSQL

The redactor decides byte by byte whether a literal opens, without knowing where tokens start.  Its
literals are those of the lexer exactly when no token of the query can be misread.
-/

namespace CommonGo.Redact

open Go

/-! ## What the redactor makes of one token -/

/-- The token in front of a text: a literal, a literal with a prefix, or text whose first byte opens
none. -/
theorem pgToken_cases (b : UInt8) (rest : Bytes) :
    (b = quote ∧ pgToken (b :: rest) =
        (.standard (isContinued quotedLen rest), 1 + stringLen quotedLen rest)) ∨
      (isEscapeStringStart (b :: rest) 0 ∧ pgToken (b :: rest) =
        (.escape (isContinued escapeLen rest.tail), 2 + stringLen escapeLen rest.tail)) ∨
      (∃ tag, pgTag (b :: rest) = some tag ∧ pgToken (b :: rest) =
        (.dollar tag, (delimiterOf tag).length +
          dollarLen ((b :: rest).drop (delimiterOf tag).length) (delimiterOf tag))) ∨
      (Inert b ∧ (pgToken (b :: rest)).1.isPrefixed = true) ∨
      (PlainByte b rest ∧
        (pgToken (b :: rest) = (.identifier, 1 + (rest.takeWhile identCont).length) ∨
          pgToken (b :: rest) = (.number, numberLen (b :: rest)) ∨
          pgToken (b :: rest) = (.other, 1))) := by
  by_cases is_quote : b = quote
  · exact .inl ⟨is_quote, by rw [pgToken, if_pos is_quote]⟩
  right
  by_cases is_escape : (b = upperE ∨ b = lowerE) ∧ rest.head? = some quote
  · exact .inl ⟨(isEscapeStringStart_cons b rest).mpr is_escape,
      by rw [pgToken, if_neg is_quote, if_pos is_escape]⟩
  right
  cases introduced : prefixedToken (b :: rest) with
  | some token =>
      obtain ⟨kind, inert, _⟩ := prefixedToken_eq_some introduced
      refine .inr (.inl ⟨inert, ?_⟩)
      rwa [pgToken, if_neg is_quote, if_neg is_escape, introduced]
  | none =>
      cases opens : pgTag (b :: rest) with
      | some tag =>
          refine .inl ⟨tag, rfl, ?_⟩
          rw [pgToken, if_neg is_quote, if_neg is_escape, introduced, opens]
      | none =>
          have not_escape : ¬ isEscapeStringStart (b :: rest) 0 :=
            fun escape => is_escape ((isEscapeStringStart_cons b rest).mp escape)
          refine .inr (.inr ⟨⟨is_quote, not_escape, ?_⟩, ?_⟩)
          · cases delimits : dollarQuoteDelimiter (b :: rest) 0 with
            | none => rfl
            | some delimiter =>
                obtain ⟨tag, tagged, _⟩ := pgTag_of_dollarQuoteDelimiter delimits
                rw [opens] at tagged
                contradiction
          · rw [pgToken, if_neg is_quote, if_neg is_escape, introduced, opens]
            simp only
            split_ifs
            · exact .inl rfl
            · exact .inr (.inl rfl)
            · exact .inr (.inr rfl)

theorem stringLen_of_single {segment : Bytes → Nat} {s : Bytes}
    (single : isContinued segment s = false) : stringLen segment s = segment s := by
  rw [isContinued, Option.isSome_eq_false_iff, Option.isNone_iff_eq_none] at single
  rw [stringLen]
  split
  · rfl
  · next continues =>
      rw [single] at continues
      contradiction

theorem isString_of_isPrefixed {kind : PgKind} (introduced : kind.isPrefixed = true) :
    kind.isString = true := by
  cases kind <;> first | rfl | cases introduced

/-- A literal with a prefix is misread. -/
theorem misread_of_isPrefixed {s : Bytes} (introduced : (pgToken s).1.isPrefixed = true) :
    (pgTokenAt 0 s).misread = true := by
  rw [PgToken.misread, pgTokenAt]
  cases kind : (pgToken s).1 <;> rw [kind] at introduced <;> first | rfl | cases introduced

/-- A literal of the lexer that is not misread is read by the redactor in one turn. -/
theorem scanStep_pgToken {s : Bytes} (string : (pgToken s).1.isString)
    (read : (pgTokenAt 0 s).misread = false) : scanStep s = (.value, (pgToken s).2) := by
  cases s with
  | nil => simp [pgToken, PgKind.isString] at string
  | cons b rest =>
      rcases pgToken_cases b rest with ⟨rfl, token⟩ | ⟨escape, token⟩ | ⟨tag, opens, token⟩ |
        ⟨_, introduced⟩ | ⟨_, token⟩
      · simp only [PgToken.misread, pgTokenAt, token] at read
        rw [token, stringLen_of_single read]
        exact scanStep_quote rest
      · simp only [PgToken.misread, pgTokenAt, token] at read
        rw [token, stringLen_of_single read, scanStep, if_pos escape, List.drop_succ_cons,
          List.drop_one]
      · simp only [PgToken.misread, pgTokenAt, token, Bool.not_eq_false'] at read
        have delimits := dollarQuoteDelimiter_of_pgTag opens read
        obtain ⟨more, text⟩ := pgTag_eq_some opens
        obtain ⟨rfl, _⟩ := List.cons.inj text
        have not_escape : ¬ isEscapeStringStart (dollar :: rest) 0 :=
          not_isEscapeStringStart rest (by decide) (by decide)
        rw [token, scanStep, if_neg not_escape, delimits]
      · rw [misread_of_isPrefixed introduced] at read
        cases read
      · rcases token with token | token | token <;>
          exact absurd string (by simp [token, PgKind.isString])

/-- The first byte of a literal of the lexer is no plain byte, unless it is misread. -/
theorem not_plain_of_string {b : UInt8} {rest : Bytes} (string : (pgToken (b :: rest)).1.isString)
    (read : (pgTokenAt 0 (b :: rest)).misread = false) : ¬ PlainByte b rest := by
  intro plain
  rcases pgToken_cases b rest with ⟨is_quote, _⟩ | ⟨escape, _⟩ | ⟨tag, opens, token⟩ |
    ⟨_, introduced⟩ | ⟨_, token⟩
  · exact plain.not_quote is_quote
  · exact plain.not_escape escape
  · simp only [PgToken.misread, pgTokenAt, token, Bool.not_eq_false'] at read
    have delimits := dollarQuoteDelimiter_of_pgTag opens read
    rw [plain.not_dollar] at delimits
    contradiction
  · rw [misread_of_isPrefixed introduced] at read
    cases read
  · rcases token with token | token | token <;>
      exact absurd string (by simp [token, PgKind.isString])

theorem plain_of_not_string {b : UInt8} {rest : Bytes}
    (text : (pgToken (b :: rest)).1.isString = false) : PlainByte b rest := by
  rcases pgToken_cases b rest with ⟨_, token⟩ | ⟨_, token⟩ | ⟨_, _, token⟩ | ⟨inert, _⟩ | ⟨plain, _⟩
  · simp [token, PgKind.isString] at text
  · simp [token, PgKind.isString] at text
  · simp [token, PgKind.isString] at text
  · exact inert.plainByte rest
  · exact plain

/-! ## Numbers -/

theorem PlainText.append {front text rest : Bytes} (first : PlainText front (text ++ rest))
    (second : PlainText text rest) : PlainText (front ++ text) rest := by
  induction front with
  | nil => exact second
  | cons b front ih =>
      refine ⟨?_, ih first.2⟩
      have head := first.1
      rwa [← List.append_assoc] at head

theorem inert_of_isDecimal {b : UInt8} (digit : isDecimal b) : Inert b := by
  refine ⟨?_, ?_, ?_, ?_⟩ <;> rintro rfl <;> exact absurd digit (by decide)

theorem inert_digitsLen (s : Bytes) : ∀ b ∈ s.take (digitsLen s), Inert b := by
  intro b member
  rw [digitsLen, ← List.prefix_iff_eq_take.mp (List.takeWhile_prefix isDecimal)] at member
  exact inert_of_isDecimal (List.mem_takeWhile_imp member)

theorem inert_fractionLen (s : Bytes) : ∀ b ∈ s.take (fractionLen s), Inert b := by
  cases s with
  | nil => simp
  | cons c rest =>
      intro b member
      rw [fractionLen] at member
      split_ifs at member with shape
      · rw [Nat.add_comm, List.take_succ_cons, List.mem_cons] at member
        rcases member with rfl | later
        · rw [shape.1]
          refine ⟨?_, ?_, ?_, ?_⟩ <;> decide
        · exact inert_digitsLen rest b later
      · simp at member

/-- The letter of an exponent stands in front of a sign or a digit. -/
theorem plainText_exponentLen (s : Bytes) :
    PlainText (s.take (exponentLen s)) (s.drop (exponentLen s)) := by
  have plain : ∀ {b c : UInt8} {rest : Bytes}, b = upperE ∨ b = lowerE → c ≠ quote →
      PlainByte b (c :: rest) := by
    intro b c rest letter other
    refine ⟨?_, ?_, dollarQuoteDelimiter_of_ne _ ?_⟩
    · rcases letter with rfl | rfl <;> decide
    · rw [isEscapeStringStart_cons]
      exact fun escape => other (Option.some.inj escape.2)
    · rcases letter with rfl | rfl <;> decide
  unfold exponentLen
  split
  · next b c rest =>
      split_ifs with letter digit signed
      · have digits := plainText_of_inert (inert_digitsLen (c :: rest))
          ((c :: rest).drop (digitsLen (c :: rest)))
        rw [Nat.add_comm, List.take_succ_cons, List.drop_succ_cons]
        refine ⟨?_, digits⟩
        rw [List.take_append_drop]
        exact plain letter (inert_of_isDecimal digit).1
      · have digits := plainText_of_inert (inert_digitsLen rest) (rest.drop (digitsLen rest))
        have sign : Inert c := by
          rcases signed.1 with rfl | rfl <;> refine ⟨?_, ?_, ?_, ?_⟩ <;> decide
        rw [Nat.add_comm, List.take_succ_cons, List.take_succ_cons, List.drop_succ_cons,
          List.drop_succ_cons]
        refine ⟨?_, sign.plainByte _, digits⟩
        rw [List.cons_append, List.take_append_drop]
        exact plain letter sign.1
      · trivial
      · trivial
  · trivial

theorem plainText_numberLen (s : Bytes) :
    PlainText (s.take (numberLen s)) (s.drop (numberLen s)) := by
  have exponent :=
    plainText_exponentLen (s.drop (digitsLen s + fractionLen (s.drop (digitsLen s))))
  rw [List.drop_drop] at exponent
  unfold numberLen
  rw [List.take_add, List.take_add]
  refine .append (plainText_of_inert ?_ _) exponent
  intro b member
  rcases List.mem_append.mp member with whole | fraction
  · exact inert_digitsLen s b whole
  · exact inert_fractionLen _ b fraction

/-! ## Identifiers -/

theorem isPrefix_of_all {p : UInt8 → Bool} {sub front rest : Bytes} (found : sub <+: front ++ rest)
    (all : ∀ b ∈ sub, p b) (stops : ∀ b ∈ rest.head?, p b = false) : sub <+: front := by
  cases rest with
  | nil => simpa using found
  | cons c rest =>
      refine isPrefix_of_notMem found fun member => ?_
      have continues := all c member
      rw [stops c rfl] at continues
      contradiction

theorem identCont_of_mem_delimiterOf {tag : Bytes} (valid : isTag tag) :
    ∀ b ∈ delimiterOf tag, identCont b := by
  intro b member
  simp only [delimiterOf, List.mem_cons, List.mem_append, List.not_mem_nil, or_false] at member
  rcases member with rfl | in_tag | rfl
  · decide
  · simp [identCont, pgTagCont, tagCont_of_mem valid in_tag]
  · decide

/-- Bytes of an identifier behind its first one are plain unless the identifier is misread. -/
theorem plainText_identifier {text rest : Bytes} (conts : ∀ b ∈ text, identCont b)
    (stops : ∀ b ∈ rest.head?, identCont b = false)
    (not_escape : rest.head? = some quote →
      text.getLast? ≠ some upperE ∧ text.getLast? ≠ some lowerE)
    (not_dollar : ∀ s, s <:+ text → dollarQuoteDelimiter s 0 = none) : PlainText text rest := by
  induction text with
  | nil => trivial
  | cons b text ih =>
      have later := ih (fun c member => conts c (List.mem_cons_of_mem b member))
        (fun next => by
          cases text with
          | nil => simp
          | cons c text => simpa using not_escape next)
        (fun s suffix => not_dollar s (suffix.trans (List.suffix_cons b text)))
      refine ⟨⟨?_, ?_, ?_⟩, later⟩
      · rintro rfl
        exact absurd (conts quote List.mem_cons_self) (by decide)
      · rw [isEscapeStringStart_cons]
        rintro ⟨letter, next⟩
        cases text with
        | nil =>
            have last := not_escape next
            rcases letter with rfl | rfl <;> simp at last
        | cons c text =>
            obtain rfl : c = quote := by simpa using next
            exact absurd (conts quote (by simp)) (by decide)
      · cases opens : dollarQuoteDelimiter (b :: (text ++ rest)) 0 with
        | none => rfl
        | some delimiter =>
            obtain ⟨tag, tail, valid, _, whole⟩ := dollarQuoteDelimiter_eq_some opens
            obtain ⟨more, inside⟩ : delimiterOf tag <+: b :: text :=
              isPrefix_of_all ⟨tail, whole.symm⟩ (identCont_of_mem_delimiterOf valid) stops
            have alone := not_dollar (b :: text) (List.suffix_refl _)
            rw [← inside, dollarQuoteDelimiter_delimiterOf more valid] at alone
            contradiction

theorem exists_takeWhile (p : UInt8 → Bool) (s : Bytes) :
    ∃ front rest, s = front ++ rest ∧ s.takeWhile p = front ∧ (∀ b ∈ front, p b) ∧
      ∀ b ∈ rest.head?, p b = false := by
  refine ⟨s.takeWhile p, s.dropWhile p, List.takeWhile_append_dropWhile.symm, rfl,
    fun b member => List.mem_takeWhile_imp member, fun b member => ?_⟩
  have stops := List.head?_dropWhile_not p s
  rw [Option.mem_def.mp member] at stops
  exact stops

/-- A token that is no literal and not misread is plain text to the redactor. -/
theorem plainText_pgToken {s : Bytes} (nonempty : s ≠ [])
    (text : (pgToken s).1.isString = false) (read : (pgTokenAt 0 s).misread = false) :
    PlainText (s.take (pgToken s).2) (s.drop (pgToken s).2) := by
  obtain ⟨b, rest, rfl⟩ := List.exists_cons_of_ne_nil nonempty
  have plain := plain_of_not_string text
  rcases pgToken_cases b rest with ⟨_, token⟩ | ⟨_, token⟩ | ⟨_, _, token⟩ | ⟨_, introduced⟩ |
    ⟨_, token | token | token⟩
  · simp [token, PgKind.isString] at text
  · simp [token, PgKind.isString] at text
  · simp [token, PgKind.isString] at text
  · rw [isString_of_isPrefixed introduced] at text
    cases text
  · obtain ⟨word, after, rfl, taken, conts, stops⟩ := exists_takeWhile identCont rest
    have size_eq : (pgToken (b :: (word ++ after))).2 = word.length + 1 := by
      rw [token, taken, Nat.add_comm]
    rw [size_eq, List.take_succ_cons, List.take_left, List.drop_succ_cons, List.drop_left]
    simp only [PgToken.misread, pgTokenAt, token, taken, Nat.add_comm 1, List.take_succ_cons,
      List.take_left, List.drop_succ_cons, List.drop_left, Bool.or_eq_false_iff] at read
    refine ⟨plain, plainText_identifier conts stops (fun next => ?_) fun s suffix => ?_⟩
    · cases word with
      | nil => simp
      | cons c word => simpa [next] using read.1
    · have absent := List.any_eq_false.mp read.2 s
        ((List.mem_tails s _).mpr (suffix.trans (List.suffix_cons b word)))
      simpa using absent
  · rw [token]
    exact plainText_numberLen (b :: rest)
  · rw [token]
    exact ⟨plain, trivial⟩

/-- A misread identifier holds a byte that opens a literal. -/
theorem not_plainText_of_misread {s : Bytes} (ident : (pgToken s).1 = .identifier)
    (misread : (pgTokenAt 0 s).misread = true) :
    ¬ PlainText (s.take (pgToken s).2) (s.drop (pgToken s).2) := by
  simp only [PgToken.misread, pgTokenAt, ident, Bool.or_eq_true, Bool.and_eq_true, beq_iff_eq,
    decide_eq_true_eq] at misread
  generalize s.take (pgToken s).2 = text at misread
  generalize s.drop (pgToken s).2 = rest at misread
  intro plain
  rcases misread with ⟨⟨_, letter⟩, next⟩ | delimits
  · obtain ⟨front, b, text_eq, b_eq⟩ :
        ∃ front b, text = front ++ [b] ∧ (b = upperE ∨ b = lowerE) := by
      rcases letter with last | last
      · obtain ⟨front, text_eq⟩ := List.getLast?_eq_some_iff.mp last
        exact ⟨front, upperE, text_eq, .inl rfl⟩
      · obtain ⟨front, text_eq⟩ := List.getLast?_eq_some_iff.mp last
        exact ⟨front, lowerE, text_eq, .inr rfl⟩
    have last_plain := plain.drop front.length
    rw [text_eq, List.drop_left] at last_plain
    exact last_plain.1.not_escape ((isEscapeStringStart_cons b _).mpr ⟨b_eq, next⟩)
  · obtain ⟨t, member, opens⟩ := List.any_eq_true.mp delimits
    obtain ⟨front, text_eq⟩ := (List.mem_tails t _).mp member
    obtain ⟨delimiter, found⟩ := Option.isSome_iff_exists.mp opens
    obtain ⟨tag, more, valid, _, t_eq⟩ := dollarQuoteDelimiter_eq_some found
    have inner_plain := plain.drop front.length
    rw [← text_eq, List.drop_left, t_eq] at inner_plain
    have none_there := inner_plain.1.not_dollar
    have some_there := dollarQuoteDelimiter_delimiterOf (more ++ rest) valid
    rw [← List.append_assoc] at some_there
    exact absurd (none_there.symm.trans some_there) (by simp)

/-! ## Walking over a query -/

/-- Suffixes that the redactor reaches, where text outside literals is read byte by byte. -/
inductive Walks : Bytes → Bytes → Prop
  | refl (s : Bytes) : Walks s s
  | literal {b : UInt8} {s t : Bytes} : ¬ PlainByte b s →
      Walks ((b :: s).drop (scanStep (b :: s)).2) t → Walks (b :: s) t
  | byte {b : UInt8} {s t : Bytes} : PlainByte b s → Walks s t → Walks (b :: s) t

namespace Walks

theorem trans {s t u : Bytes} (first : Walks s t) (second : Walks t u) : Walks s u := by
  induction first with
  | refl => exact second
  | literal opens _ ih => exact .literal opens (ih second)
  | byte plain _ ih => exact .byte plain (ih second)

theorem of_plainText {text rest : Bytes} (plain : PlainText text rest) :
    Walks (text ++ rest) rest := by
  induction text with
  | nil => exact .refl rest
  | cons b text ih => exact .byte plain.1 (ih plain.2)

theorem of_reads {s t : Bytes} {read : List Emission} (path : Reads s read t) : Walks s t := by
  induction path with
  | refl s => exact .refl s
  | @head s after rest nonempty _ ih =>
      obtain ⟨b, tail, rfl⟩ := List.exists_cons_of_ne_nil nonempty
      by_cases plain : PlainByte b tail
      · have turn := of_plainText (plainText_turn plain)
        rw [List.take_append_drop] at turn
        exact turn.trans ih
      · exact .literal plain ih

/-- A walk stands where a turn of the loop starts, or inside a turn outside literals. -/
theorem reads {query s t : Bytes}
    (start : ∃ text rest read, s = text ++ rest ∧ (∀ b ∈ text, Inert b) ∧ Reads query read rest)
    (path : Walks s t) :
    ∃ text rest read, t = text ++ rest ∧ (∀ b ∈ text, Inert b) ∧ Reads query read rest := by
  induction path with
  | refl => exact start
  | @literal b s t opens _ ih =>
      apply ih
      obtain ⟨text, rest, read, s_eq, inert, visits⟩ := start
      cases text with
      | nil =>
          obtain rfl : b :: s = rest := s_eq
          exact ⟨[], _, _, rfl, by simp, visits.trans (.head (List.cons_ne_nil b s) (.refl _))⟩
      | cons c text =>
          obtain ⟨rfl, rfl⟩ := List.cons.inj s_eq
          exact absurd (plainText_of_inert inert rest).1 opens
  | @byte b s t plain _ ih =>
      apply ih
      obtain ⟨text, rest, read, s_eq, inert, visits⟩ := start
      cases text with
      | nil =>
          obtain rfl : b :: s = rest := s_eq
          have turn_inert := inert_turn plain
          have turn_pos := scanStep_pos (List.cons_ne_nil b s)
          obtain ⟨width, width_eq⟩ : ∃ width, (scanStep (b :: s)).2 = width + 1 :=
            ⟨(scanStep (b :: s)).2 - 1, by omega⟩
          have next := visits.trans (.head (List.cons_ne_nil b s) (.refl _))
          rw [width_eq, List.drop_succ_cons] at next
          rw [width_eq, List.take_succ_cons, List.tail_cons] at turn_inert
          exact ⟨s.take width, _, _, (List.take_append_drop width s).symm, turn_inert, next⟩
      | cons c text =>
          obtain ⟨rfl, rfl⟩ := List.cons.inj s_eq
          exact ⟨text, rest, read, rfl, fun c member => inert c (List.mem_cons_of_mem b member),
            visits⟩

/-- A turn starts at every byte of a walk that could open a literal. -/
theorem exists_reads {query s : Bytes} {b : UInt8} (path : Walks query (b :: s))
    (opens : ¬ Inert b) : ∃ read, Reads query read (b :: s) := by
  obtain ⟨text, rest, read, s_eq, inert, visits⟩ :=
    path.reads ⟨[], query, [], rfl, by simp, .refl query⟩
  cases text with
  | nil =>
      obtain rfl : b :: s = rest := s_eq
      exact ⟨read, visits⟩
  | cons c text =>
      obtain ⟨rfl, rfl⟩ := List.cons.inj s_eq
      exact absurd (inert b List.mem_cons_self) opens

/-- A walk stands where a token starts, or inside a token outside literals. -/
theorem lexes {query s t : Bytes}
    (read : ∀ u, Lexes query u → u ≠ [] → (pgTokenAt 0 u).misread = false)
    (start : ∃ text rest, s = text ++ rest ∧ PlainText text rest ∧ Lexes query rest)
    (path : Walks s t) :
    ∃ text rest, t = text ++ rest ∧ PlainText text rest ∧ Lexes query rest := by
  induction path with
  | refl => exact start
  | @literal b s t opens _ ih =>
      apply ih
      obtain ⟨text, rest, s_eq, plain, starts⟩ := start
      cases text with
      | nil =>
          obtain rfl : b :: s = rest := s_eq
          have string : (pgToken (b :: s)).1.isString := by
            cases kind : (pgToken (b :: s)).1.isString with
            | true => rfl
            | false => exact absurd (plain_of_not_string kind) opens
          rw [scanStep_pgToken string (read _ starts (List.cons_ne_nil b s))]
          exact ⟨[], _, rfl, trivial, starts.next (List.cons_ne_nil b s)⟩
      | cons c text =>
          obtain ⟨rfl, rfl⟩ := List.cons.inj s_eq
          exact absurd plain.1 opens
  | @byte b s t plain_b _ ih =>
      apply ih
      obtain ⟨text, rest, s_eq, plain, starts⟩ := start
      cases text with
      | nil =>
          obtain rfl : b :: s = rest := s_eq
          have nonempty := List.cons_ne_nil b s
          have kind : (pgToken (b :: s)).1.isString = false := by
            cases string : (pgToken (b :: s)).1.isString with
            | false => rfl
            | true => exact absurd plain_b (not_plain_of_string string (read _ starts nonempty))
          have token_plain := plainText_pgToken nonempty kind (read _ starts nonempty)
          have next := starts.next nonempty
          obtain ⟨size, size_eq⟩ : ∃ size, (pgToken (b :: s)).2 = size + 1 :=
            ⟨(pgToken (b :: s)).2 - 1, by have := (pgToken_size nonempty).1; omega⟩
          rw [size_eq, List.drop_succ_cons] at next
          rw [size_eq, List.take_succ_cons, List.drop_succ_cons] at token_plain
          exact ⟨s.take size, _, (List.take_append_drop size s).symm, token_plain.2, next⟩
      | cons c text =>
          obtain ⟨rfl, rfl⟩ := List.cons.inj s_eq
          exact ⟨text, rest, rfl, plain.2, starts⟩

/-- A token starts at every byte of a walk that opens a literal. -/
theorem lexes_of_opens {query s : Bytes} {b : UInt8} (path : Walks query (b :: s))
    (read : ∀ u, Lexes query u → u ≠ [] → (pgTokenAt 0 u).misread = false)
    (opens : ¬ PlainByte b s) : Lexes query (b :: s) := by
  obtain ⟨text, rest, s_eq, plain, starts⟩ :=
    path.lexes read ⟨[], query, rfl, trivial, .refl query⟩
  cases text with
  | nil =>
      obtain rfl : b :: s = rest := s_eq
      exact starts
  | cons c text =>
      obtain ⟨rfl, rfl⟩ := List.cons.inj s_eq
      exact absurd plain.1 opens

end Walks

/-! ## Tokens up to the first misread one -/

/-- Suffixes at which tokens start when all tokens before are not misread. -/
inductive ReadLexes : Bytes → Bytes → Prop
  | refl (s : Bytes) : ReadLexes s s
  | head {s t : Bytes} (nonempty : s ≠ []) (read : (pgTokenAt 0 s).misread = false) :
      ReadLexes (s.drop (pgToken s).2) t → ReadLexes s t

namespace ReadLexes

theorem lexes {s t : Bytes} (path : ReadLexes s t) : Lexes s t := by
  induction path with
  | refl s => exact .refl s
  | head nonempty _ _ ih => exact .head nonempty ih

theorem walks {s t : Bytes} (path : ReadLexes s t) : Walks s t := by
  induction path with
  | refl s => exact .refl s
  | @head s t nonempty read _ ih =>
      obtain ⟨b, rest, rfl⟩ := List.exists_cons_of_ne_nil nonempty
      cases kind : (pgToken (b :: rest)).1.isString with
      | true =>
          refine .literal (not_plain_of_string kind read) ?_
          rwa [scanStep_pgToken kind read]
      | false =>
          have token := Walks.of_plainText (plainText_pgToken nonempty kind read)
          rw [List.take_append_drop] at token
          exact token.trans ih

theorem of_lexes {query s t : Bytes}
    (read : ∀ u, ReadLexes query u → u ≠ [] → (pgTokenAt 0 u).misread = false)
    (start : ReadLexes query s) (path : Lexes s t) : ReadLexes query t := by
  have trans : ∀ {a b c : Bytes}, ReadLexes a b → ReadLexes b c → ReadLexes a c := by
    intro a b c first second
    induction first with
    | refl => exact second
    | head nonempty read_token _ ih => exact .head nonempty read_token (ih second)
  induction path with
  | refl => exact start
  | head nonempty _ ih =>
      exact ih (trans start (.head nonempty (read _ start nonempty) (.refl _)))

end ReadLexes

end CommonGo.Redact
