import Mathlib.Data.List.Basic

/-!
# A lexer with quoted identifiers

A text is cut into words, quoted identifiers and symbols, with one letter of look-ahead.  Inside an
identifier a doubled quote stands for one quote, and a single quote ends it.  So a name whose quotes
are doubled is read as one identifier, wherever it stands and whatever it is.
-/

namespace CommonGo.Program

/-- The quote of identifiers, and the letters of white space and of words. -/
structure LexRules (α : Type) where
  /-- The quote around identifiers. -/
  quote : α
  /-- The letters between tokens. -/
  space : α → Bool
  /-- The letters of words. -/
  word : α → Bool

/-- What a lexer finds: a word, a quoted identifier or a single letter. -/
inductive Token (α : Type) where
  | word (letters : List α)
  | identifier (name : List α)
  | symbol (letter : α)
  deriving DecidableEq, Repr

/-- Where a lexer stands: in no token, in a word, in an identifier, or behind a quote in one. -/
inductive LexState (α : Type) where
  | between
  | inWord (letters : List α)
  | quoted (name : List α)
  | closing (name : List α)
  deriving DecidableEq, Repr

/-- The tokens that a text ends with; none if it ends inside an identifier. -/
def LexState.finish {α : Type} : LexState α → Option (List (Token α))
  | between => some []
  | inWord letters => some [.word letters]
  | quoted _ => none
  | closing name => some [.identifier name]

namespace LexRules

variable {α : Type} [DecidableEq α] (rules : LexRules α)

/-- A letter where a token may start. -/
def start (letter : α) : List (Token α) × LexState α :=
  if letter = rules.quote then ([], .quoted [])
  else if rules.space letter then ([], .between)
  else if rules.word letter then ([], .inWord [letter])
  else ([.symbol letter], .between)

/-- One letter: the tokens that it ends, and where the lexer stands behind it. -/
def step : LexState α → α → List (Token α) × LexState α
  | .between, letter => rules.start letter
  | .inWord letters, letter =>
      if letter ≠ rules.quote ∧ rules.word letter then ([], .inWord (letters ++ [letter]))
      else (.word letters :: (rules.start letter).1, (rules.start letter).2)
  | .quoted name, letter =>
      if letter = rules.quote then ([], .closing name) else ([], .quoted (name ++ [letter]))
  | .closing name, letter =>
      if letter = rules.quote then ([], .quoted (name ++ [letter]))
      else (.identifier name :: (rules.start letter).1, (rules.start letter).2)

/-- The tokens that end in a text, and where the lexer stands behind it. -/
def scan (state : LexState α) : List α → List (Token α) × LexState α
  | [] => ([], state)
  | letter :: text =>
      ((rules.step state letter).1 ++ (scan (rules.step state letter).2 text).1,
        (scan (rules.step state letter).2 text).2)

/-- The tokens of a text; none if an identifier is not closed. -/
def lex (text : List α) : Option (List (Token α)) :=
  (rules.scan .between text).2.finish.map ((rules.scan .between text).1 ++ ·)

/-- A name with its quotes doubled. -/
def doubleQuotes (name : List α) : List α :=
  name.flatMap fun letter => if letter = rules.quote then [letter, letter] else [letter]

/-- A name as a quoted identifier. -/
def quoteName (name : List α) : List α := rules.quote :: (rules.doubleQuotes name ++ [rules.quote])

theorem scan_append (state : LexState α) (front rest : List α) :
    rules.scan state (front ++ rest) =
      ((rules.scan state front).1 ++ (rules.scan (rules.scan state front).2 rest).1,
        (rules.scan (rules.scan state front).2 rest).2) := by
  induction front generalizing state with
  | nil => rfl
  | cons letter front ih => simp only [List.cons_append, scan, ih, List.append_assoc]

/-- A name whose quotes are doubled does not leave the identifier. -/
theorem scan_doubleQuotes (before name : List α) :
    rules.scan (.quoted before) (rules.doubleQuotes name) = ([], .quoted (before ++ name)) := by
  induction name generalizing before with
  | nil => simp [doubleQuotes, scan]
  | cons letter name ih =>
      have later := ih (before ++ [letter])
      rw [doubleQuotes] at later
      rw [doubleQuotes, List.flatMap_cons, scan_append]
      by_cases quote : letter = rules.quote
      · subst quote
        simp [scan, step, later]
      · simp [quote, scan, step, later]

/-- A quoted name closes an identifier with that name. -/
theorem scan_quoteName (name : List α) :
    rules.scan .between (rules.quoteName name) = ([], .closing name) := by
  rw [quoteName, scan, step, start, if_pos rfl, scan_append, scan_doubleQuotes]
  simp [scan, step]

/-- A quoted name at the end of a text is one identifier behind the tokens of the text before. -/
theorem lex_append_quoteName {front : List α} {tokens : List (Token α)} (name : List α)
    (read : rules.scan .between front = (tokens, .between)) :
    rules.lex (front ++ rules.quoteName name) = some (tokens ++ [.identifier name]) := by
  rw [lex, scan_append, read, scan_quoteName]
  simp [LexState.finish]

end LexRules

end CommonGo.Program
