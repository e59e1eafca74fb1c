import CommonGo.Db.MySql
import CommonGo.Db.PgLexer
import CommonGo.MySql.Pools
import CommonGo.Postgres.Pools
import CommonGo.Program.Lexer

/-!
# The names of databases

A database is created by a statement into which its name is spliced as a quoted identifier.  The
server reads the keywords and the one name that was given, and nothing else.
-/

namespace CommonGo.Sql

open Go Program

/-- The tokens of MySQL statements, with identifiers in backquotes. -/
def mysqlRules : LexRules UInt8 := ⟨Redact.backquote, Redact.asciiSpace, Redact.identCont⟩

/-- The tokens of PostgreSQL statements, with identifiers in double quotes. -/
def postgresRules : LexRules UInt8 := ⟨Redact.doubleQuote, Redact.asciiSpace, Redact.identCont⟩

/-- The tokens that a server reads in a statement, which for it ends with a NUL. -/
def readStatement (rules : LexRules UInt8) (query : Bytes) : Option (List (Token UInt8)) :=
  rules.lex (query.takeWhile (· != 0))

/-- Bare words. -/
def keywords (words : List String) : List (Token UInt8) := words.map fun word => .word (ascii word)

variable {rules : LexRules UInt8} {front name : Bytes} {tokens : List (Token UInt8)}

theorem notMem_quoteName (quote : rules.quote ≠ 0) (absent : 0 ∉ name) :
    0 ∉ rules.quoteName name := by
  intro member
  simp only [LexRules.quoteName, LexRules.doubleQuotes, List.mem_cons, List.mem_append,
    List.mem_flatMap, List.not_mem_nil, or_false] at member
  rcases member with equal | ⟨letter, inName, equal⟩ | equal
  · exact quote equal.symm
  · have same : 0 = letter := by
      split at equal <;> simpa using equal
    exact absent (same ▸ inName)
  · exact quote equal.symm

/-- A statement that ends with a quoted name. -/
theorem readStatement_quoteName (read : rules.scan .between front = (tokens, .between))
    (quote : rules.quote ≠ 0) (clean : 0 ∉ front) (absent : 0 ∉ name) :
    readStatement rules (front ++ rules.quoteName name) = some (tokens ++ [.identifier name]) := by
  have whole : (front ++ rules.quoteName name).takeWhile (· != 0) =
      front ++ rules.quoteName name := by
    rw [List.takeWhile_eq_self_iff]
    intro b member
    rw [bne_iff_ne]
    rintro rfl
    rcases List.mem_append.mp member with inFront | inName
    · exact clean inFront
    · exact notMem_quoteName quote absent inName
  rw [readStatement, whole, rules.lex_append_quoteName name read]

theorem mysql_createQuery_eq (cfg : MySql.Config) :
    MySql.createQuery cfg =
      ascii "CREATE DATABASE IF NOT EXISTS " ++ mysqlRules.quoteName cfg.database := by
  rw [MySql.createQuery, List.append_assoc]
  rfl

theorem postgres_createQuery_eq (dbName : Bytes) :
    Postgres.createQuery dbName = ascii "CREATE DATABASE " ++ postgresRules.quoteName dbName := by
  have opening : ascii "CREATE DATABASE \"" = ascii "CREATE DATABASE " ++ [Redact.doubleQuote] := by
    decide
  rw [Postgres.createQuery, opening, List.append_assoc, List.append_assoc]
  rfl

theorem readStatement_mysql {cfg : MySql.Config} (absent : 0 ∉ cfg.database) :
    readStatement mysqlRules (MySql.createQuery cfg) = some
      (keywords ["CREATE", "DATABASE", "IF", "NOT", "EXISTS"] ++ [.identifier cfg.database]) := by
  rw [mysql_createQuery_eq]
  exact readStatement_quoteName (by decide) (by decide) (by decide) absent

/-- A configuration that passes has a name without NUL. -/
theorem notMem_of_validate {cfg : MySql.Config} (valid : cfg.validate = none) :
    0 ∉ cfg.database := by
  unfold MySql.Config.validate at valid
  split_ifs at valid with _ _ named
  exact fun member => named (Or.inl member)

/-- A configuration that passes creates the database it names. -/
theorem readStatement_of_validate {cfg : MySql.Config} (valid : cfg.validate = none) :
    readStatement mysqlRules (MySql.createQuery cfg) = some
      (keywords ["CREATE", "DATABASE", "IF", "NOT", "EXISTS"] ++ [.identifier cfg.database]) :=
  readStatement_mysql (notMem_of_validate valid)

/-- The statements that create a database are read as their keywords and the name that was given,
whatever quotes it has. -/
theorem readStatement_createQuery (dbName : Bytes) (absent : 0 ∉ dbName) :
    (∀ cfg : MySql.Config, cfg.database = dbName →
        readStatement mysqlRules (MySql.createQuery cfg) =
          some (keywords ["CREATE", "DATABASE", "IF", "NOT", "EXISTS"] ++ [.identifier dbName])) ∧
      readStatement postgresRules (Postgres.createQuery dbName) =
        some (keywords ["CREATE", "DATABASE"] ++ [.identifier dbName]) := by
  constructor
  · rintro cfg rfl
    exact readStatement_mysql absent
  · rw [postgres_createQuery_eq]
    exact readStatement_quoteName (by decide) (by decide) (by decide) absent

/-- A name of quotes only. -/
theorem readStatement_only_quotes :
    readStatement postgresRules (Postgres.createQuery (ascii "\"\"\"")) =
      some (keywords ["CREATE", "DATABASE"] ++ [.identifier (ascii "\"\"\"")]) :=
  (readStatement_createQuery (ascii "\"\"\"") (by decide)).2

end CommonGo.Sql
