import CommonGo.Migrate.Engine

/-!
# The SQLite migration driver

The driver's functions are procedures over `database/sql`: begin, execute, commit, roll back,
query.  Every such operation may fail, and a commit or a statement outside a transaction may also
take effect and still report an error.  A transaction works on a copy of the database that only
its commit writes back.
-/

namespace CommonGo.Migrate.Sqlite

open Program

/-! ## The database -/

/-- A row of `schema_migrations`. -/
structure Row where
  /-- The column `version`. -/
  version : Int
  /-- The column `dirty`. -/
  dirty : Bool
  deriving DecidableEq, Repr

/-- A database: the ledger table, if it exists, and everything else. -/
structure Db (σ : Type) where
  /-- The rows of the ledger table, if it exists. -/
  table : Option (List Row)
  /-- Everything else. -/
  schema : σ
  deriving DecidableEq

/-- The statements the driver executes. -/
inductive Statement where
  | createMigrationTable
  | deleteMigrationVersion
  | insertMigrationVersion (version : Int) (dirty : Bool)
  | migration (body : Body)

/-- The statement's text, as the driver's errors quote it. -/
def Statement.text : Statement → String
  | .createMigrationTable =>
      "\nCREATE TABLE IF NOT EXISTS schema_migrations (version uint64, dirty bool);\n" ++
        "CREATE UNIQUE INDEX IF NOT EXISTS version_unique ON schema_migrations (version);\n"
  | .deleteMigrationVersion => "DELETE FROM schema_migrations"
  | .insertMigrationVersion _ _ =>
      "\nINSERT INTO schema_migrations (version, dirty)\nVALUES (?, ?)"
  | .migration body => body.contents

/-- The text of the query of `Version`. -/
def selectMigrationVersionStatement : String :=
  "SELECT version, dirty FROM schema_migrations LIMIT 1"

/-- The migration bodies a statement runs. -/
def Statement.bodies : Statement → List Body
  | .migration body => [body]
  | _ => []

/-- What a statement does: the ledger statements need the table, and a version stands in it once;
a body changes the rest of the database by what its contents mean. -/
def Statement.apply {σ : Type} (effect : String → σ → σ) : Statement → Db σ → Except Error (Db σ)
  | .createMigrationTable, db => .ok { db with table := some (db.table.getD []) }
  | .deleteMigrationVersion, db =>
      match db.table with
      | none => .error (.other 0)
      | some _ => .ok { db with table := some [] }
  | .insertMigrationVersion version dirty, db =>
      match db.table with
      | none => .error (.other 0)
      | some rows =>
          if rows.any (fun row => row.version == version) then .error (.other 0)
          else .ok { db with table := some (rows ++ [⟨version, dirty⟩]) }
  | .migration body, db => .ok { db with schema := effect body.contents db.schema }

/-- The operations of `database/sql`, and reading a migration to its end. -/
inductive SqlOp where
  | ping
  | beginTx
  | execTx (statement : Statement)
  | commit
  | rollback
  | exec (statement : Statement)
  | queryRow
  | readAll (body : Body)

/-- What `database/sql` answers. -/
@[reducible] def SqlOp.Reply : SqlOp → Type
  | .queryRow => Except Error Row
  | _ => Except Error Unit

/-- How an operation turns out. -/
inductive Outcome where
  | success
  | failure
  /-- It took effect, and an error is reported all the same. -/
  | lost
  deriving DecidableEq, Repr

/-- A connection: the committed database, the copy of an open transaction, the migration bodies
executed so far and the number of operations so far. -/
structure Connection (σ : Type) where
  /-- What has been committed. -/
  db : Db σ
  /-- What an open transaction sees. -/
  transaction : Option (Db σ)
  /-- The migration bodies executed so far. -/
  executed : List Body
  /-- The number of operations so far. -/
  clock : Nat
  deriving DecidableEq

/-- What a statement outside a transaction does to the committed database. -/
def Connection.exec {σ : Type} (effect : String → σ → σ) (statement : Statement) (db : Db σ) :
    Db σ :=
  match statement.apply effect db with
  | .ok changed => changed
  | .error _ => db

/-- `database/sql` with the outcome of the operation at every clock value given. -/
def sql {σ : Type} (effect : String → σ → σ) (faults : Nat → Outcome) :
    Handler SqlOp SqlOp.Reply (Connection σ) := fun op conn =>
  let failed : Error := .other conn.clock
  let outcome := faults conn.clock
  let conn := { conn with clock := conn.clock + 1 }
  match op with
  | .ping => (if outcome = .success then .ok () else .error failed, conn)
  | .readAll _ => (if outcome = .success then .ok () else .error failed, conn)
  | .beginTx =>
      if outcome = .success then (.ok (), { conn with transaction := some conn.db })
      else (.error failed, conn)
  | .execTx statement =>
      let conn := { conn with executed := conn.executed ++ statement.bodies }
      match outcome, conn.transaction with
      | .success, some working =>
          match statement.apply effect working with
          | .ok changed => (.ok (), { conn with transaction := some changed })
          | .error error => (.error error, conn)
      | _, _ => (.error failed, conn)
  | .commit =>
      match outcome, conn.transaction with
      | .success, some working => (.ok (), { conn with db := working, transaction := none })
      | .lost, some working => (.error failed, { conn with db := working, transaction := none })
      | _, _ => (.error failed, { conn with transaction := none })
  | .rollback =>
      (if outcome = .success then .ok () else .error failed, { conn with transaction := none })
  | .exec statement =>
      let conn := { conn with executed := conn.executed ++ statement.bodies }
      match outcome with
      | .success =>
          match statement.apply effect conn.db with
          | .ok changed => (.ok (), { conn with db := changed })
          | .error error => (.error error, conn)
      | .lost => (.error failed, { conn with db := Connection.exec effect statement conn.db })
      | .failure => (.error failed, conn)
  | .queryRow =>
      match outcome, conn.db.table with
      | .success, some rows =>
          match rows.head? with
          | some row => (.ok row, conn)
          | none => (.error .noRows, conn)
      | _, _ => (.error failed, conn)

/-! ## The driver's functions -/

/-- Procedures over `database/sql`. -/
abbrev Sql := Procedure SqlOp SqlOp.Reply

namespace Sql

/-- `Ping`. -/
abbrev ping : Sql (Except Error Unit) := Procedure.perform SqlOp.ping

/-- `BeginTx`. -/
abbrev beginTx : Sql (Except Error Unit) := Procedure.perform SqlOp.beginTx

/-- `ExecContext` in a transaction. -/
abbrev execTx (statement : Statement) : Sql (Except Error Unit) :=
  Procedure.perform (SqlOp.execTx statement)

/-- `Commit`. -/
abbrev commit : Sql (Except Error Unit) := Procedure.perform SqlOp.commit

/-- `Rollback`. -/
abbrev rollback : Sql (Except Error Unit) := Procedure.perform SqlOp.rollback

/-- `ExecContext` outside a transaction. -/
abbrev exec (statement : Statement) : Sql (Except Error Unit) :=
  Procedure.perform (SqlOp.exec statement)

/-- `QueryRowContext` for the row of the ledger. -/
abbrev queryRow : Sql (Except Error Row) := Procedure.perform SqlOp.queryRow

/-- `io.ReadAll` on the body of a migration. -/
abbrev readAll (body : Body) : Sql (Except Error Unit) :=
  Procedure.perform (SqlOp.readAll body)

end Sql

/-- `driver.Lock`: compare and swap the flag from false to true. -/
def lock (locked : Bool) : Except Error Unit × Bool :=
  if locked then (.error .locked, locked) else (.ok (), true)

/-- `driver.Unlock`: compare and swap the flag from true to false. -/
def unlock (locked : Bool) : Except Error Unit × Bool :=
  if locked then (.ok (), false) else (.error .notLocked, locked)

/-- `driver.rollbackWithError`. -/
def rollbackWithError (original : Error) (query : String) : Sql (Except Error Unit) := do
  match ← Sql.rollback with
  | .ok _ => return .error (.database original "" query)
  | .error error => return .error (.database (.join original error) "" query)

/-- The commit that ends a transaction of the driver, with the message of its failure. -/
def commitWith (message : String) : Sql (Except Error Unit) := do
  match ← Sql.commit with
  | .ok _ => return .ok ()
  | .error error => return .error (.database error message "")

/-- `driver.SetVersion`. -/
def setVersion (version : Int) (dirty : Bool) : Sql (Except Error Unit) := do
  let committing := commitWith "commit migration version transaction"
  match ← Sql.beginTx with
  | .error error => return .error (.database error "start migration version transaction" "")
  | .ok _ =>
      match ← Sql.execTx .deleteMigrationVersion with
      | .error error => rollbackWithError error Statement.deleteMigrationVersion.text
      | .ok _ =>
          if 0 ≤ version ∨ (version = nilVersion ∧ dirty) then
            match ← Sql.execTx (.insertMigrationVersion version dirty) with
            | .error error =>
                rollbackWithError error (Statement.insertMigrationVersion version dirty).text
            | .ok _ => committing
          else committing

/-- `driver.Version`. -/
def version : Sql (Except Error (Int × Bool)) := do
  match ← Sql.queryRow with
  | .ok row => return .ok (row.version, row.dirty)
  | .error error =>
      if error.is .noRows then return .ok (nilVersion, false)
      else return .error (.database error "" selectMigrationVersionStatement)

/-- `driver.execute`, for a query that is the contents of a body. -/
def execute (body : Body) : Sql (Except Error Unit) := do
  match ← Sql.beginTx with
  | .error error => return .error (.database error "start migration transaction" "")
  | .ok _ =>
      match ← Sql.execTx (.migration body) with
      | .error error => rollbackWithError error (Statement.migration body).text
      | .ok _ => commitWith "commit migration transaction"

/-- `driver.Run`. -/
def run (body : Body) : Sql (Except Error Unit) := do
  match ← Sql.readAll body with
  | .error error => return .error (.wrap error "read migration")
  | .ok _ => execute body

/-- `driver.ensureMigrationTable`, with the driver's flag. -/
def ensureMigrationTable (locked : Bool) : Sql (Except Error Unit × Bool) :=
  match lock locked with
  | (.error error, locked) => return (.error (.wrap error "lock migration driver"), locked)
  | (.ok _, locked) => do
      let execution ← Sql.exec .createMigrationTable
      match execution, unlock locked with
      | .error error, (.error unlockError, locked) =>
          return (.error (.database (.join error unlockError) ""
            Statement.createMigrationTable.text), locked)
      | .error error, (.ok _, locked) =>
          return (.error (.database error "" Statement.createMigrationTable.text), locked)
      | .ok _, (.error unlockError, locked) =>
          return (.error (.wrap unlockError "unlock migration driver"), locked)
      | .ok _, (.ok _, locked) => return (.ok (), locked)

/-- `newDriver`: a driver whose flag is down. -/
def newDriver : Sql (Except Error Unit × Bool) := do
  match ← ensureMigrationTable false with
  | (.error error, locked) => return (.error (.wrap error "ensure migration table"), locked)
  | (.ok _, locked) => return (.ok (), locked)

/-- `migrationDriver`, for a connection that is not nil. -/
def migrationDriver : Sql (Except Error Unit × Bool) := do
  match ← Sql.ping with
  | .error error => return (.error (.wrap error "ping SQLite database"), false)
  | .ok _ =>
      match ← newDriver with
      | (.error error, locked) =>
          return (.error (.wrap error "create SQLite migration driver"), locked)
      | (.ok _, locked) => return (.ok (), locked)

/-- The driver over a connection: the flag of the driver in use, and the connection. -/
def handle {σ : Type} (effect : String → σ → σ) (faults : Nat → Outcome) :
    Handler DriverOp DriverOp.Reply (Bool × Connection σ)
  | .create, (_, conn) =>
      let result := migrationDriver.run (sql effect faults) conn
      (result.1.1, result.1.2, result.2)
  | .lock, (locked, conn) => ((lock locked).1, (lock locked).2, conn)
  | .unlock, (locked, conn) => ((unlock locked).1, (unlock locked).2, conn)
  | .version, (locked, conn) =>
      let result := version.run (sql effect faults) conn
      (result.1, locked, result.2)
  | .setVersion version dirty, (locked, conn) =>
      let result := (setVersion version dirty).run (sql effect faults) conn
      (result.1, locked, result.2)
  | .run body, (locked, conn) =>
      let result := (run body).run (sql effect faults) conn
      (result.1, locked, result.2)

/-! ## Rules for `database/sql` -/

section Rules

variable {σ : Type} {effect : String → σ → σ} {faults : Nat → Outcome} {α : Type}
  {post : α → Connection σ → Prop} {conn : Connection σ}

/-- What a procedure over `database/sql` ensures of its result and the connection after it. -/
def Ensures (effect : String → σ → σ) (faults : Nat → Outcome) (p : Sql α)
    (post : α → Connection σ → Prop) (conn : Connection σ) : Prop :=
  p.wp (sql effect faults) (fun _ => True) post conn

theorem ensures_done {a : α} (holds : post a conn) :
    Ensures effect faults (.done a) post conn := ⟨trivial, holds⟩

/-- The result of a run is as ensured. -/
theorem Ensures.run {p : Sql α} (ensures : Ensures effect faults p post conn) :
    post (p.run (sql effect faults) conn).1 (p.run (sql effect faults) conn).2 :=
  ((Procedure.wp_iff p post conn).mp ensures).2

theorem ensures_mono {p : Sql α} {weaker : α → Connection σ → Prop}
    (ensures : Ensures effect faults p post conn)
    (weaken : ∀ a last, post a last → weaker a last) : Ensures effect faults p weaker conn :=
  Procedure.wp_mono ensures fun a last _ => weaken a last

theorem ensures_beginTx {next : Except Error Unit → Sql α}
    (begun : ∀ clock, Ensures effect faults (next (.ok ())) post
      { conn with transaction := some conn.db, clock := clock })
    (failed : ∀ error clock, Ensures effect faults (next (.error error)) post
      { conn with clock := clock }) :
    Ensures effect faults (.call .beginTx next) post conn := by
  refine ⟨trivial, ?_⟩
  simp only [sql]
  split_ifs
  · exact begun _
  · exact failed _ _

theorem ensures_execTx {statement : Statement} {working : Db σ}
    {next : Except Error Unit → Sql α} (opened : conn.transaction = some working)
    (changed : ∀ after clock, statement.apply effect working = .ok after →
      Ensures effect faults (next (.ok ())) post
        { conn with
          transaction := some after
          executed := conn.executed ++ statement.bodies
          clock := clock })
    (failed : ∀ error clock, Ensures effect faults (next (.error error)) post
      { conn with executed := conn.executed ++ statement.bodies, clock := clock }) :
    Ensures effect faults (.call (.execTx statement) next) post conn := by
  obtain ⟨db, transaction, executed, clock⟩ := conn
  cases opened
  refine ⟨trivial, ?_⟩
  simp only [sql]
  cases faults clock with
  | success =>
      cases applied : statement.apply effect working with
      | ok after =>
          simp only [applied]
          exact changed after _ applied
      | error error =>
          simp only [applied]
          exact failed _ _
  | failure => exact failed _ _
  | lost => exact failed _ _

theorem ensures_commit {working : Db σ} {next : Except Error Unit → Sql α}
    (opened : conn.transaction = some working)
    (committed : ∀ clock, Ensures effect faults (next (.ok ())) post
      { conn with db := working, transaction := none, clock := clock })
    (failed : ∀ error clock, Ensures effect faults (next (.error error)) post
      { conn with transaction := none, clock := clock })
    (lost : ∀ error clock, Ensures effect faults (next (.error error)) post
      { conn with db := working, transaction := none, clock := clock }) :
    Ensures effect faults (.call .commit next) post conn := by
  refine ⟨trivial, ?_⟩
  simp only [sql, opened]
  cases faults conn.clock with
  | success => exact committed _
  | failure => exact failed _ _
  | lost => exact lost _ _

theorem ensures_rollback {next : Except Error Unit → Sql α}
    (replied : ∀ reply clock, Ensures effect faults (next reply) post
      { conn with transaction := none, clock := clock }) :
    Ensures effect faults (.call .rollback next) post conn := by
  refine ⟨trivial, ?_⟩
  exact replied _ _

theorem ensures_exec {statement : Statement} {next : Except Error Unit → Sql α} {after : Db σ}
    (applied : statement.apply effect conn.db = .ok after)
    (changed : ∀ clock, Ensures effect faults (next (.ok ())) post
      { conn with db := after, executed := conn.executed ++ statement.bodies, clock := clock })
    (failed : ∀ error clock, Ensures effect faults (next (.error error)) post
      { conn with executed := conn.executed ++ statement.bodies, clock := clock })
    (lost : ∀ error clock, Ensures effect faults (next (.error error)) post
      { conn with db := after, executed := conn.executed ++ statement.bodies, clock := clock }) :
    Ensures effect faults (.call (.exec statement) next) post conn := by
  refine ⟨trivial, ?_⟩
  simp only [sql, Connection.exec, applied]
  cases faults conn.clock with
  | success => exact changed _
  | failure => exact failed _ _
  | lost => exact lost _ _

theorem ensures_ping {next : Except Error Unit → Sql α}
    (replied : ∀ reply clock, Ensures effect faults (next reply) post
      { conn with clock := clock }) :
    Ensures effect faults (.call .ping next) post conn :=
  ⟨trivial, replied _ _⟩

theorem ensures_readAll {body : Body} {next : Except Error Unit → Sql α}
    (replied : ∀ reply clock, Ensures effect faults (next reply) post
      { conn with clock := clock }) :
    Ensures effect faults (.call (.readAll body) next) post conn :=
  ⟨trivial, replied _ _⟩

theorem ensures_queryRow {next : Except Error Row → Sql α}
    (found : ∀ row rest clock, conn.db.table = some (row :: rest) →
      Ensures effect faults (next (.ok row)) post { conn with clock := clock })
    (empty : ∀ clock, conn.db.table = some [] →
      Ensures effect faults (next (.error .noRows)) post { conn with clock := clock })
    (failed : ∀ number clock,
      Ensures effect faults (next (.error (.other number))) post { conn with clock := clock }) :
    Ensures effect faults (.call .queryRow next) post conn := by
  obtain ⟨⟨table, schema⟩, transaction, executed, clock⟩ := conn
  refine ⟨trivial, ?_⟩
  simp only [sql]
  cases faults clock with
  | success =>
      rcases table with _ | _ | ⟨row, rest⟩
      · exact failed _ _
      · exact empty _ rfl
      · exact found row rest _ rfl
  | failure => exact failed _ _
  | lost => exact failed _ _

/-! ## What the driver's functions do -/

/-- The database whose ledger tells one version. -/
def Db.mark (db : Db σ) (version : Int) (dirty : Bool) : Db σ :=
  { db with
    table :=
      some (if 0 ≤ version ∨ (version = nilVersion ∧ dirty) then [⟨version, dirty⟩] else []) }

/-- The version and the dirty flag a ledger tells, if the table exists. -/
def Db.version (db : Db σ) : Option (Int × Bool) :=
  db.table.map fun rows =>
    (rows.head?.map fun row => (row.version, row.dirty)).getD (nilVersion, false)

/-- An attempt to turn one database into another: it is done, or it failed with nothing changed,
or its success was reported as an error. -/
inductive Attempt (before intended : Db σ) : Except Error Unit → Db σ → Prop
  | done : Attempt before intended (.ok ()) intended
  | failed (error : Error) : Attempt before intended (.error error) before
  | lost (error : Error) : Attempt before intended (.error error) intended

theorem commitWith_ensures {message : String} {working : Db σ}
    (opened : conn.transaction = some working) :
    Ensures effect faults (commitWith message) (fun reply last =>
      Attempt conn.db working reply last.db ∧ last.executed = conn.executed) conn := by
  refine ensures_commit opened ?_ ?_ ?_
  · intro clock
    exact ensures_done ⟨.done, rfl⟩
  · intro error clock
    exact ensures_done ⟨.failed _, rfl⟩
  · intro error clock
    exact ensures_done ⟨.lost _, rfl⟩

theorem rollbackWithError_ensures {original : Error} {query : String} (intended : Db σ) :
    Ensures effect faults (rollbackWithError original query) (fun reply last =>
      Attempt conn.db intended reply last.db ∧ last.executed = conn.executed) conn := by
  refine ensures_rollback fun reply clock => ?_
  cases reply <;> exact ensures_done ⟨.failed _, rfl⟩

/-- `SetVersion` attempts to make the ledger tell the version. -/
theorem setVersion_ensures {version : Int} {dirty : Bool} {rows : List Row}
    (present : conn.db.table = some rows) :
    Ensures effect faults (setVersion version dirty) (fun reply last =>
      Attempt conn.db (conn.db.mark version dirty) reply last.db ∧
        last.executed = conn.executed) conn := by
  simp only [setVersion, Procedure.perform_bind]
  refine ensures_beginTx (fun _ => ?_) (fun error _ => ensures_done ⟨.failed _, rfl⟩)
  refine ensures_execTx rfl (fun cleared _ deleted => ?_) (fun error _ => ?_)
  · have emptied : cleared = { conn.db with table := some [] } := by
      simpa [Statement.apply, present] using deleted.symm
    subst emptied
    simp only [Statement.bodies, List.append_nil]
    split_ifs with told
    · refine ensures_execTx rfl (fun marked _ inserted => ?_) (fun error _ => ?_)
      · have written : marked = conn.db.mark version dirty := by
          simpa [Statement.apply, Db.mark, told] using inserted.symm
        subst written
        simp only [Statement.bodies, List.append_nil]
        exact commitWith_ensures rfl
      · simp only [Statement.bodies, List.append_nil]
        exact rollbackWithError_ensures _
    · have written : ({ conn.db with table := some [] } : Db σ) = conn.db.mark version dirty := by
        simp [Db.mark, told]
      rw [written]
      exact commitWith_ensures rfl
  · simp only [Statement.bodies, List.append_nil]
    exact rollbackWithError_ensures _

/-- `Run` attempts to apply the body's contents to the rest of the database. -/
theorem run_ensures (body : Body) :
    Ensures effect faults (run body) (fun reply last =>
      Attempt conn.db { conn.db with schema := effect body.contents conn.db.schema }
        reply last.db) conn := by
  simp only [run, execute, Procedure.perform_bind]
  refine ensures_readAll fun reply _ => ?_
  cases reply with
  | error error => exact ensures_done (.failed _)
  | ok _ =>
      refine ensures_beginTx (fun _ => ?_) (fun error _ => ensures_done (.failed _))
      refine ensures_execTx rfl (fun changed _ applied => ?_) (fun error _ => ?_)
      · cases applied
        exact ensures_mono (commitWith_ensures rfl) fun _ _ holds => holds.1
      · exact ensures_mono (rollbackWithError_ensures _) fun _ _ holds => holds.1

/-- `Version` changes nothing, and what it returns is what the ledger tells. -/
theorem version_ensures :
    Ensures effect faults version (fun reply last =>
      last.db = conn.db ∧ last.executed = conn.executed ∧
        ∀ told, reply = .ok told → conn.db.version = some told) conn := by
  simp only [version, Procedure.perform_bind]
  refine ensures_queryRow (fun row rest _ table => ?_) (fun _ table => ?_) (fun number _ => ?_)
  · refine ensures_done ⟨rfl, rfl, fun told reply => ?_⟩
    cases reply
    simp [Db.version, table]
  · refine ensures_done ⟨rfl, rfl, fun told reply => ?_⟩
    cases reply
    simp [Db.version, table]
  · refine ensures_done ⟨rfl, rfl, fun told reply => ?_⟩
    cases reply

/-- The database with its ledger table. -/
def Db.withTable (db : Db σ) : Db σ := { db with table := some (db.table.getD []) }

/-- `migrationDriver` attempts to create the ledger table. -/
theorem migrationDriver_ensures :
    Ensures effect faults migrationDriver (fun reply last =>
      Attempt conn.db conn.db.withTable reply.1 last.db ∧ last.executed = conn.executed)
      conn := by
  simp only [migrationDriver, newDriver, ensureMigrationTable, lock, Procedure.perform_bind]
  refine ensures_ping fun reply _ => ?_
  cases reply with
  | error error => exact ensures_done ⟨.failed _, rfl⟩
  | ok _ =>
      refine ensures_exec rfl (fun _ => ?_) (fun error _ => ?_) (fun error _ => ?_)
      · exact ensures_done ⟨.done, List.append_nil _⟩
      · exact ensures_done ⟨.failed _, List.append_nil _⟩
      · exact ensures_done ⟨.lost _, List.append_nil _⟩

end Rules

end CommonGo.Migrate.Sqlite
