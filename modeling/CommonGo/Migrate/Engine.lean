import CommonGo.Migrate.Source
import CommonGo.Program.Procedure

/-!
# The migration engine

golang-migrate's `Up`, `Steps` and `Force`, and this repository's `MigrateUp`, `MigrateDown` and
`MigrateForce` around them, as procedures over the operations of a database driver.  Which driver
answers, and whether other callers take steps in between, is left to how a procedure is run.
-/

namespace CommonGo.Migrate

open Program

/-- What a migration call asks of its database driver. -/
inductive DriverOp where
  /-- Create a fresh driver, which ensures its ledger table. -/
  | create
  | lock
  | unlock
  | version
  | setVersion (version : Int) (dirty : Bool)
  | run (body : Body)

/-- What the driver answers: an error or, for `Version`, the version and the dirty flag. -/
@[reducible] def DriverOp.Reply : DriverOp → Type
  | .version => Except Error (Int × Bool)
  | _ => Except Error Unit

/-- Procedures over a database driver. -/
abbrev Driver := Procedure DriverOp DriverOp.Reply

namespace Driver

/-- The creation of the driver. -/
abbrev create : Driver (Except Error Unit) := Procedure.perform DriverOp.create

/-- `Lock`. -/
abbrev lock : Driver (Except Error Unit) := Procedure.perform DriverOp.lock

/-- `Unlock`. -/
abbrev unlock : Driver (Except Error Unit) := Procedure.perform DriverOp.unlock

/-- `Version`. -/
abbrev version : Driver (Except Error (Int × Bool)) := Procedure.perform DriverOp.version

/-- `SetVersion`. -/
abbrev setVersion (version : Int) (dirty : Bool) : Driver (Except Error Unit) :=
  Procedure.perform (DriverOp.setVersion version dirty)

/-- `Run`. -/
abbrev runBody (body : Body) : Driver (Except Error Unit) := Procedure.perform (DriverOp.run body)

end Driver

/-! ## golang-migrate -/

/-- `Migrate.unlockErr`: unlock, and join a failure to the error so far.  A join of one error
reads as that error. -/
def unlockErr (previous : Except Error Unit) : Driver (Except Error Unit) := do
  match ← Driver.unlock with
  | .ok _ => return previous
  | .error failure =>
      match previous with
      | .ok _ => return .error failure
      | .error error => return .error (.join error failure)

/-- `runMigrations`, from where a migration is marked clean. -/
def markClean (migration : Migration) (next : Driver (Except Error Unit)) :
    Driver (Except Error Unit) := do
  match ← Driver.setVersion migration.targetVersion false with
  | .error error => return .error error
  | .ok _ => next

/-- `runMigrations`, from where the body of a migration is run, if it has one. -/
def applyBody (migration : Migration) (next : Driver (Except Error Unit)) :
    Driver (Except Error Unit) := do
  match migration.body with
  | none => markClean migration next
  | some body =>
      match ← Driver.runBody body with
      | .error error => return .error error
      | .ok _ => markClean migration next

/-- `runMigrations`, from where a migration is marked dirty. -/
def markDirty (migration : Migration) (next : Driver (Except Error Unit)) :
    Driver (Except Error Unit) := do
  match ← Driver.setVersion migration.targetVersion true with
  | .error error => return .error error
  | .ok _ => applyBody migration next

/-- `Migrate.runMigrations`. -/
def runMigrations : List Item → Driver (Except Error Unit)
  | [] => return .ok ()
  | .error error :: _ => return .error error
  | .migration migration :: rest => markDirty migration (runMigrations rest)

/-- What `Up` and `Steps` do with the version read from the ledger: refuse a dirty one, else run
the migrations listed from it. -/
def migrateFrom (items : Int → List Item) : Except Error (Int × Bool) → Driver (Except Error Unit)
  | .error error => unlockErr (.error error)
  | .ok (version, dirty) =>
      if dirty then unlockErr (.error (.dirty version))
      else do unlockErr (← runMigrations (items version))

/-- The common part of `Migrate.Up` and `Migrate.Steps`: they differ in the migrations listed. -/
def lockAndMigrate (items : Int → List Item) : Driver (Except Error Unit) := do
  match ← Driver.lock with
  | .error error => return .error error
  | .ok _ => migrateFrom items (← Driver.version)

/-- `Migrate.Up`. -/
def up (source : Source) : Driver (Except Error Unit) :=
  lockAndMigrate (readUp source)

/-- `Migrate.Steps` at `-n`, for a positive `n`. -/
def stepsDown (source : Source) (n : Nat) : Driver (Except Error Unit) :=
  lockAndMigrate fun version => readDown source version n

/-- `Migrate.Force`. -/
def force (version : Int) : Driver (Except Error Unit) := do
  if version < -1 then
    return .error .invalidVersion
  match ← Driver.lock with
  | .error error => return .error error
  | .ok _ =>
      match ← Driver.setVersion version false with
      | .error error => unlockErr (.error error)
      | .ok _ => Driver.unlock

/-! ## `db.MigrateUp`, `db.MigrateDown`, `db.MigrateForce` -/

/-- `ctxerrors.Wrap` on a result: an error gets the message, success stays. -/
def wrapResult (message : String) : Except Error Unit → Except Error Unit
  | .ok _ => .ok ()
  | .error error => .error (.wrap error message)

/-- What `db.MigrateUp` returns for a result of `Up`: no change is no error. -/
def upResult : Except Error Unit → Except Error Unit
  | .ok _ => .ok ()
  | .error error => if error.is .noChange then .ok () else .error (.wrap error "migrate up")

/-- `db.MigrateUp`, given what `newMigrator` returns. -/
def migrateUp (migrator : Except Error Source) : Driver (Except Error Unit) :=
  match migrator with
  | .error error => return .error (.wrap error "create migrator")
  | .ok source => return upResult (← up source)

/-- `db.MigrateDown`, given what `newMigrator` returns. -/
def migrateDown (migrator : Except Error Source) (steps : Int) : Driver (Except Error Unit) :=
  if steps ≤ 0 then
    return .error (.wrap .invalidArgument "migration steps must be greater than zero")
  else
    match migrator with
    | .error error => return .error (.wrap error "create migrator")
    | .ok source => return wrapResult "migrate down" (← stepsDown source steps.toNat)

/-- `db.MigrateForce`, given what `newMigrator` returns. -/
def migrateForce (migrator : Except Error Source) (version : Int) :
    Driver (Except Error Unit) :=
  match migrator with
  | .error error => return .error (.wrap error "create migrator")
  | .ok _ => return wrapResult "force migration version" (← force version)

/-! ## `sqlite.MigrateUp`, `sqlite.MigrateDown`, `sqlite.MigrateForce` -/

namespace Sqlite

/-- What the three functions do around the call of package `db`. -/
def withDriver (message : String) (migrate : Driver (Except Error Unit)) :
    Driver (Except Error Unit) := do
  match ← Driver.create with
  | .error error => return .error (.wrap error "create SQLite migration driver")
  | .ok _ => return wrapResult message (← migrate)

/-- `sqlite.MigrateUp`. -/
def migrateUp (migrator : Except Error Source) : Driver (Except Error Unit) :=
  withDriver "migrate SQLite up" (Migrate.migrateUp migrator)

/-- `sqlite.MigrateDown`. -/
def migrateDown (migrator : Except Error Source) (steps : Int) : Driver (Except Error Unit) :=
  withDriver "migrate SQLite down" (Migrate.migrateDown migrator steps)

/-- `sqlite.MigrateForce`. -/
def migrateForce (migrator : Except Error Source) (version : Int) :
    Driver (Except Error Unit) :=
  withDriver "force SQLite migration version" (Migrate.migrateForce migrator version)

end Sqlite

end CommonGo.Migrate
