import CommonGo.Migrate.History
import CommonGo.Program.Exclusion
import CommonGo.Program.Run
import CommonGo.Sql.Migrations

/-!
# Concurrent migrations on a database server

The migration drivers of PostgreSQL and MySQL take a lock that the server keeps, so it holds between
processes.  Any number of callers migrate one database up or down, every operation may fail or be
reported as failed although it took effect, and a body may be executed in part.  Whatever the order
of their operations, a clean ledger tells where the schema is.
-/

namespace CommonGo.Migrate

open Program Sqlite
open Sql (Package)

variable {ι σ : Type}

/-! ## The driver -/

/-- How an operation turns out. -/
inductive Fault (σ : Type) where
  | none
  /-- Nothing has happened. -/
  | failed (error : Error)
  /-- It took effect, and an error is reported all the same. -/
  | lost (error : Error)
  /-- Some statements of a body were executed, and the schema is now this one. -/
  | broken (error : Error) (schema : σ)

/-- An attempt to turn one database into another. -/
def Fault.attempt (fault : Fault σ) (before intended : Db σ) : Except Error Unit × Db σ :=
  match fault with
  | .none => (.ok (), intended)
  | .failed error => (.error error, before)
  | .lost error => (.error error, intended)
  | .broken error _ => (.error error, before)

/-- The rows that are left by `TRUNCATE`, and by `DELETE ... LIMIT 1`. -/
def cleared : Package → List Row → List Row
  | .postgresql, _ => []
  | .mysql, rows => rows.drop 1

/-- The rows that the transaction of `SetVersion` writes; the version is the primary key. -/
def rewritten (package : Package) (version : Int) (dirty : Bool) (rows : List Row) :
    Option (List Row) :=
  if 0 ≤ version ∨ (version = nilVersion ∧ dirty) then
    if (cleared package rows).any fun row => row.version == version then none
    else some (cleared package rows ++ [⟨version, dirty⟩])
  else some (cleared package rows)

/-- What `Version` tells of a table that is not there. -/
def untold : Package → Except Error (Int × Bool)
  | .postgresql => .ok (nilVersion, false)
  | .mysql => .error (.other 0)

/-- `Version`. -/
def readVersion (package : Package) (fault : Fault σ) (db : Db σ) : Except Error (Int × Bool) :=
  match fault with
  | .none =>
      match db.version with
      | some told => .ok told
      | none => untold package
  | .failed error => .error error
  | .lost error => .error error
  | .broken error _ => .error error

/-- `SetVersion`. -/
def writeVersion (package : Package) (fault : Fault σ) (version : Int) (dirty : Bool) (db : Db σ) :
    Except Error Unit × Db σ :=
  match db.table.bind (rewritten package version dirty) with
  | some rows => fault.attempt db { db with table := some rows }
  | none => (.error (.other 0), db)

/-- `Run`. -/
def runOn (effect : String → σ → σ) (fault : Fault σ) (body : Body) (db : Db σ) :
    Except Error Unit × Db σ :=
  match fault with
  | .broken error schema => (.error error, { db with schema })
  | _ => fault.attempt db { db with schema := effect body.contents db.schema }

/-- The operations on the database itself; `create` is what `ensureVersionTable` does under the
lock. -/
inductive Works (package : Package) (effect : String → σ → σ) (db : Db σ) :
    (op : DriverOp) → DriverOp.Reply op → Db σ → Prop
  | create (fault : Fault σ) : Works package effect db .create (fault.attempt db db.withTable).1
      (fault.attempt db db.withTable).2
  | version (fault : Fault σ) :
      Works package effect db .version (readVersion package fault db) db
  | setVersion (fault : Fault σ) (version : Int) (dirty : Bool) :
      Works package effect db (.setVersion version dirty)
        (writeVersion package fault version dirty db).1
        (writeVersion package fault version dirty db).2
  | run (fault : Fault σ) (body : Body) :
      Works package effect db (.run body) (runOn effect fault body db).1
        (runOn effect fault body db).2

/-- What the replies of the driver mean for the lock of the server. -/
def lockProtocol (package : Package) (effect : String → σ → σ) :
    Protocol DriverOp DriverOp.Reply (Db σ) where
  acquires := fun op => match op with
    | .lock => fun reply => reply = .ok ()
    | _ => fun _ => False
  releases := fun op => match op with
    | .unlock => fun _ => True
    | _ => fun _ => False
  idles := fun op => match op with
    | .lock => fun reply => ∃ error, reply = .error error
    | .unlock => fun reply => ∃ error, reply = .error error
    | _ => fun _ => False
  works op db reply after := Works package effect db op reply after

/-! ## The calls -/

/-- `ensureVersionTable`, as `WithConnection` calls it. -/
def ensureVersionTable : Driver (Except Error Unit) := do
  match ← Driver.lock with
  | .error error => return .error error
  | .ok _ => unlockErr (← Driver.create)

/-- `errors.Join` of a result with the error of `Close`. -/
def joinClose (result : Except Error Unit) : Option Error → Except Error Unit
  | none => result
  | some closing =>
      match result with
      | .ok _ => .error closing
      | .error error => .error (.join error closing)

/-- `withMigrationDriver` with a connection that could be reserved; `closing` is the error of its
`Close`. -/
def withMigrationDriver (package : Package) (closing : Option Error)
    (migrate : Driver (Except Error Unit)) : Driver (Except Error Unit) := do
  match ← ensureVersionTable with
  | .error error =>
      let result := joinClose (.error error) closing
      return wrapResult ("create " ++ package.name ++ " migration driver") result
  | .ok _ =>
      let result := joinClose (← migrate) closing
      return wrapResult ("run " ++ package.name ++ " migrations") result

/-- `MigrateUp` or `MigrateDown` of a package. -/
def Call.onServer (package : Package) (source : Source) (closing : Option Error) :
    Call → Driver (Except Error Unit)
  | .up => withMigrationDriver package closing (migrateUp (.ok source))
  | .down steps =>
      if steps ≤ 0 then
        return .error (.wrap .invalidArgument "migration steps must be greater than zero")
      else withMigrationDriver package closing (migrateDown (.ok source) steps)

/-! ## The server -/

/-- The callers and the database, with the flag `isLocked` of every driver. -/
structure Server (ι σ : Type) where
  /-- The callers, the lock of the database and the database. -/
  contest : Contest ι DriverOp DriverOp.Reply (Db σ) (Except Error Unit)
  /-- The flag of each driver. -/
  isLocked : ι → Bool

/-- What can happen next. -/
inductive ServerAction (ι σ : Type) where
  /-- The next operation of a caller. -/
  | operate (i : ι) (fault : Fault σ)
  /-- Somebody else takes the lock, as a request does that was given up by its caller. -/
  | enter
  | leave

section Steps

variable [DecidableEq ι] (package : Package) (effect : String → σ → σ)

namespace Server

/-- The server before the first step. -/
def start (source : Source) (calls : ι → Call) (closing : ι → Option Error) (prior : Db σ) :
    Server ι σ where
  contest := {
    holder := .nobody
    resource := prior
    code := fun i => (calls i).onServer package source (closing i) }
  isLocked _ := false

/-- A caller goes on with a reply. -/
def reply (server : Server ι σ) (i : ι) (code : Driver (Except Error Unit)) :
    Contest ι DriverOp DriverOp.Reply (Db σ) (Except Error Unit) :=
  { server.contest with code := Function.update server.contest.code i code }

/-- `Lock`: a driver whose flag is set refuses, and else the server makes the caller wait until
nobody has the lock, unless the request fails. -/
def lock (server : Server ι σ) (i : ι) (fault : Fault σ)
    (next : Except Error Unit → Driver (Except Error Unit)) : Option (Server ι σ) :=
  if server.isLocked i then
    some { server with contest := server.reply i (next (.error .locked)) }
  else
    match fault with
    | .none =>
        match server.contest.holder with
        | .nobody => some {
            contest := { server.reply i (next (.ok ())) with holder := .caller i }
            isLocked := Function.update server.isLocked i true }
        | _ => none
    | .failed error => some { server with contest := server.reply i (next (.error error)) }
    | .lost error => some { server with contest := server.reply i (next (.error error)) }
    | .broken error _ => some { server with contest := server.reply i (next (.error error)) }

/-- `Unlock`: an error leaves the flag set, whether the server has released the lock or not. -/
def unlock (server : Server ι σ) (i : ι) (fault : Fault σ)
    (next : Except Error Unit → Driver (Except Error Unit)) : Option (Server ι σ) :=
  if server.isLocked i then
    match server.contest.holder with
    | .caller holder =>
        if holder = i then
          match fault with
          | .none => some {
              contest := { server.reply i (next (.ok ())) with holder := .nobody }
              isLocked := Function.update server.isLocked i false }
          | .failed error => some { server with contest := server.reply i (next (.error error)) }
          | .lost error => some { server with
              contest := { server.reply i (next (.error error)) with holder := .nobody } }
          | .broken error _ => some { server with contest := server.reply i (next (.error error)) }
        else none
    | _ => none
  else some { server with contest := server.reply i (next (.error .notLocked)) }

/-- A caller goes on with the database changed. -/
def replyOn (server : Server ι σ) (i : ι) (code : Driver (Except Error Unit)) (db : Db σ) :
    Server ι σ :=
  { server with contest := { server.reply i code with resource := db } }

/-- One step; `none` if it cannot happen. -/
def step (server : Server ι σ) : ServerAction ι σ → Option (Server ι σ)
  | .enter =>
      match server.contest.holder with
      | .nobody => some { server with contest := { server.contest with holder := .stranger } }
      | _ => none
  | .leave =>
      match server.contest.holder with
      | .stranger => some { server with contest := { server.contest with holder := .nobody } }
      | _ => none
  | .operate i fault =>
      let db := server.contest.resource
      match server.contest.code i with
      | .done _ => none
      | .call .lock next => server.lock i fault next
      | .call .unlock next => server.unlock i fault next
      | .call .create next =>
          let (reply, db) := fault.attempt db db.withTable
          some (server.replyOn i (next reply) db)
      | .call .version next => some (server.replyOn i (next (readVersion package fault db)) db)
      | .call (.setVersion version dirty) next =>
          let (reply, db) := writeVersion package fault version dirty db
          some (server.replyOn i (next reply) db)
      | .call (.run body) next =>
          let (reply, db) := runOn effect fault body db
          some (server.replyOn i (next reply) db)

end Server

end Steps

/-! ## The server follows the protocol -/

section Refinement

variable [DecidableEq ι] {package : Package} {effect : String → σ → σ} {server after : Server ι σ}
  {i : ι} {fault : Fault σ} {next : Except Error Unit → Driver (Except Error Unit)}
  {action : ServerAction ι σ}

theorem Server.lock_step (code : server.contest.code i = .call .lock next)
    (stepped : server.lock i fault next = some after) :
    Contest.Step (lockProtocol package effect) server.contest after.contest := by
  unfold lock at stepped
  split at stepped
  · cases stepped
    exact .idle code ⟨_, rfl⟩
  · split at stepped
    · split at stepped
      · rename_i free
        cases stepped
        exact .acquire code rfl free
      · cases stepped
    all_goals
      cases stepped
      exact .idle code ⟨_, rfl⟩

theorem Server.unlock_step (code : server.contest.code i = .call .unlock next)
    (stepped : server.unlock i fault next = some after) :
    Contest.Step (lockProtocol package effect) server.contest after.contest := by
  unfold unlock at stepped
  split at stepped
  · split at stepped
    · rename_i holder held
      split at stepped
      · rename_i itself
        subst itself
        split at stepped
        · cases stepped
          exact .release code trivial held
        · cases stepped
          exact .idle code ⟨_, rfl⟩
        · cases stepped
          exact .release code trivial held
        · cases stepped
          exact .idle code ⟨_, rfl⟩
      · cases stepped
    · cases stepped
  · cases stepped
    exact .idle code ⟨_, rfl⟩

theorem Server.step_contest (stepped : server.step package effect action = some after) :
    Contest.Step (lockProtocol package effect) server.contest after.contest := by
  cases action with
  | enter =>
      simp only [step] at stepped
      split at stepped
      · rename_i free
        cases stepped
        exact .enter free
      · cases stepped
  | leave =>
      simp only [step] at stepped
      split at stepped
      · rename_i held
        cases stepped
        exact .leave held
      · cases stepped
  | operate i fault =>
      simp only [step] at stepped
      split at stepped
      · cases stepped
      · rename_i next code
        exact lock_step code stepped
      · rename_i next code
        exact unlock_step code stepped
      · rename_i next code
        cases stepped
        exact .work code (.create fault)
      · rename_i next code
        cases stepped
        exact .work code (.version fault)
      · rename_i version dirty next code
        cases stepped
        exact .work code (.setVersion fault version dirty)
      · rename_i body next code
        cases stepped
        exact .work code (.run fault body)

end Refinement

end CommonGo.Migrate
