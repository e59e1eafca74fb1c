import CommonGo.Sql.Operations

/-!
# Migrations on a caller's pool

The standalone migration functions of the MySQL package and the migration methods of the PostgreSQL
package.  Both reserve a connection of the pool and hand it to a migration driver, which owns it
from then on; so who gives it back depends on how far the call got.
-/

namespace CommonGo.Sql

open Go Program

/-- The packages, which differ in their messages only. -/
inductive Package where
  | mysql
  | postgresql
  deriving DecidableEq, Repr

/-- The name of the database in the messages. -/
def Package.name : Package → String
  | mysql => "MySQL"
  | postgresql => "PostgreSQL"

/-- `withMigrationDriver` of the two packages. -/
def withMigrationDriver (package : Package) (sqlDB : Option Nat)
    (run : Nat → Action (Option Error)) : Action (Option Error) := do
  match sqlDB with
  | none => return some (.wrap .requiredFieldNotSet (package.name ++ " database"))
  | some pool =>
      match ← Procedure.perform (Op.reserve pool) with
      | .error err =>
          return some (.wrap err ("reserve " ++ package.name ++ " migration connection"))
      | .ok conn =>
          match ← Procedure.perform (Op.withConnection conn) with
          | some err => do
              let closeErr ← Procedure.perform (Op.closeConn conn)
              return some (.wrap (err.joined closeErr)
                ("create " ++ package.name ++ " migration driver"))
          | none => do
              let runErr ← run conn
              let closeErr ← closeDriver conn
              return wrapError (joinErrors runErr closeErr)
                ("run " ++ package.name ++ " migrations")

/-- `db.MigrateUp`, `db.MigrateDown` or `db.MigrateForce` on the driver of a connection. -/
def runMigration (migration : Migration) (conn : Nat) : Action (Option Error) :=
  Procedure.perform (Op.migrate conn migration)

/-- `MigrateUp`, `MigrateDown` and `MigrateForce`, of which the second checks its argument. -/
def migrate (package : Package) (sqlDB : Option Nat) (migration : Migration) :
    Action (Option Error) :=
  match migration.job with
  | .down steps =>
      if steps ≤ 0 then
        return some (.wrap .invalidArgument "migration steps must be greater than zero")
      else
        withMigrationDriver package sqlDB (runMigration migration)
  | _ => withMigrationDriver package sqlDB (runMigration migration)

end CommonGo.Sql

namespace CommonGo.MySql

open Go Sql

/-- The name that the engine is given for the database. -/
def driverName : Bytes := ascii "mysql"

/-- `MigrateUp`. -/
def migrateUp (sqlDB : Option Nat) (path : Bytes) (fs : Option FS) : Action (Option Sql.Error) :=
  migrate .mysql sqlDB ⟨driverName, path, fs, .up⟩

/-- `MigrateDown`. -/
def migrateDown (sqlDB : Option Nat) (path : Bytes) (steps : Int) (fs : Option FS) :
    Action (Option Sql.Error) :=
  migrate .mysql sqlDB ⟨driverName, path, fs, .down steps⟩

/-- `MigrateForce`. -/
def migrateForce (sqlDB : Option Nat) (path : Bytes) (version : Int) (fs : Option FS) :
    Action (Option Sql.Error) :=
  migrate .mysql sqlDB ⟨driverName, path, fs, .force version⟩

end CommonGo.MySql

namespace CommonGo.Postgres

open Go Sql

/-- `Postgresql`, with the pool that it holds. -/
structure Postgresql where
  /-- The pool, unless it has been closed. -/
  sqlDB : Option Nat
  /-- The configuration. -/
  config : Config
  deriving DecidableEq, Repr

/-- The pool of a receiver that may be nil. -/
def Postgresql.pool (p : Option Postgresql) : Option Nat := p.bind Postgresql.sqlDB

/-- The name of the database of a receiver that may be nil. -/
def Postgresql.databaseName (p : Option Postgresql) : Bytes :=
  (p.map fun p => p.config.database).getD []

/-- `Postgresql.MigrateUp`. -/
def Postgresql.migrateUp (p : Option Postgresql) (path : Bytes) (fs : Option FS) :
    Action (Option Sql.Error) :=
  migrate .postgresql (pool p) ⟨databaseName p, path, fs, .up⟩

/-- `Postgresql.MigrateDown`. -/
def Postgresql.migrateDown (p : Option Postgresql) (path : Bytes) (steps : Int)
    (fs : Option FS) : Action (Option Sql.Error) :=
  migrate .postgresql (pool p) ⟨databaseName p, path, fs, .down steps⟩

/-- `Postgresql.MigrateForce`. -/
def Postgresql.migrateForce (p : Option Postgresql) (path : Bytes) (version : Int)
    (fs : Option FS) : Action (Option Sql.Error) :=
  migrate .postgresql (pool p) ⟨databaseName p, path, fs, .force version⟩

end CommonGo.Postgres

namespace CommonGo.Sql

open Go Program

/-! ## The connection comes back -/

/-- Between two states no pool was opened or closed, and the connections that were reserved were
released, once each. -/
structure Balanced (before after : State) : Prop where
  /-- The same connections are reserved. -/
  conns : after.conns = before.conns
  /-- No pool was opened. -/
  opened : after.opened = before.opened
  /-- The same pools are open. -/
  pools : after.pools = before.pools
  /-- No pool was closed. -/
  closed : after.closed = before.closed
  /-- Connections are numbered in the order of their reservations. -/
  reserved_le : before.reserved ≤ after.reserved
  /-- All that were reserved in between were released, in that order. -/
  released : after.released =
    before.released ++ List.range' before.reserved (after.reserved - before.reserved)

/-- A call leaves everything balanced, and returns nil exactly if none of its operations failed. -/
structure GivesBack (before : State) (result : Option Error) (after : State) : Prop
    extends Balanced before after where
  /-- The result is nil exactly if nothing failed. -/
  nil_iff : result = none ↔ after.failures = before.failures

theorem Balanced.refl (s : State) : Balanced s s :=
  ⟨rfl, rfl, rfl, rfl, Nat.le_refl _, by simp⟩

theorem Balanced.trans {before middle after : State} (first : Balanced before middle)
    (second : Balanced middle after) : Balanced before after where
  conns := second.conns.trans first.conns
  opened := second.opened.trans first.opened
  pools := second.pools.trans first.pools
  closed := second.closed.trans first.closed
  reserved_le := Nat.le_trans first.reserved_le second.reserved_le
  released := by
    have start : before.reserved + 1 * (middle.reserved - before.reserved) = middle.reserved := by
      have := first.reserved_le
      omega
    have count : after.reserved - before.reserved =
        (middle.reserved - before.reserved) + (after.reserved - middle.reserved) := by
      have := first.reserved_le
      have := second.reserved_le
      omega
    rw [second.released, first.released, List.append_assoc, count, ← List.range'_append, start]

@[simp] theorem failures_finish (s : State) (op : Op) (err : Option Error) :
    (s.finish op err).failures = s.failures ++ (if err.isSome then [op] else []) := by
  cases err <;> simp [State.finish]

@[simp] theorem failures_addConn (s : State) : s.addConn.failures = s.failures := rfl

@[simp] theorem failures_dropConn (s : State) (conn : Nat) :
    (s.dropConn conn).failures = s.failures := rfl

theorem failures_two_iff (failures : List Op) (first second : Option Error) (op next : Op) :
    failures ++ (if first.isSome then [op] else []) ++ (if second.isSome then [next] else []) =
      failures ↔ first = none ∧ second = none := by
  cases first <;> cases second <;> simp

/-- No connection is reserved. -/
theorem givesBack_unreserved (s : State) (op : Op) (err wrapped : Error) :
    GivesBack s (some wrapped) (s.finish op (some err)) where
  conns := rfl
  opened := rfl
  pools := rfl
  closed := rfl
  reserved_le := Nat.le_refl _
  released := by simp [State.finish]
  nil_iff := by simp

/-- A connection is reserved, used, and released. -/
theorem givesBack_released {s after : State} {result : Option Error} (used : State)
    (reserved : used.reserved = s.reserved + 1 ∧ used.conns = insert s.reserved s.conns)
    (same : used.opened = s.opened ∧ used.pools = s.pools ∧ used.closed = s.closed ∧
      used.released = s.released)
    (dropped : after.reserved = used.reserved ∧ after.conns = used.conns.erase s.reserved ∧
      after.released = used.released ++ [s.reserved])
    (kept : after.opened = used.opened ∧ after.pools = used.pools ∧ after.closed = used.closed)
    (nil_iff : result = none ↔ after.failures = s.failures) :
    GivesBack s result after where
  conns := by
    have fresh : s.reserved ∉ s.conns := fun member =>
      Nat.lt_irrefl _ (s.conns_lt _ member)
    rw [dropped.2.1, reserved.2, Finset.erase_insert fresh]
  opened := kept.1.trans same.1
  pools := kept.2.1.trans same.2.1
  closed := kept.2.2.trans same.2.2.1
  reserved_le := by
    rw [dropped.1, reserved.1]
    exact Nat.le_succ _
  released := by
    rw [dropped.2.2, same.2.2.2, dropped.1, reserved.1, Nat.add_sub_cancel_left]
    rfl
  nil_iff := nil_iff

theorem withMigrationDriver_givesBack (world : World) (package : Package) (pool : Nat)
    (migration : Migration) (s : State) :
    GivesBack s
      ((withMigrationDriver package (some pool) (runMigration migration)).run (perform world) s).1
      ((withMigrationDriver package (some pool) (runMigration migration)).run (perform world) s).2
      := by
  simp only [withMigrationDriver, Procedure.perform_bind, Procedure.run_call, perform]
  cases reserving : world.next s with
  | some err => exact givesBack_unreserved s _ _ _
  | none =>
      simp only [Procedure.run_call, perform]
      cases creating : world.next (s.addConn.finish (.reserve pool) none) with
      | some err =>
          refine givesBack_released
            ((s.addConn.finish (.reserve pool) none).finish (.withConnection s.reserved) (some err))
            ⟨rfl, rfl⟩ ⟨rfl, rfl, rfl, rfl⟩ ⟨rfl, rfl, rfl⟩ ⟨rfl, rfl, rfl⟩ ?_
          simp [perform]
      | none =>
          let ready :=
            (s.addConn.finish (.reserve pool) none).finish (.withConnection s.reserved) none
          let runErr := (world.migration ready.clock).map Error.migration
          let ran := ready.finish (.migrate s.reserved migration) runErr
          refine givesBack_released ran
            ⟨rfl, rfl⟩ ⟨rfl, rfl, rfl, rfl⟩ ⟨rfl, rfl, rfl⟩ ⟨rfl, rfl, rfl⟩ ?_
          change wrapError (joinErrors runErr ((world.next ran).map Error.close)) _ = none ↔
            ((ran.dropConn s.reserved).finish (.closeConn s.reserved) (world.next ran)).failures =
              s.failures
          have unchanged : ready.failures = s.failures := by simp [ready]
          have closing : (world.next ran).map Error.close = none ↔ world.next ran = none :=
            Option.map_eq_none_iff
          rw [wrapError_eq_none, joinErrors_eq_none, closing, failures_finish, failures_dropConn,
            failures_finish, unchanged, failures_two_iff]

/-! ## Sequences of calls -/

/-- A call of a standalone function of the MySQL package, or of a method of a PostgreSQL value, on
a pool that is not nil. -/
inductive Call where
  | mysql (pool : Nat) (path : Bytes) (fs : Option FS) (job : Job)
  | postgresql (pool : Nat) (config : Postgres.Config) (path : Bytes) (fs : Option FS) (job : Job)
  deriving DecidableEq, Repr

namespace Call

/-- The package that is called. -/
def package : Call → Package
  | mysql _ _ _ _ => .mysql
  | postgresql _ _ _ _ _ => .postgresql

/-- The pool of the receiver. -/
def pool : Call → Nat
  | mysql pool _ _ _ => pool
  | postgresql pool _ _ _ _ => pool

/-- What the engine is asked for. -/
def migration : Call → Migration
  | mysql _ path fs job => ⟨MySql.driverName, path, fs, job⟩
  | postgresql _ config path fs job => ⟨config.database, path, fs, job⟩

/-- The number of migrations to revert, if it is asked for, is positive. -/
def Positive (call : Call) : Prop := ∀ steps, call.migration.job = .down steps → 0 < steps

/-- The method that is called. -/
def action : Call → Action (Option Error)
  | mysql pool path fs .up => MySql.migrateUp (some pool) path fs
  | mysql pool path fs (.down steps) => MySql.migrateDown (some pool) path steps fs
  | mysql pool path fs (.force version) => MySql.migrateForce (some pool) path version fs
  | postgresql pool config path fs .up =>
      Postgres.Postgresql.migrateUp (some ⟨some pool, config⟩) path fs
  | postgresql pool config path fs (.down steps) =>
      Postgres.Postgresql.migrateDown (some ⟨some pool, config⟩) path steps fs
  | postgresql pool config path fs (.force version) =>
      Postgres.Postgresql.migrateForce (some ⟨some pool, config⟩) path version fs

theorem action_eq (call : Call) :
    call.action = migrate call.package (some call.pool) call.migration := by
  cases call with
  | mysql pool path fs job => cases job <;> rfl
  | postgresql pool config path fs job => cases job <;> rfl

/-- What a call returns, and the state after it. -/
def run (world : World) (call : Call) (s : State) : Option Error × State :=
  call.action.run (perform world) s

end Call

/-- The state after a sequence of calls. -/
def runAll (world : World) (calls : List Call) (s : State) : State :=
  calls.foldl (fun s call => (call.run world s).2) s

theorem migrate_givesBack (world : World) (package : Package) (pool : Nat) (migration : Migration)
    (positive : ∀ steps, migration.job = .down steps → 0 < steps) (s : State) :
    GivesBack s ((migrate package (some pool) migration).run (perform world) s).1
      ((migrate package (some pool) migration).run (perform world) s).2 := by
  have driven := withMigrationDriver_givesBack world package pool migration s
  obtain ⟨databaseName, path, fs, job⟩ := migration
  cases job with
  | up => exact driven
  | down steps =>
      have enough : ¬ steps ≤ 0 := Int.not_le.mpr (positive steps rfl)
      simp only [migrate, if_neg enough]
      exact driven
  | force version => exact driven

/-- Also a call with a number of steps that is not positive leaves everything balanced. -/
theorem migrate_balanced (world : World) (package : Package) (pool : Nat) (migration : Migration)
    (s : State) :
    Balanced s ((migrate package (some pool) migration).run (perform world) s).2 := by
  have driven := (withMigrationDriver_givesBack world package pool migration s).toBalanced
  obtain ⟨databaseName, path, fs, job⟩ := migration
  cases job with
  | up => exact driven
  | down steps =>
      simp only [migrate]
      split_ifs with few
      · exact Balanced.refl s
      · exact driven
  | force version => exact driven

theorem Call.givesBack (world : World) {call : Call} (positive : call.Positive) (s : State) :
    GivesBack s (call.run world s).1 (call.run world s).2 := by
  rw [Call.run, Call.action_eq]
  exact migrate_givesBack world _ _ _ positive s

theorem runAll_append (world : World) (front back : List Call) (s : State) :
    runAll world (front ++ back) s = runAll world back (runAll world front s) :=
  List.foldl_append

theorem runAll_balanced (world : World) (calls : List Call)
    (positive : ∀ call ∈ calls, call.Positive) (s : State) :
    Balanced s (runAll world calls s) := by
  induction calls generalizing s with
  | nil => exact Balanced.refl s
  | cons call calls ih =>
      have first := (Call.givesBack world (positive call List.mem_cons_self) s).toBalanced
      exact first.trans (ih (fun later member => positive later (List.mem_cons_of_mem _ member)) _)

/-- In every sequence of calls, with any failures: every call leaves the reserved connections and
the open pools as they were, closes no pool, releases each connection that it reserved once, and
returns nil exactly if none of its operations failed; and so does the whole sequence. -/
theorem runAll_givesBack (world : World) (start : State) {calls : List Call}
    (positive : ∀ call ∈ calls, call.Positive) :
    Balanced start (runAll world calls start) ∧
      ∀ front call back, calls = front ++ call :: back →
        GivesBack (runAll world front start) (call.run world (runAll world front start)).1
          (runAll world (front ++ [call]) start) := by
  refine ⟨runAll_balanced world calls positive start, ?_⟩
  rintro front call back rfl
  rw [runAll_append]
  exact Call.givesBack world (positive call (by simp)) _

/-- A migration whose driver cannot be created, and one that succeeds. -/
theorem givesBack_two_calls :
    (∀ call ∈ [Call.mysql 0 (ascii "m") none .up, Call.mysql 0 (ascii "m") none (.down 1)],
      call.Positive) ∧
    Balanced State.start.addPool
      (runAll ⟨fun n => if n = 1 then some (ascii "refused") else none, fun _ => none,
        fun _ => false⟩ [.mysql 0 (ascii "m") none .up, .mysql 0 (ascii "m") none (.down 1)]
        State.start.addPool) := by
  have positive : ∀ call ∈ [Call.mysql 0 (ascii "m") none .up,
      Call.mysql 0 (ascii "m") none (.down 1)], call.Positive := by
    intro call member steps asked
    simp only [List.mem_cons, List.not_mem_nil, or_false] at member
    rcases member with rfl | rfl
    · cases asked
    · cases asked
      decide
  exact ⟨positive, (runAll_givesBack _ _ positive).1⟩

end CommonGo.Sql
