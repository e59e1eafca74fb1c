import Mathlib.Data.Finset.Union
import CommonGo.Migrate.Source
import CommonGo.Postgres.Dsn
import CommonGo.Program.Procedure

/-!
# Pools and connections of `database/sql`

The operations that the MySQL and PostgreSQL packages perform: opening, checking and closing pools,
reserving connections, and the calls of the drivers.  Each operation may fail, in any combination;
the state says which pools are open and which connections are reserved, and what was closed and
released so far.
-/

namespace CommonGo.Sql

open Go Program

/-! ## Errors -/

/-- The errors that the packages tell apart. -/
inductive Error where
  /-- `commerr.ErrRequiredFieldNotSet`. -/
  | requiredFieldNotSet
  /-- `commerr.ErrInvalidArgument`. -/
  | invalidArgument
  /-- What the validation of a PostgreSQL configuration returns. -/
  | config (err : CommonGo.Error Postgres.ConfigError)
  /-- The error of a driver, with its text. -/
  | driver (text : Bytes)
  /-- The error of a migration. -/
  | migration (err : Migrate.Error)
  /-- `conn: %v, db: %v`, which does not unwrap. -/
  | close (conn : Error)
  /-- `ctxerrors.Wrap`. -/
  | wrap (inner : Error) (message : String)
  /-- `errors.Join` of two errors. -/
  | join (first second : Error)
  deriving DecidableEq, Repr

/-- `errors.Join` of an error and one that may be nil.  A join of one error is that error. -/
def Error.joined (err : Error) : Option Error → Error
  | none => err
  | some second => .join err second

/-- `errors.Join` of two errors that may be nil. -/
def joinErrors : Option Error → Option Error → Option Error
  | none, second => second
  | some first, second => some (first.joined second)

@[simp] theorem joinErrors_eq_none (first second : Option Error) :
    joinErrors first second = none ↔ first = none ∧ second = none := by
  cases first <;> simp [joinErrors]

/-- `ctxerrors.Wrap`, which leaves nil as it is. -/
def wrapError (err : Option Error) (message : String) : Option Error :=
  err.map (.wrap · message)

@[simp] theorem wrapError_eq_none (err : Option Error) (message : String) :
    wrapError err message = none ↔ err = none :=
  Option.map_eq_none_iff

/-! ## Operations -/

/-- The files of an embedded filesystem. -/
abbrev FS := List (Bytes × Bytes)

/-- Which of `db.MigrateUp`, `db.MigrateDown` and `db.MigrateForce`. -/
inductive Job where
  | up
  | down (steps : Int)
  | force (version : Int)
  deriving DecidableEq, Repr

/-- A call of one of these. -/
structure Migration where
  /-- The name that the engine is given for the database. -/
  databaseName : Bytes
  /-- The directory of the migrations. -/
  path : Bytes
  /-- The file system they are in, if one is given. -/
  fs : Option FS
  /-- What is to be done. -/
  job : Job
  deriving DecidableEq, Repr

/-- The configuration that the MySQL driver is given. -/
structure ConnectorConfig where
  /-- The address of the server. -/
  addr : Bytes
  /-- The user. -/
  user : Bytes
  /-- The password. -/
  passwd : Bytes
  /-- The database, or none. -/
  dbName : Bytes
  /-- Whether a query may have several statements. -/
  multiStatements : Bool
  /-- Whether the connection is encrypted. -/
  tls : Bool
  deriving DecidableEq, Repr

/-- What the packages do outside themselves. -/
inductive Op where
  /-- `mysqldriver.NewConnector`. -/
  | newConnector (config : ConnectorConfig)
  /-- `sql.OpenDB`. -/
  | openDB
  /-- `sql.Open`. -/
  | sqlOpen (dsn : Bytes)
  | ping (pool : Nat)
  /-- The pause of `backoff.Retry`, which may end with a reason to stop. -/
  | wait
  | exec (pool : Nat) (query : Bytes)
  /-- The query for the existence of a database. -/
  | queryExists (pool : Nat) (name : Bytes)
  /-- `Initialize` of a dialect of gorm. -/
  | initDialect (pool : Nat)
  | closePool (pool : Nat)
  /-- `DB.Conn`. -/
  | reserve (pool : Nat)
  /-- `WithConnection` of a migration driver. -/
  | withConnection (conn : Nat)
  /-- A call of `db.Migrate…` on the driver of a connection. -/
  | migrate (conn : Nat) (migration : Migration)
  | closeConn (conn : Nat)
  deriving DecidableEq, Repr

/-- What an operation returns. -/
abbrev Op.Reply : Op → Type
  | openDB => Nat
  | sqlOpen _ => Except Error Nat
  | reserve _ => Except Error Nat
  | queryExists _ _ => Except Error Bool
  | _ => Option Error

/-- A function of the packages. -/
abbrev Action := Procedure Op Op.Reply

/-! ## What the packages call -/

/-- `backoff.Retry`, where so many attempts after the first fit in the elapsed time. -/
def retry {α : Type} (attempt : Action (Except Error α)) : Nat → Action (Except Error α)
  | 0 => do
      match ← attempt with
      | .ok a => return .ok a
      | .error err =>
          match ← Procedure.perform Op.wait with
          | some cause => return .error cause
          | none => return .error err
  | retries + 1 => do
      match ← attempt with
      | .ok a => return .ok a
      | .error _ =>
          match ← Procedure.perform Op.wait with
          | some cause => return .error cause
          | none => retry attempt retries

/-- `gorm.Open` on a pool: a dialect that fails to initialize has the pool closed, and a failed
ping has not. -/
def gormOpen (pool : Nat) : Action (Option Error) := do
  match ← Procedure.perform (Op.initDialect pool) with
  | some err => do
      let _ ← Procedure.perform (Op.closePool pool)
      return some err
  | none => Procedure.perform (Op.ping pool)

/-- `Close` of a migration driver made of a connection. -/
def closeDriver (conn : Nat) : Action (Option Error) := do
  return (← Procedure.perform (Op.closeConn conn)).map .close

/-! ## The state -/

/-- Which pools are open and which connections are reserved.  Both are numbered in the order in
which they were made. -/
structure State where
  /-- The number of operations so far. -/
  clock : Nat
  /-- The number of pools opened so far. -/
  opened : Nat
  /-- The pools that are open. -/
  pools : Finset Nat
  /-- Open pools were opened. -/
  pools_lt : ∀ pool ∈ pools, pool < opened
  /-- The closes of pools so far. -/
  closed : List Nat
  /-- The number of connections reserved so far. -/
  reserved : Nat
  /-- The connections that are reserved. -/
  conns : Finset Nat
  /-- Reserved connections were reserved. -/
  conns_lt : ∀ conn ∈ conns, conn < reserved
  /-- The releases of connections so far. -/
  released : List Nat
  /-- The operations that failed so far. -/
  failures : List Op

namespace State

/-- Nothing has been opened. -/
def start : State := ⟨0, 0, ∅, by simp, [], 0, ∅, by simp, [], []⟩

/-- An operation is over, with an error or not. -/
def finish (s : State) (op : Op) (err : Option Error) : State :=
  { s with
    clock := s.clock + 1
    failures := if err.isSome then s.failures ++ [op] else s.failures }

/-- The pause between two attempts is over. -/
def pause (s : State) : State := { s with clock := s.clock + 1 }

/-- A pool is opened. -/
def addPool (s : State) : State :=
  { s with
    opened := s.opened + 1
    pools := insert s.opened s.pools
    pools_lt := by
      intro pool member
      rcases Finset.mem_insert.mp member with rfl | older
      · exact Nat.lt_succ_self _
      · exact Nat.lt_succ_of_lt (s.pools_lt pool older) }

/-- A pool is closed. -/
def dropPool (s : State) (pool : Nat) : State :=
  { s with
    pools := s.pools.erase pool
    pools_lt := fun other member => s.pools_lt other (Finset.mem_of_mem_erase member)
    closed := s.closed ++ [pool] }

/-- A connection is reserved. -/
def addConn (s : State) : State :=
  { s with
    reserved := s.reserved + 1
    conns := insert s.reserved s.conns
    conns_lt := by
      intro conn member
      rcases Finset.mem_insert.mp member with rfl | older
      · exact Nat.lt_succ_self _
      · exact Nat.lt_succ_of_lt (s.conns_lt conn older) }

/-- A connection is released. -/
def dropConn (s : State) (conn : Nat) : State :=
  { s with
    conns := s.conns.erase conn
    conns_lt := fun other member => s.conns_lt other (Finset.mem_of_mem_erase member)
    released := s.released ++ [conn] }

end State

/-- How every operation ends, in any combination. -/
structure World where
  /-- The text of the error that an operation ends with, or none. -/
  error : Nat → Option Bytes
  /-- The result of a migration. -/
  migration : Nat → Option Migrate.Error
  /-- The answer to the query for a database. -/
  found : Nat → Bool

/-- The error that the next operation of a driver ends with. -/
def World.next (world : World) (s : State) : Option Error := (world.error s.clock).map .driver

/-- The performance of an operation. -/
def perform (world : World) : Handler Op Op.Reply State
  | .openDB, s => (s.opened, s.addPool.finish .openDB none)
  | .sqlOpen dsn, s =>
      match world.next s with
      | some err => (.error err, s.finish (.sqlOpen dsn) (some err))
      | none => (.ok s.opened, s.addPool.finish (.sqlOpen dsn) none)
  | .reserve pool, s =>
      match world.next s with
      | some err => (.error err, s.finish (.reserve pool) (some err))
      | none => (.ok s.reserved, s.addConn.finish (.reserve pool) none)
  | .queryExists pool name, s =>
      match world.next s with
      | some err => (.error err, s.finish (.queryExists pool name) (some err))
      | none => (.ok (world.found s.clock), s.finish (.queryExists pool name) none)
  | .migrate conn migration, s =>
      ((world.migration s.clock).map .migration,
        s.finish (.migrate conn migration) ((world.migration s.clock).map .migration))
  -- A pool is closed and a connection is given back also where this ends with an error.
  | .closePool pool, s =>
      (world.next s, (s.dropPool pool).finish (.closePool pool) (world.next s))
  | .closeConn conn, s =>
      (world.next s, (s.dropConn conn).finish (.closeConn conn) (world.next s))
  | .wait, s => (world.next s, s.pause)
  | .newConnector config, s => (world.next s, s.finish (.newConnector config) (world.next s))
  | .ping pool, s => (world.next s, s.finish (.ping pool) (world.next s))
  | .exec pool query, s => (world.next s, s.finish (.exec pool query) (world.next s))
  | .initDialect pool, s => (world.next s, s.finish (.initDialect pool) (world.next s))
  | .withConnection conn, s => (world.next s, s.finish (.withConnection conn) (world.next s))

/-! ## Pools that are left open -/

/-- Since an earlier state, only pools opened since then were closed, and of these some are still
open. -/
structure Leaves (before s : State) (held : Finset Nat) : Prop where
  /-- The pools that are open are those from before and those held. -/
  pools : s.pools = before.pools ∪ held
  /-- The pools held were opened since. -/
  held_ge : ∀ pool ∈ held, before.opened ≤ pool
  /-- Pools are numbered in the order in which they are opened. -/
  opened_le : before.opened ≤ s.opened
  /-- Only pools opened since were closed. -/
  closed : ∃ more, s.closed = before.closed ++ more ∧ ∀ pool ∈ more, before.opened ≤ pool

namespace Leaves

variable {before s : State} {held : Finset Nat}

theorem refl (s : State) : Leaves s s ∅ :=
  ⟨(Finset.union_empty _).symm, by simp, Nat.le_refl _, [], (List.append_nil _).symm, by simp⟩

theorem finish (leaves : Leaves before s held) (op : Op) (err : Option Error) :
    Leaves before (s.finish op err) held :=
  ⟨leaves.pools, leaves.held_ge, leaves.opened_le, leaves.closed⟩

theorem pause (leaves : Leaves before s held) : Leaves before s.pause held :=
  ⟨leaves.pools, leaves.held_ge, leaves.opened_le, leaves.closed⟩

theorem addPool (leaves : Leaves before s held) :
    Leaves before s.addPool (insert s.opened held) where
  pools := by
    change insert s.opened s.pools = _
    rw [leaves.pools, Finset.union_insert]
  held_ge := by
    intro pool member
    rcases Finset.mem_insert.mp member with rfl | older
    · exact leaves.opened_le
    · exact leaves.held_ge pool older
  opened_le := Nat.le_succ_of_le leaves.opened_le
  closed := leaves.closed

/-- A pool that is held was not open before. -/
theorem notMem_before {pool : Nat} (leaves : Leaves before s held) (member : pool ∈ held) :
    pool ∉ before.pools := by
  intro older
  exact Nat.lt_irrefl _ (Nat.lt_of_lt_of_le (before.pools_lt pool older)
    (leaves.held_ge pool member))

/-- The next pool is none of those that are held. -/
theorem opened_notMem (leaves : Leaves before s held) : s.opened ∉ held := by
  intro member
  have open_now : s.opened ∈ s.pools := by
    rw [leaves.pools]
    exact Finset.mem_union_right _ member
  exact Nat.lt_irrefl _ (s.pools_lt _ open_now)

theorem dropPool (leaves : Leaves before s held) {pool : Nat} (new : before.opened ≤ pool) :
    Leaves before (s.dropPool pool) (held.erase pool) where
  pools := by
    have older : pool ∉ before.pools := fun member =>
      Nat.lt_irrefl _ (Nat.lt_of_lt_of_le (before.pools_lt pool member) new)
    change s.pools.erase pool = _
    rw [leaves.pools, Finset.erase_union_distrib, Finset.erase_eq_of_notMem older]
  held_ge := fun other member => leaves.held_ge other (Finset.mem_of_mem_erase member)
  opened_le := leaves.opened_le
  closed := by
    obtain ⟨more, closed, all_new⟩ := leaves.closed
    refine ⟨more ++ [pool], ?_, ?_⟩
    · change s.closed ++ [pool] = _
      rw [closed, List.append_assoc]
    · intro other member
      rcases List.mem_append.mp member with earlier | last
      · exact all_new other earlier
      · rw [List.mem_singleton.mp last]
        exact new

end Leaves

/-! ## The rule of retries -/

/-- What an attempt keeps while it fails, and the pauses keep, holds until an attempt succeeds or
there are no more. -/
theorem retry_wp {α : Type} {world : World} {attempt : Action (Except Error α)}
    {during : State → Prop} {post : Except Error α → State → Prop}
    (attempts : ∀ s, during s → attempt.wp (perform world) (fun _ => True) (fun result after =>
      (∀ a, result = .ok a → post (.ok a) after) ∧ (∀ err, result = .error err → during after)) s)
    (pauses : ∀ s, during s → during s.pause)
    (gives_up : ∀ s err, during s → post (.error err) s) (retries : Nat) {s : State}
    (holds : during s) :
    (retry attempt retries).wp (perform world) (fun _ => True) post s := by
  induction retries generalizing s with
  | zero =>
      refine Procedure.wp_bind attempt (Procedure.wp_mono (attempts s holds) ?_)
      rintro (err | a) after - ⟨succeeds, fails⟩
      · simp only [Procedure.perform_bind, Procedure.wp_call, true_and, perform]
        cases world.next after with
        | none => exact ⟨True.intro, gives_up _ _ (pauses _ (fails err rfl))⟩
        | some cause => exact ⟨True.intro, gives_up _ _ (pauses _ (fails err rfl))⟩
      · exact ⟨True.intro, succeeds a rfl⟩
  | succ retries ih =>
      refine Procedure.wp_bind attempt (Procedure.wp_mono (attempts s holds) ?_)
      rintro (err | a) after - ⟨succeeds, fails⟩
      · simp only [Procedure.perform_bind, Procedure.wp_call, true_and, perform]
        cases world.next after with
        | none => exact ih (pauses _ (fails err rfl))
        | some cause => exact ⟨True.intro, gives_up _ _ (pauses _ (fails err rfl))⟩
      · exact ⟨True.intro, succeeds a rfl⟩

/-- A constructor adds the pool that it returns to the open ones, and nothing if it fails. -/
def AddsExactly (before : State) : Except Error (Option Nat) → State → Prop
  | .ok (some pool), after => pool ∉ before.pools ∧ after.pools = insert pool before.pools
  | .ok none, _ => False
  | .error _, after => after.pools = before.pools

end CommonGo.Sql
