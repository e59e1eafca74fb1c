import CommonGo.Go.Strconv
import CommonGo.Go.Strings
import CommonGo.Sql.Migrations

/-!
# The pools of the MySQL package

The constructors and the migration methods of the MySQL package open pools for the application, for
the creation of the database and for migrations.  Whatever fails, the only pool that stays open is
the one of the value that a constructor returns.
-/

namespace CommonGo.MySql

open Go Program Sql

/-! ## Configuration -/

/-- `Config`. -/
structure Config where
  /-- The host. -/
  hostname : Bytes
  /-- The port. -/
  port : Int
  /-- The user. -/
  username : Bytes
  /-- The password. -/
  password : Bytes
  /-- The database. -/
  database : Bytes
  /-- Whether the connection is encrypted. -/
  isSSL : Bool
  deriving DecidableEq, Repr

/-- `maxPort`. -/
def maxPort : Int := 65535

/-- `maxDatabaseNameCharacters`. -/
def maxDatabaseNameCharacters : Nat := 64

/-- `Config.validate`. -/
def Config.validate (c : Config) : Option Sql.Error :=
  if trimSpace c.hostname = [] ∨ c.username = [] ∨ c.database = [] then
    some (.wrap .requiredFieldNotSet "MySQL hostname, username and database are required")
  else if c.port < 1 ∨ maxPort < c.port then
    some (.wrap .invalidArgument "MySQL port must be between 1 and 65535")
  else if 0 ∈ c.database ∨ maxDatabaseNameCharacters < runeCount c.database then
    some (.wrap .invalidArgument
      "MySQL database name must contain at most 64 characters and no NUL")
  else none

/-- `net.JoinHostPort`, which brackets a host with a colon. -/
def joinHostPort (host port : Bytes) : Bytes :=
  if 0x3A ∈ host then ascii "[" ++ host ++ ascii "]:" ++ port else host ++ ascii ":" ++ port

/-- `driverConfig`. -/
def driverConfig (cfg : Config) (database : Bytes) (multiStatements : Bool) : ConnectorConfig where
  addr := joinHostPort cfg.hostname (formatInt cfg.port)
  user := cfg.username
  passwd := cfg.password
  dbName := database
  multiStatements := multiStatements
  tls := cfg.isSSL

/-- The statement that creates the database, its name quoted. -/
def createQuery (cfg : Config) : Bytes :=
  ascii "CREATE DATABASE IF NOT EXISTS " ++
    (0x60 :: cfg.database.flatMap fun b => if b = 0x60 then [b, b] else [b]) ++ [0x60]

/-! ## Constructors -/

/-- `Mysql`, with the pool that it holds. -/
structure Mysql where
  /-- The pool, unless it has been closed. -/
  sqlDB : Option Nat
  /-- The configuration. -/
  config : Config
  deriving DecidableEq, Repr

/-- One attempt to reach the server. -/
def pingMySQL (sqlDB : Nat) : Action (Except Sql.Error Unit) := do
  match ← Procedure.perform (Op.ping sqlDB) with
  | some err => return .error (.wrap err "ping MySQL")
  | none => return .ok ()

/-- `connect`. -/
def connect (retries : Nat) (cfg : Config) (database : Bytes) :
    Action (Except Sql.Error Nat) := do
  match ← Procedure.perform (Op.newConnector (driverConfig cfg database false)) with
  | some err => return .error (.wrap err "configure MySQL connector")
  | none => do
      let sqlDB ← Procedure.perform Op.openDB
      match ← retry (pingMySQL sqlDB) retries with
      | .error err => do
          let closeErr ← Procedure.perform (Op.closePool sqlDB)
          return .error (.wrap (err.joined closeErr) "connect MySQL pool")
      | .ok _ => return .ok sqlDB

/-- `ensureDatabaseExists`. -/
def ensureDatabaseExists (retries : Nat) (cfg : Config) : Action (Option Sql.Error) := do
  match ← connect retries cfg [] with
  | .error err => return some (.wrap err "connect MySQL server for database creation")
  | .ok sqlDB => do
      let executionErr ← Procedure.perform (Op.exec sqlDB (createQuery cfg))
      let closeErr ← Procedure.perform (Op.closePool sqlDB)
      return wrapError (joinErrors executionErr closeErr) "create MySQL database"

/-- `NewWithConfig`, from where the database is there. -/
def openDatabase (retries : Nat) (cfg : Config) : Action (Except Sql.Error Mysql) := do
  match ← connect retries cfg cfg.database with
  | .error err => return .error (.wrap err "connect MySQL")
  | .ok sqlDB => do
      match ← gormOpen sqlDB with
      | some err => do
          let closeErr ← Procedure.perform (Op.closePool sqlDB)
          return .error (.wrap (err.joined closeErr) "open MySQL GORM connection")
      | none => return .ok ⟨some sqlDB, cfg⟩

/-- `NewWithConfig`, with the retries that fit in the time of either connection. -/
def newWithConfig (ensureRetries retries : Nat) (cfg : Config) (ensureDBExists : Bool) :
    Action (Except Sql.Error Mysql) := do
  match cfg.validate with
  | some err => return .error (.wrap err "validate MySQL config")
  | none =>
      if ensureDBExists then
        match ← ensureDatabaseExists ensureRetries cfg with
        | some err => return .error (.wrap err "ensure MySQL database exists")
        | none => openDatabase retries cfg
      else openDatabase retries cfg

/-! ## Migration methods -/

/-- `withMigrationPool`, from where the receiver has a pool. -/
def withOpenPool (config : Config) (sqlDB : Nat) (run : Nat → Action (Option Sql.Error)) :
    Action (Option Sql.Error) := do
  match ← Procedure.perform (Op.ping sqlDB) with
  | some err => return some (.wrap err "check MySQL connection before migrating")
  | none => do
      match ← Procedure.perform (Op.newConnector (driverConfig config config.database true)) with
      | some err => return some (.wrap err "configure MySQL migration pool")
      | none => do
          let pool ← Procedure.perform Op.openDB
          let runErr ← run pool
          let closeErr ← Procedure.perform (Op.closePool pool)
          return wrapError (joinErrors runErr closeErr) "close MySQL migration pool"

namespace Mysql

/-- `withMigrationPool`, on a receiver that may be nil. -/
def withMigrationPool (m : Option Mysql) (run : Nat → Action (Option Sql.Error)) :
    Action (Option Sql.Error) :=
  match m with
  | some ⟨some sqlDB, config⟩ => withOpenPool config sqlDB run
  | _ => return some (.wrap .requiredFieldNotSet "MySQL connection")

/-- `Mysql.MigrateUp`. -/
def migrateUp (m : Option Mysql) (path : Bytes) (fs : Option FS) : Action (Option Sql.Error) :=
  withMigrationPool m fun sqlDB => MySql.migrateUp (some sqlDB) path fs

/-- `Mysql.MigrateDown`. -/
def migrateDown (m : Option Mysql) (path : Bytes) (steps : Int) (fs : Option FS) :
    Action (Option Sql.Error) :=
  withMigrationPool m fun sqlDB => MySql.migrateDown (some sqlDB) path steps fs

/-- `Mysql.MigrateForce`. -/
def migrateForce (m : Option Mysql) (path : Bytes) (version : Int) (fs : Option FS) :
    Action (Option Sql.Error) :=
  withMigrationPool m fun sqlDB => MySql.migrateForce (some sqlDB) path version fs

/-- The migration method of a job. -/
def method (m : Option Mysql) (path : Bytes) (fs : Option FS) : Job → Action (Option Sql.Error)
  | .up => migrateUp m path fs
  | .down steps => migrateDown m path steps fs
  | .force version => migrateForce m path version fs

end Mysql

/-! ## What stays open -/

/-- A connection adds the pool that it returns to those that are held. -/
def Connected (before : State) (held : Finset Nat) : Except Sql.Error Nat → State → Prop
  | .ok pool, s => pool ∉ held ∧ Leaves before s (insert pool held)
  | .error _, s => Leaves before s held

variable {world : World} {before s : State} {held : Finset Nat}

/-- The pool of a connection is closed. -/
theorem Connected.close {pool : Nat} (connected : Connected before held (.ok pool) s)
    (err : Option Sql.Error) :
    Leaves before ((s.dropPool pool).finish (.closePool pool) err) held := by
  obtain ⟨new, leaves⟩ := connected
  have dropped := leaves.dropPool (leaves.held_ge _ (Finset.mem_insert_self _ _))
  rw [Finset.erase_insert new] at dropped
  exact dropped.finish _ _

theorem ping_leaves (pool retries : Nat) (leaves : Leaves before s held) :
    (retry (pingMySQL pool) retries).wp (perform world) (fun _ => True)
      (fun _ after => Leaves before after held) s := by
  refine @retry_wp Unit world (pingMySQL pool) (fun s => Leaves before s held) _ ?_
    (fun _ leaves => leaves.pause) (fun _ _ leaves => leaves) retries s leaves
  intro s leaves
  simp only [pingMySQL, Procedure.perform_bind, Procedure.wp_call, true_and, perform]
  have pinged := fun err => leaves.finish (.ping pool) err
  cases world.next s with
  | none => exact ⟨True.intro, fun _ _ => pinged none, fun _ _ => pinged none⟩
  | some err => exact ⟨True.intro, fun _ _ => pinged _, fun _ _ => pinged _⟩

theorem connect_leaves (retries : Nat) (cfg : Config) (database : Bytes)
    (leaves : Leaves before s held) :
    (connect retries cfg database).wp (perform world) (fun _ => True)
      (Connected before held) s := by
  simp only [connect, Procedure.perform_bind, Procedure.wp_call, true_and, perform]
  cases configuring : world.next s with
  | some err => exact ⟨True.intro, leaves.finish _ _⟩
  | none =>
      simp only [Procedure.wp_call, true_and, perform]
      have configured := leaves.finish (.newConnector (driverConfig cfg database false)) none
      refine Procedure.wp_bind _
        (Procedure.wp_mono (ping_leaves _ _ (configured.addPool.finish .openDB none)) ?_)
      rintro (err | -) after - opened
      · have connected : Connected before held (.ok s.opened) after :=
          ⟨configured.opened_notMem, opened⟩
        simp only [Procedure.wp_call, true_and, perform]
        exact ⟨True.intro, connected.close _⟩
      · exact ⟨True.intro, configured.opened_notMem, opened⟩

theorem ensureDatabaseExists_leaves (retries : Nat) (cfg : Config)
    (leaves : Leaves before s held) :
    (ensureDatabaseExists retries cfg).wp (perform world) (fun _ => True)
      (fun _ after => Leaves before after held) s := by
  refine Procedure.wp_bind _ (Procedure.wp_mono (connect_leaves retries cfg [] leaves) ?_)
  rintro (err | sqlDB) after - connected
  · exact ⟨True.intro, connected⟩
  · simp only [Procedure.perform_bind, Procedure.wp_call, true_and, perform]
    have executed : Connected before held (.ok sqlDB)
        (after.finish (.exec sqlDB (createQuery cfg)) (world.next after)) :=
      ⟨connected.1, connected.2.finish _ _⟩
    exact ⟨True.intro, executed.close _⟩

/-- What a constructor leaves open. -/
def Returned (before : State) : Except Sql.Error Mysql → State → Prop
  | .ok m, s => ∃ pool, m.sqlDB = some pool ∧ Leaves before s {pool}
  | .error _, s => Leaves before s ∅

/-- A pool that fails to open under gorm is closed already, or left to the caller. -/
theorem gormOpen_leaves {pool : Nat} (new : before.opened ≤ pool)
    (leaves : Leaves before s held) :
    (gormOpen pool).wp (perform world) (fun _ => True) (fun result after =>
      Leaves before after held ∨ result ≠ none ∧ Leaves before after (held.erase pool)) s := by
  simp only [gormOpen, Procedure.perform_bind, Procedure.wp_call, true_and, perform]
  cases world.next s with
  | some err =>
      simp only [Procedure.wp_call, true_and, perform]
      have initialised := leaves.finish (.initDialect pool) (some err)
      exact ⟨True.intro, Or.inr ⟨by simp, (initialised.dropPool new).finish _ _⟩⟩
  | none =>
      have initialised := leaves.finish (.initDialect pool) none
      exact ⟨True.intro, True.intro, Or.inl (initialised.finish _ _)⟩

theorem openDatabase_leaves (retries : Nat) (cfg : Config) (leaves : Leaves before s ∅) :
    (openDatabase retries cfg).wp (perform world) (fun _ => True) (Returned before) s := by
  refine Procedure.wp_bind _ (Procedure.wp_mono (connect_leaves retries cfg _ leaves) ?_)
  rintro (err | sqlDB) after - connected
  · exact ⟨True.intro, connected⟩
  have new : before.opened ≤ sqlDB := connected.2.held_ge sqlDB (Finset.mem_insert_self _ _)
  refine Procedure.wp_bind _ (Procedure.wp_mono (gormOpen_leaves new connected.2) ?_)
  rintro (_ | err) last - left
  · rcases left with kept | ⟨failed, _⟩
    · exact ⟨True.intro, sqlDB, rfl, kept⟩
    · exact absurd rfl failed
  · simp only [Procedure.perform_bind, Procedure.wp_call, true_and, perform]
    refine ⟨True.intro, ?_⟩
    rcases left with kept | ⟨_, closed⟩
    · have dropped := (kept.dropPool new).finish (.closePool sqlDB) (world.next last)
      rwa [Finset.erase_insert (by simp)] at dropped
    · have dropped := (closed.dropPool new).finish (.closePool sqlDB) (world.next last)
      rwa [Finset.erase_insert (by simp), Finset.erase_empty] at dropped

theorem newWithConfig_leaves (world : World) (ensureRetries retries : Nat) (cfg : Config)
    (ensureDBExists : Bool) (s : State) :
    (newWithConfig ensureRetries retries cfg ensureDBExists).wp (perform world) (fun _ => True)
      (Returned s) s := by
  have nothing := Leaves.refl s
  unfold newWithConfig
  cases cfg.validate with
  | some err => exact ⟨True.intro, nothing⟩
  | none =>
      cases ensureDBExists with
      | false => exact openDatabase_leaves retries cfg nothing
      | true =>
          refine Procedure.wp_bind _
            (Procedure.wp_mono (ensureDatabaseExists_leaves ensureRetries cfg nothing) ?_)
          rintro (_ | err) after - leaves
          · exact openDatabase_leaves retries cfg leaves
          · exact ⟨True.intro, leaves⟩

theorem migrate_leaves (pool : Nat) (migration : Migration) (leaves : Leaves before s held) :
    (migrate .mysql (some pool) migration).wp (perform world) (fun _ => True)
      (fun _ after => Leaves before after held) s := by
  have balanced := migrate_balanced world .mysql pool migration s
  refine (Procedure.wp_iff _ _ _).mpr ⟨fun _ _ => True.intro, ?_⟩
  constructor
  · rw [balanced.pools, leaves.pools]
  · exact leaves.held_ge
  · rw [balanced.opened]
    exact leaves.opened_le
  · rw [balanced.closed]
    exact leaves.closed

theorem withOpenPool_leaves (config : Config) (sqlDB : Nat) (migration : Migration)
    (leaves : Leaves before s held) :
    (withOpenPool config sqlDB fun pool => migrate .mysql (some pool) migration).wp
      (perform world) (fun _ => True) (fun _ after => Leaves before after held) s := by
  simp only [withOpenPool, Procedure.perform_bind, Procedure.wp_call, true_and, perform]
  have pinged := fun err => leaves.finish (.ping sqlDB) err
  cases world.next s with
  | some err => exact ⟨True.intro, pinged _⟩
  | none =>
      simp only [Procedure.wp_call, true_and, perform]
      have configured := fun err =>
        (pinged none).finish (.newConnector (driverConfig config config.database true)) err
      cases world.next (s.finish (.ping sqlDB) none) with
      | some err => exact ⟨True.intro, configured _⟩
      | none =>
          simp only [Procedure.wp_call, true_and, perform]
          refine Procedure.wp_bind _ (Procedure.wp_mono
            (migrate_leaves _ migration ((configured none).addPool.finish .openDB none)) ?_)
          intro runErr last _ opened
          simp only [Procedure.wp_call, true_and, perform]
          have connected : Connected before held (.ok s.opened) last :=
            ⟨(configured none).opened_notMem, opened⟩
          exact ⟨True.intro, connected.close _⟩

theorem Mysql.method_eq (m : Option Mysql) (path : Bytes) (fs : Option FS) (job : Job) :
    method m path fs job =
      withMigrationPool m fun pool => migrate .mysql (some pool) ⟨driverName, path, fs, job⟩ := by
  cases job <;> rfl

/-- The migration methods hold no pool when they return. -/
theorem method_leaves (world : World) (m : Option Mysql) (path : Bytes) (fs : Option FS)
    (job : Job) (s : State) :
    (Mysql.method m path fs job).wp (perform world) (fun _ => True)
      (fun _ after => Leaves s after ∅) s := by
  rw [Mysql.method_eq]
  rcases m with _ | ⟨_ | sqlDB, config⟩
  · exact ⟨True.intro, Leaves.refl s⟩
  · exact ⟨True.intro, Leaves.refl s⟩
  · exact withOpenPool_leaves config sqlDB _ (Leaves.refl s)

theorem Returned.addsExactly {result : Except Sql.Error Mysql} {after : State}
    (returned : Returned before result after) :
    AddsExactly before (result.map Mysql.sqlDB) after := by
  cases result with
  | error err =>
      change after.pools = before.pools
      rw [returned.pools, Finset.union_empty]
  | ok m =>
      obtain ⟨pool, sqlDB, leaves⟩ := returned
      change AddsExactly before (.ok m.sqlDB) after
      rw [sqlDB]
      refine ⟨leaves.notMem_before (Finset.mem_singleton_self pool), ?_⟩
      rw [leaves.pools, Finset.union_comm, Finset.singleton_union]

/-- Whatever fails: `NewWithConfig` adds to the open pools the one of the value that it returns, and
nothing if it returns an error; a migration method leaves the open pools as they were and does not
close the pool of its value. -/
theorem pools_kept (world : World) (s : State) :
    (∀ ensureRetries retries cfg ensureDBExists,
      AddsExactly s
        (((newWithConfig ensureRetries retries cfg ensureDBExists).run (perform world) s).1.map
          Mysql.sqlDB)
        ((newWithConfig ensureRetries retries cfg ensureDBExists).run (perform world) s).2) ∧
    ∀ m path fs job,
      ((Mysql.method m path fs job).run (perform world) s).2.pools = s.pools ∧
        ∀ mysql pool, m = some mysql → mysql.sqlDB = some pool → pool < s.opened →
          ((Mysql.method m path fs job).run (perform world) s).2.closed.count pool =
            s.closed.count pool := by
  constructor
  · intro ensureRetries retries cfg ensureDBExists
    exact (((Procedure.wp_iff _ _ _).mp
      (newWithConfig_leaves world ensureRetries retries cfg ensureDBExists s)).2).addsExactly
  · intro m path fs job
    have leaves := ((Procedure.wp_iff _ _ _).mp (method_leaves world m path fs job s)).2
    refine ⟨by rw [leaves.pools, Finset.union_empty], ?_⟩
    intro mysql pool _ _ known
    obtain ⟨more, closed, new⟩ := leaves.closed
    have other : pool ∉ more := fun member =>
      Nat.lt_irrefl _ (Nat.lt_of_lt_of_le known (new pool member))
    rw [closed, List.count_append, List.count_eq_zero_of_not_mem other, Nat.add_zero]

/-- A migration by a value whose pool is the first one, where every operation succeeds. -/
theorem pools_kept_migrating :
    0 < State.start.addPool.opened ∧
      ((Mysql.method (some ⟨some 0, ⟨ascii "host", 3306, ascii "user", [], ascii "app", true⟩⟩)
        (ascii "migrations") none .up).run
          (perform ⟨fun _ => none, fun _ => none, fun _ => false⟩)
          State.start.addPool).2.closed.count 0 = State.start.addPool.closed.count 0 := by
  have known : 0 < State.start.addPool.opened := by decide
  exact ⟨known, ((pools_kept _ _).2 _ _ _ _).2 _ 0 rfl rfl known⟩

end CommonGo.MySql
