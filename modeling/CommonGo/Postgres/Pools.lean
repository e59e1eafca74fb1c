import CommonGo.Sql.Migrations

/-!
# The pools of the PostgreSQL package

The constructors of the PostgreSQL package.  A connection attempt opens a pool and checks it with a
ping; a pool whose ping fails, there or when gorm opens it, is never closed.  These are the only
pools that a constructor loses.
-/

namespace CommonGo.Postgres

open Go Program Sql

/-! ## Constructors -/

/-- One attempt to connect. -/
def tryConnect (dsn : Bytes) : Action (Except Sql.Error Nat) := do
  match ← Procedure.perform (Op.sqlOpen dsn) with
  | .error err => return .error (.wrap err "could not open database")
  | .ok sqlDB =>
      match ← Procedure.perform (Op.ping sqlDB) with
      | some err => return .error (.wrap err "could not ping database")
      | none => return .ok sqlDB

/-- `connectToDB`. -/
def connectToDB (retries : Nat) (dsn : Bytes) : Action (Except Sql.Error Nat) := do
  match ← retry (tryConnect dsn) retries with
  | .error err => return .error (.wrap err "could not connect to database")
  | .ok sqlDB => return .ok sqlDB

/-- The text of the error that says that a database does not exist. -/
def notExistsMessage (dbName : Bytes) : Bytes :=
  ascii "pq: database \"" ++ dbName ++ ascii "\" does not exist"

/-- `databaseExists`. -/
def databaseExists (sqlDB : Nat) (dbName : Bytes) : Action (Except Sql.Error Bool) := do
  match ← Procedure.perform (Op.queryExists sqlDB dbName) with
  | .error err =>
      if err = .driver (notExistsMessage dbName) then return .ok false
      else return .error (.wrap err "could not check if database exists")
  | .ok found => return .ok found

/-- The statement that creates a database, its name quoted. -/
def createQuery (dbName : Bytes) : Bytes :=
  ascii "CREATE DATABASE \"" ++ (dbName.flatMap fun b => if b = 0x22 then [b, b] else [b]) ++
    ascii "\""

/-- `createDatabase`. -/
def createDatabase (sqlDB : Nat) (dbName : Bytes) : Action (Option Sql.Error) := do
  return wrapError (← Procedure.perform (Op.exec sqlDB (createQuery dbName)))
    "could not create database"

/-- `ensureDatabaseExists`, between the connection and its deferred close. -/
def createIfMissing (sqlDB : Nat) (dbName : Bytes) : Action (Option Sql.Error) := do
  match ← databaseExists sqlDB dbName with
  | .error err => return some (.wrap err "could not check if database exists")
  | .ok found =>
      if found then return none
      else return wrapError (← createDatabase sqlDB dbName) "could not create database"

/-- `ensureDatabaseExists`. -/
def ensureDatabaseExists (retries : Nat) (cfg : Config) : Action (Option Sql.Error) := do
  match ← connectToDB retries (getDSN cfg true) with
  | .error err => return some (.wrap err "could not connect to database")
  | .ok sqlDB => do
      let result ← createIfMissing sqlDB cfg.database
      -- An error of the close is logged only.
      let _ ← Procedure.perform (Op.closePool sqlDB)
      return result

/-- `NewWithConfig`, from where the database is there. -/
def openDatabase (retries : Nat) (cfg : Config) : Action (Except Sql.Error Postgresql) := do
  match ← connectToDB retries (getDSN cfg false) with
  | .error err => return .error (.wrap err "could not connect to database")
  | .ok sqlDB =>
      match ← gormOpen sqlDB with
      | some err => return .error (.wrap err "could not open gorm database")
      | none => return .ok ⟨some sqlDB, cfg⟩

/-- `NewWithConfig`, with the retries that fit in the time of either connection. -/
def newWithConfig (ensureRetries retries : Nat) (cfg : Config) (ensureDBExists : Bool) :
    Action (Except Sql.Error Postgresql) := do
  match cfg.validate with
  | some err => return .error (.wrap (.config err) "could not validate config")
  | none =>
      if ensureDBExists then
        match ← ensureDatabaseExists ensureRetries cfg with
        | some err => return .error (.wrap err "failed to ensure database exists")
        | none => openDatabase retries cfg
      else openDatabase retries cfg

/-! ## Lost pools -/

/-- The pool of a ping. -/
def pingPool : Op → Option Nat
  | .ping pool => some pool
  | _ => none

/-- The pools of the pings among some operations. -/
def pinged (ops : List Op) : Finset Nat := (ops.filterMap pingPool).toFinset

theorem pinged_append (ops : List Op) (op : Op) :
    pinged (ops ++ [op]) = pinged ops ∪ (pingPool op).toFinset := by
  rw [pinged, pinged, List.filterMap_append, List.toFinset_append]
  cases found : pingPool op with
  | none => simp [found]
  | some pool => simp [found]

/-- Since an earlier state the pools whose pings failed are lost: they stay open besides those
that are held. -/
def Tracks (before s : State) (held : Finset Nat) : Prop :=
  ∃ more, s.failures = before.failures ++ more ∧ Disjoint held (pinged more) ∧
    Leaves before s (held ∪ pinged more)

namespace Tracks

variable {before s : State} {held : Finset Nat}

theorem refl (s : State) : Tracks s s ∅ :=
  ⟨[], (List.append_nil _).symm, Finset.disjoint_empty_left _, Leaves.refl s⟩

/-- An operation succeeds, or one that is not a ping fails. -/
theorem finish (tracks : Tracks before s held) (op : Op) (err : Option Sql.Error)
    (harmless : err = none ∨ pingPool op = none) : Tracks before (s.finish op err) held := by
  obtain ⟨more, failures, apart, leaves⟩ := tracks
  cases err with
  | none =>
      refine ⟨more, ?_, apart, leaves.finish op none⟩
      rw [failures_finish, failures]
      simp
  | some err =>
      have none_pinged : pinged (more ++ [op]) = pinged more := by
        rw [pinged_append, harmless.resolve_left (by simp)]
        simp
      refine ⟨more ++ [op], ?_, ?_, ?_⟩
      · rw [failures_finish, failures]
        simp
      · rw [none_pinged]
        exact apart
      · rw [none_pinged]
        exact leaves.finish op _

theorem pause (tracks : Tracks before s held) : Tracks before s.pause held := by
  obtain ⟨more, failures, apart, leaves⟩ := tracks
  exact ⟨more, failures, apart, leaves.pause⟩

/-- The next pool is none of those that are held. -/
theorem opened_notMem (tracks : Tracks before s held) : s.opened ∉ held := by
  obtain ⟨more, failures, apart, leaves⟩ := tracks
  exact fun member => leaves.opened_notMem (Finset.mem_union_left _ member)

theorem addPool (tracks : Tracks before s held) :
    Tracks before s.addPool (insert s.opened held) := by
  obtain ⟨more, failures, apart, leaves⟩ := tracks
  have new := leaves.opened_notMem
  refine ⟨more, failures, ?_, ?_⟩
  · rw [Finset.disjoint_insert_left]
    exact ⟨fun member => new (Finset.mem_union_right _ member), apart⟩
  · rw [Finset.insert_union]
    exact leaves.addPool

/-- A ping fails: its pool is lost. -/
theorem lose {pool : Nat} (tracks : Tracks before s held) (member : pool ∈ held)
    (err : Sql.Error) : Tracks before (s.finish (.ping pool) (some err)) (held.erase pool) := by
  obtain ⟨more, failures, apart, leaves⟩ := tracks
  have added : pinged (more ++ [.ping pool]) = insert pool (pinged more) := by
    rw [pinged_append, Finset.union_comm]
    rfl
  refine ⟨more ++ [.ping pool], ?_, ?_, ?_⟩
  · rw [failures_finish, failures]
    simp
  · rw [added, Finset.disjoint_insert_right]
    exact ⟨Finset.notMem_erase pool held, apart.mono_left (Finset.erase_subset pool held)⟩
  · rw [added, Finset.union_insert, ← Finset.insert_union, Finset.insert_erase member]
    exact leaves.finish _ _

/-- A pool that is held is closed. -/
theorem close {pool : Nat} (tracks : Tracks before s held) (member : pool ∈ held)
    (err : Option Sql.Error) :
    Tracks before ((s.dropPool pool).finish (.closePool pool) err) (held.erase pool) := by
  refine Tracks.finish ?_ _ _ (Or.inr rfl)
  obtain ⟨more, failures, apart, leaves⟩ := tracks
  have kept : pool ∉ pinged more := Finset.disjoint_left.mp apart member
  refine ⟨more, failures, apart.mono_left (Finset.erase_subset pool held), ?_⟩
  have dropped := leaves.dropPool (leaves.held_ge pool (Finset.mem_union_left _ member))
  rwa [Finset.erase_union_distrib, Finset.erase_eq_of_notMem kept] at dropped

end Tracks

/-- A connection adds the pool that it returns to those that are held. -/
def Connected (before : State) (held : Finset Nat) : Except Sql.Error Nat → State → Prop
  | .ok pool, s => pool ∉ held ∧ Tracks before s (insert pool held)
  | .error _, s => Tracks before s held

variable {world : World} {before s : State} {held : Finset Nat}

theorem connectToDB_tracks (retries : Nat) (dsn : Bytes) (tracks : Tracks before s held) :
    (connectToDB retries dsn).wp (perform world) (fun _ => True) (Connected before held) s := by
  have attempts : ∀ s, Tracks before s held →
      (tryConnect dsn).wp (perform world) (fun _ => True) (fun result after =>
        (∀ a, result = .ok a → Connected before held (.ok a) after) ∧
          (∀ err, result = .error err → Tracks before after held)) s := by
    intro s tracks
    simp only [tryConnect, Procedure.perform_bind, Procedure.wp_call, true_and, perform]
    cases world.next s with
    | some err =>
        refine ⟨True.intro, by simp, fun _ _ => tracks.finish _ _ (Or.inr rfl)⟩
    | none =>
        simp only [Procedure.wp_call, true_and, perform]
        have opened := tracks.addPool.finish (.sqlOpen dsn) none (Or.inl rfl)
        cases world.next (s.addPool.finish (.sqlOpen dsn) none) with
        | some err =>
            have lost := opened.lose (Finset.mem_insert_self _ _) err
            rw [Finset.erase_insert tracks.opened_notMem] at lost
            exact ⟨True.intro, by simp, fun _ _ => lost⟩
        | none =>
            refine ⟨True.intro, ?_, by simp⟩
            rintro a ⟨⟩
            exact ⟨tracks.opened_notMem, opened.finish _ _ (Or.inl rfl)⟩
  refine Procedure.wp_bind _ (Procedure.wp_mono
    (retry_wp attempts (fun _ => Tracks.pause) (fun _ _ tracks => tracks) retries tracks) ?_)
  rintro (err | sqlDB) after - connected
  · exact ⟨True.intro, connected⟩
  · exact ⟨True.intro, connected⟩

theorem createIfMissing_tracks (sqlDB : Nat) (dbName : Bytes) (tracks : Tracks before s held) :
    (createIfMissing sqlDB dbName).wp (perform world) (fun _ => True)
      (fun _ after => Tracks before after held) s := by
  have exists_tracks : (databaseExists sqlDB dbName).wp (perform world) (fun _ => True)
      (fun _ after => Tracks before after held) s := by
    simp only [databaseExists, Procedure.perform_bind, Procedure.wp_call, true_and, perform]
    have queried := fun err => tracks.finish (.queryExists sqlDB dbName) err (Or.inr rfl)
    cases world.next s with
    | none => exact ⟨True.intro, queried none⟩
    | some err =>
        dsimp only
        split_ifs with missing
        · exact ⟨True.intro, queried _⟩
        · exact ⟨True.intro, queried _⟩
  refine Procedure.wp_bind _ (Procedure.wp_mono exists_tracks ?_)
  rintro (err | found) after - queried
  · exact ⟨True.intro, queried⟩
  · cases found with
    | true => exact ⟨True.intro, queried⟩
    | false => exact ⟨True.intro, True.intro, queried.finish _ _ (Or.inr rfl)⟩

theorem ensureDatabaseExists_tracks (retries : Nat) (cfg : Config)
    (tracks : Tracks before s held) :
    (ensureDatabaseExists retries cfg).wp (perform world) (fun _ => True)
      (fun _ after => Tracks before after held) s := by
  refine Procedure.wp_bind _ (Procedure.wp_mono (connectToDB_tracks retries _ tracks) ?_)
  rintro (err | sqlDB) after - connected
  · exact ⟨True.intro, connected⟩
  · refine Procedure.wp_bind _
      (Procedure.wp_mono (createIfMissing_tracks sqlDB cfg.database connected.2) ?_)
    intro result last _ done
    have closed := done.close (Finset.mem_insert_self _ _) (world.next last)
    rw [Finset.erase_insert connected.1] at closed
    exact ⟨True.intro, True.intro, closed⟩

/-- A pool that fails to open under gorm is closed or lost. -/
theorem gormOpen_tracks {pool : Nat} (tracks : Tracks before s held) (member : pool ∈ held) :
    (gormOpen pool).wp (perform world) (fun _ => True) (fun result after =>
      (result = none → Tracks before after held) ∧
        (result ≠ none → Tracks before after (held.erase pool))) s := by
  simp only [gormOpen, Procedure.perform_bind, Procedure.wp_call, true_and, perform]
  have initialised := fun err => tracks.finish (.initDialect pool) err (Or.inr rfl)
  cases world.next s with
  | some err =>
      exact ⟨True.intro, True.intro, by simp, fun _ => (initialised _).close member _⟩
  | none =>
      refine ⟨True.intro, True.intro, ?_⟩
      simp only [perform]
      cases world.next (s.finish (.initDialect pool) none) with
      | none => exact ⟨fun _ => (initialised none).finish _ _ (Or.inl rfl), by simp⟩
      | some err => exact ⟨by simp, fun _ => (initialised none).lose member err⟩

/-- What a constructor holds when it returns. -/
def Returned (before : State) : Except Sql.Error Postgresql → State → Prop
  | .ok p, s => ∃ pool, p.sqlDB = some pool ∧ Tracks before s {pool}
  | .error _, s => Tracks before s ∅

theorem openDatabase_tracks (retries : Nat) (cfg : Config) (tracks : Tracks before s ∅) :
    (openDatabase retries cfg).wp (perform world) (fun _ => True) (Returned before) s := by
  refine Procedure.wp_bind _ (Procedure.wp_mono (connectToDB_tracks retries _ tracks) ?_)
  rintro (err | sqlDB) after - connected
  · exact ⟨True.intro, connected⟩
  refine Procedure.wp_bind _
    (Procedure.wp_mono (gormOpen_tracks connected.2 (Finset.mem_insert_self _ _)) ?_)
  rintro (_ | err) last - ⟨opened, failed⟩
  · exact ⟨True.intro, sqlDB, rfl, opened rfl⟩
  · have lost := failed (by simp)
    rw [Finset.erase_insert connected.1] at lost
    exact ⟨True.intro, lost⟩

theorem newWithConfig_tracks (world : World) (ensureRetries retries : Nat) (cfg : Config)
    (ensureDBExists : Bool) (s : State) :
    (newWithConfig ensureRetries retries cfg ensureDBExists).wp (perform world) (fun _ => True)
      (Returned s) s := by
  have nothing := Tracks.refl s
  unfold newWithConfig
  cases cfg.validate with
  | some err => exact ⟨True.intro, nothing⟩
  | none =>
      cases ensureDBExists with
      | false => exact openDatabase_tracks retries cfg nothing
      | true =>
          refine Procedure.wp_bind _
            (Procedure.wp_mono (ensureDatabaseExists_tracks ensureRetries cfg nothing) ?_)
          rintro (_ | err) after - tracks
          · exact openDatabase_tracks retries cfg tracks
          · exact ⟨True.intro, tracks⟩

/-! ## The balance -/

/-- Between two states no ping failed. -/
def PingsSucceed (before after : State) : Prop :=
  ∀ pool, .ping pool ∉ after.failures.drop before.failures.length

theorem mem_pinged {ops : List Op} {pool : Nat} : pool ∈ pinged ops ↔ .ping pool ∈ ops := by
  rw [pinged, List.mem_toFinset, List.mem_filterMap]
  constructor
  · rintro ⟨op, member, found⟩
    cases op <;> cases found
    exact member
  · intro member
    exact ⟨_, member, rfl⟩

/-- The open pools are the earlier ones and those held exactly if no ping failed. -/
theorem Tracks.pools_iff (tracks : Tracks before s held) :
    s.pools = before.pools ∪ held ↔ PingsSucceed before s := by
  obtain ⟨more, failures, apart, leaves⟩ := tracks
  have since : s.failures.drop before.failures.length = more := by
    rw [failures, List.drop_left]
  rw [PingsSucceed, since, leaves.pools]
  constructor
  · intro same pool member
    have lost : pool ∈ pinged more := mem_pinged.mpr member
    have old_or_held : pool ∈ before.pools ∪ held := by
      rw [← same]
      exact Finset.mem_union_right _ (Finset.mem_union_right _ lost)
    rcases Finset.mem_union.mp old_or_held with older | kept
    · exact leaves.notMem_before (Finset.mem_union_right _ lost) older
    · exact Finset.disjoint_left.mp apart kept lost
  · intro succeed
    have none_lost : pinged more = ∅ :=
      Finset.eq_empty_of_forall_notMem fun pool lost => succeed pool (mem_pinged.mp lost)
    rw [none_lost, Finset.union_empty]

theorem Returned.addsExactly_iff {result : Except Sql.Error Postgresql} {after : State}
    (returned : Returned before result after) :
    AddsExactly before (result.map Postgresql.sqlDB) after ↔ PingsSucceed before after := by
  cases result with
  | error err =>
      have same := returned.pools_iff
      rwa [Finset.union_empty] at same
  | ok p =>
      obtain ⟨pool, sqlDB, tracks⟩ := returned
      change AddsExactly before (.ok p.sqlDB) after ↔ _
      have same := tracks.pools_iff
      rw [Finset.union_comm, Finset.singleton_union] at same
      rw [sqlDB, ← same]
      have new : pool ∉ before.pools := by
        obtain ⟨more, _, _, leaves⟩ := tracks
        exact leaves.notMem_before (Finset.mem_union_left _ (Finset.mem_singleton_self pool))
      exact ⟨And.right, fun adds => ⟨new, adds⟩⟩

/-- Whatever else fails, `NewWithConfig` adds to the open pools the one of the value that it
returns, and nothing if it returns an error, exactly if every ping that it makes succeeds. -/
theorem newWithConfig_addsExactly_iff (world : World) (ensureRetries retries : Nat) (cfg : Config)
    (ensureDBExists : Bool) (s : State) :
    AddsExactly s
        (((newWithConfig ensureRetries retries cfg ensureDBExists).run (perform world) s).1.map
          Postgresql.sqlDB)
        ((newWithConfig ensureRetries retries cfg ensureDBExists).run (perform world) s).2 ↔
      PingsSucceed s
        ((newWithConfig ensureRetries retries cfg ensureDBExists).run (perform world) s).2 :=
  (((Procedure.wp_iff _ _ _).mp
    (newWithConfig_tracks world ensureRetries retries cfg ensureDBExists s)).2).addsExactly_iff

/-- A server that answers the second ping only: two pools are open, and one is returned. -/
theorem lost_first_pool :
    let last := (newWithConfig 0 1
      ⟨ascii "host", 5432, ascii "user", ascii "secret", ascii "app", false⟩ false).run
        (perform ⟨fun n => if n = 1 then some (ascii "refused") else none, fun _ => none,
          fun _ => false⟩) State.start
    last.2.pools = {0, 1} ∧ last.1.map Postgresql.sqlDB = .ok (some 1) ∧
      ¬ AddsExactly State.start (last.1.map Postgresql.sqlDB) last.2 := by
  refine ⟨by decide, by decide, ?_⟩
  rintro ⟨_, pools⟩
  exact absurd pools (by decide)

end CommonGo.Postgres
