import CommonGo.Migrate.Engine

/-!
# What a successful `MigrateUp` says

`MigrateUp` takes every error below which `ErrNoChange` is found for success.  `Up` joins a failure
of `Unlock` to the error it already has, which may be `ErrNoChange`.  The driver here is any driver:
each of its calls may fail, with any error, and leave the ledger and the lock in any state.
-/

namespace CommonGo.Migrate

open Program

/-! ## A driver whose calls may fail -/

/-- What the ledger says. -/
structure Ledger where
  /-- The version. -/
  version : Int
  /-- Whether a migration to it is on its way. -/
  dirty : Bool
  deriving DecidableEq, Repr

/-- A database, as a call of `MigrateUp` leaves it. -/
structure Database where
  /-- The ledger. -/
  ledger : Ledger
  /-- The driver's lock is held. -/
  locked : Bool
  /-- Every call of the driver has succeeded. -/
  intact : Bool
  deriving DecidableEq, Repr

/-- A driver: the error of each operation that fails, the ledger and the lock that a failing one
leaves behind, and what the body of a migration does to the ledger.  `Up` performs no operation
twice, so that it does not matter when an operation is performed. -/
structure World where
  /-- The error of an operation, if it fails. -/
  error : DriverOp → Option Error
  /-- The ledger that an operation leaves when it fails. -/
  ledger : DriverOp → Ledger
  /-- Whether the lock is held after an operation that fails. -/
  locked : DriverOp → Bool
  /-- What a body does to the ledger. -/
  ran : Body → Ledger → Ledger

/-- An operation that leads to `after` unless it fails. -/
def World.attempt (world : World) (op : DriverOp) (after : Database) :
    Except Error Unit × Database :=
  match world.error op with
  | some error => (.error error, ⟨world.ledger op, world.locked op, false⟩)
  | none => (.ok (), after)

/-- What the driver does. -/
def World.serve (world : World) : Handler DriverOp DriverOp.Reply Database
  | .create, db => world.attempt .create db
  | .lock, db => world.attempt .lock { db with locked := true }
  | .unlock, db => world.attempt .unlock { db with locked := false }
  | .version, db =>
      match world.error .version with
      | some error => (.error error, ⟨world.ledger .version, world.locked .version, false⟩)
      | none => (.ok (db.ledger.version, db.ledger.dirty), db)
  | .setVersion version dirty, db =>
      world.attempt (.setVersion version dirty) { db with ledger := ⟨version, dirty⟩ }
  | .run body, db => world.attempt (.run body) { db with ledger := world.ran body db.ledger }

/-- The ledger is clean at the newest version of the source. -/
def UpToDate (source : Source) (ledger : Ledger) : Prop :=
  ledger.dirty = false ∧
    ∃ newest : Nat, source.index.getLast? = some newest ∧ ledger.version = newest

/-- The database after a call of `MigrateUp`, and what the call returns. -/
def afterMigrateUp (world : World) (source : Source) (ledger : Ledger) (held : Bool) :
    Except Error Unit × Database :=
  (migrateUp (.ok source)).run world.serve ⟨ledger, held, true⟩

/-- `MigrateUp` returns nil only if all calls of the driver have succeeded, the lock is released and
the ledger is clean at the newest version. -/
def ReportsOnlySuccess (world : World) (source : Source) (ledger : Ledger) (held : Bool) : Prop :=
  (afterMigrateUp world source ledger held).1 = .ok () →
    (afterMigrateUp world source ledger held).2.intact = true ∧
      (afterMigrateUp world source ledger held).2.locked = false ∧
      UpToDate source (afterMigrateUp world source ledger held).2.ledger

/-! ## When a failure is seen -/

/-- The operations that migrations need. -/
def operations : List Item → List DriverOp
  | [] => []
  | .error _ :: _ => []
  | .migration migration :: rest =>
      .setVersion migration.targetVersion true :: (migration.body.toList.map .run ++
        .setVersion migration.targetVersion false :: operations rest)

/-- The operations between taking the lock and giving it back. -/
def pending (source : Source) (ledger : Ledger) : List DriverOp :=
  if ledger.dirty then [] else operations (readUp source ledger.version)

/-- The error of the first of some operations that fails. -/
def World.firstError (world : World) (ops : List DriverOp) : Option Error :=
  ops.findSome? world.error

/-- No failure is taken for `ErrNoChange`: neither the first operation that fails nor `Unlock` does
so with an error that is `ErrNoChange`, and `Unlock` does not fail when there is nothing to do. -/
structure Unhidden (world : World) (source : Source) (ledger : Ledger) : Prop where
  /-- The first operation that fails does not do so with `ErrNoChange`. -/
  first : ∀ error ∈ world.firstError (.lock :: .version :: pending source ledger),
    error.is .noChange = false
  /-- Neither does `Unlock`. -/
  unlock : world.error .lock = none → ∀ error ∈ world.error .unlock, error.is .noChange = false
  /-- With nothing to do, `Unlock` succeeds. -/
  upToDate : world.error .lock = none → world.error .version = none → UpToDate source ledger →
    world.error .unlock = none

/-! ## No operation is performed twice -/

/-- An operation of a migration beyond a version. -/
def Beyond (version : Nat) : DriverOp → Prop
  | .setVersion target _ => (version : Int) < target
  | .run body => version < body.version
  | _ => False

theorem Beyond.trans {version later : Nat} (less : version < later) {op : DriverOp}
    (beyond : Beyond later op) : Beyond version op := by
  cases op with
  | setVersion target dirty => exact lt_trans (Int.ofNat_lt.mpr less) beyond
  | run body => exact less.trans beyond
  | _ => exact beyond

/-- The operations of one migration up are distinct and those of its version. -/
private theorem operations_cons (source : Source) (version : Nat) (rest : List Item)
    (distinct : (operations rest).Nodup) (beyond : ∀ op ∈ operations rest, Beyond version op) :
    (operations (.migration (newMigration source version version) :: rest)).Nodup ∧
      ∀ earlier < version, ∀ op ∈ operations
        (.migration (newMigration source version version) :: rest), Beyond earlier op := by
  have target : (newMigration source version version).targetVersion = (version : Int) := rfl
  have set_notMem : ∀ dirty, DriverOp.setVersion version dirty ∉ operations rest :=
    fun dirty member => lt_irrefl _ (beyond _ member)
  rw [operations, body_newMigration, target]
  cases read : source.read version .up with
  | none =>
      constructor
      · simp [set_notMem, distinct]
      · intro earlier less
        simp only [Option.toList_none, List.map_nil, List.nil_append, List.forall_mem_cons]
        refine ⟨Int.ofNat_lt.mpr less, Int.ofNat_lt.mpr less, fun op member => ?_⟩
        exact (beyond op member).trans less
  | some body =>
      have own : body.version = version :=
        @version_of_mem_read source version .up body (by simp [read])
      have run_notMem : DriverOp.run body ∉ operations rest := by
        intro member
        have later : version < body.version := beyond _ member
        omega
      constructor
      · simp [set_notMem, run_notMem, distinct]
      · intro earlier less
        simp only [Option.toList_some, List.map_cons, List.map_nil, List.cons_append,
          List.nil_append, List.forall_mem_cons]
        refine ⟨Int.ofNat_lt.mpr less, less.trans_eq own.symm, Int.ofNat_lt.mpr less, ?_⟩
        intro op member
        exact (beyond op member).trans less

theorem nodup_operations_readUpFrom (source : Source) (version count : Nat) :
    (operations (readUpFrom source version count)).Nodup ∧
      ∀ op ∈ operations (readUpFrom source version count), Beyond version op := by
  fun_induction readUpFrom source version count with
  | case1 version => simp [operations]
  | case2 version count _ _ => simp [operations]
  | case3 version count next follows ih =>
      have whole := operations_cons source next _ ih.1 ih.2
      exact ⟨whole.1, whole.2 version (source.lt_of_next follows)⟩

/-- `Up` performs no operation twice, so that the errors of a driver can be told by operation. -/
theorem nodup_pending (source : Source) (ledger : Ledger) : (pending source ledger).Nodup := by
  unfold pending readUp
  split_ifs
  · exact List.nodup_nil
  · exact List.nodup_nil
  · cases source.first with
    | none => exact List.nodup_nil
    | some first =>
        have behind := nodup_operations_readUpFrom source first 1
        exact (operations_cons source first _ behind.1 behind.2).1
  · exact List.nodup_nil
  · exact (nodup_operations_readUpFrom source _ 0).1

/-! ## The migrations of a run -/

/-- What `runMigrations` returns if no operation fails. -/
def ending : List Item → Except Error Unit
  | [] => .ok ()
  | .error error :: _ => .error error
  | .migration _ :: rest => ending rest

/-- The ledger after the migrations if no operation fails. -/
def reached : List Item → Ledger → Ledger
  | .migration migration :: rest, _ => reached rest ⟨migration.targetVersion, false⟩
  | _, ledger => ledger

section Runs

variable {world : World} {source : Source} {db : Database}

/-- A procedure performs some operations: the first that fails ends it with its error, and if none
fails it comes to the given end. -/
structure Performs (world : World) (ops : List DriverOp) (last : Except Error Unit × Database)
    (procedure : Driver (Except Error Unit)) (db : Database) : Prop where
  /-- With a failure, the procedure returns its error. -/
  fails : ∀ error, world.firstError ops = some error →
    (procedure.run world.serve db).1 = .error error ∧
      (procedure.run world.serve db).2.intact = false
  /-- Without one, it comes to its end. -/
  succeeds : world.firstError ops = none → procedure.run world.serve db = last

theorem performs_done (result : Except Error Unit) (db : Database) :
    Performs world [] (result, db) (.done result) db :=
  ⟨by nofun, fun _ => rfl⟩

private theorem performs_attempt {op : DriverOp} {ops : List DriverOp} {after : Database}
    {last : Except Error Unit × Database} {procedure : Driver (Except Error Unit)}
    (next : Except Error Unit → Driver (Except Error Unit))
    (runs : procedure.run world.serve db =
      (next (world.attempt op after).1).run world.serve (world.attempt op after).2)
    (stops : ∀ error, next (.error error) = .done (.error error))
    (goes : Performs world ops last (next (.ok ())) after) :
    Performs world (op :: ops) last procedure db := by
  cases failed : world.error op with
  | some error =>
      rw [World.attempt, failed, stops] at runs
      constructor
      · intro found first
        rw [World.firstError, List.findSome?_cons, failed] at first
        cases first
        rw [runs]
        exact ⟨rfl, rfl⟩
      · intro first
        rw [World.firstError, List.findSome?_cons, failed] at first
        cases first
  | none =>
      rw [World.attempt, failed] at runs
      have same : world.firstError (op :: ops) = world.firstError ops := by
        rw [World.firstError, List.findSome?_cons, failed, World.firstError]
      constructor
      · rw [same, runs]
        exact goes.fails
      · rw [same, runs]
        exact goes.succeeds

theorem performs_setVersion {version : Int} {dirty : Bool} {ops : List DriverOp}
    {last : Except Error Unit × Database}
    {next : Except Error Unit → Driver (Except Error Unit)}
    (stops : ∀ error, next (.error error) = .done (.error error))
    (goes : Performs world ops last (next (.ok ())) { db with ledger := ⟨version, dirty⟩ }) :
    Performs world (.setVersion version dirty :: ops) last
      (.call (.setVersion version dirty) next) db :=
  performs_attempt next rfl stops goes

theorem performs_run {body : Body} {ops : List DriverOp} {last : Except Error Unit × Database}
    {next : Except Error Unit → Driver (Except Error Unit)}
    (stops : ∀ error, next (.error error) = .done (.error error))
    (goes : Performs world ops last (next (.ok ()))
      { db with ledger := world.ran body db.ledger }) :
    Performs world (.run body :: ops) last (.call (.run body) next) db :=
  performs_attempt next rfl stops goes

theorem markClean_performs {migration : Migration} {ops : List DriverOp}
    {last : Except Error Unit × Database} {next : Driver (Except Error Unit)}
    (goes : Performs world ops last next { db with ledger := ⟨migration.targetVersion, false⟩ }) :
    Performs world (.setVersion migration.targetVersion false :: ops) last
      (markClean migration next) db :=
  performs_setVersion (fun _ => rfl) goes

/-- The ledger that a body leaves does not matter, as it is set after it. -/
theorem applyBody_performs {migration : Migration} {ops : List DriverOp}
    {last : Except Error Unit × Database} {next : Driver (Except Error Unit)}
    (goes : Performs world ops last next { db with ledger := ⟨migration.targetVersion, false⟩ }) :
    Performs world
      (migration.body.toList.map .run ++ .setVersion migration.targetVersion false :: ops) last
      (applyBody migration next) db := by
  cases body : migration.body with
  | none =>
      simp only [applyBody, body]
      exact markClean_performs goes
  | some contents =>
      simp only [applyBody, body]
      exact performs_run (fun _ => rfl) (markClean_performs goes)

/-- `runMigrations` performs the operations of its migrations. -/
theorem runMigrations_performs (items : List Item) (db : Database) :
    Performs world (operations items) (ending items, { db with ledger := reached items db.ledger })
      (runMigrations items) db := by
  induction items generalizing db with
  | nil => exact performs_done _ _
  | cons item rest ih =>
      cases item with
      | error error => exact performs_done _ _
      | migration migration =>
          have later := ih { db with ledger := ⟨migration.targetVersion, false⟩ }
          exact performs_setVersion (fun _ => rfl) (applyBody_performs later)

/-! ## Giving back the lock -/

/-- What `MigrateUp` makes of a result of `Up` is right about the database. -/
def Honest (source : Source) (outcome : Except Error Unit × Database) : Prop :=
  upResult outcome.1 = .ok () →
    outcome.2.intact = true ∧ outcome.2.locked = false ∧ UpToDate source outcome.2.ledger

theorem upResult_eq_ok_iff {result : Except Error Unit} :
    upResult result = .ok () ↔ ∀ error, result = .error error → error.is .noChange = true := by
  cases result with
  | ok _ => simp [upResult]
  | error error => by_cases same : error.is .noChange = true <;> simp [upResult, same]

theorem is_join (first second : Error) :
    (Error.join first second).is .noChange = (first.is .noChange || second.is .noChange) := by
  have other : (Error.join first second == .noChange) = false :=
    beq_eq_false_iff_ne.mpr (by nofun)
  rw [Error.is, other, Bool.false_or]

/-- A result is right after the lock is given back if a success that is reported is one, and no
failure of `Unlock` is hidden, be it by itself or by the error before it. -/
theorem honest_unlockErr_iff (previous : Except Error Unit) (db : Database) :
    Honest source ((unlockErr previous).run world.serve db) ↔
      (world.error .unlock = none → upResult previous = .ok () →
        db.intact = true ∧ UpToDate source db.ledger) ∧
      ∀ failure ∈ world.error .unlock, failure.is .noChange = false ∧
        ∀ error, previous = .error error → error.is .noChange = false := by
  simp only [unlockErr, Procedure.perform_bind, Procedure.run_call, World.serve, World.attempt]
  cases world.error .unlock with
  | none => simp [Honest]
  | some failure =>
      cases previous with
      | ok _ => simp [Honest, upResult_eq_ok_iff]
      | error error => simp [Honest, upResult_eq_ok_iff, is_join, and_comm]

/-- After an error that is not `ErrNoChange`, only a failure of `Unlock` can be hidden. -/
theorem honest_after_error {error : Error} (seen : error.is .noChange = false) :
    Honest source ((unlockErr (.error error)).run world.serve db) ↔
      ∀ failure ∈ world.error .unlock, failure.is .noChange = false := by
  simp [honest_unlockErr_iff, upResult, seen]

/-- After a failed operation whose error is `ErrNoChange`, the failure is hidden. -/
theorem not_honest_after_hidden {error : Error} (hidden : error.is .noChange = true)
    (broken : db.intact = false) :
    ¬ Honest source ((unlockErr (.error error)).run world.serve db) := by
  rw [honest_unlockErr_iff]
  cases world.error .unlock with
  | none => simp [upResult, hidden, broken]
  | some failure => simp [hidden]

/-- After all migrations have been applied, only a failure of `Unlock` can be hidden. -/
theorem honest_after_ok (whole : db.intact = true) (current : UpToDate source db.ledger) :
    Honest source ((unlockErr (.ok ())).run world.serve db) ↔
      ∀ failure ∈ world.error .unlock, failure.is .noChange = false := by
  simp [honest_unlockErr_iff, whole, current]

/-- When there was nothing to do, every failure of `Unlock` is hidden. -/
theorem honest_after_noChange (whole : db.intact = true) (current : UpToDate source db.ledger) :
    Honest source ((unlockErr (.error .noChange)).run world.serve db) ↔
      world.error .unlock = none := by
  rw [honest_unlockErr_iff]
  cases world.error .unlock with
  | none => simp [whole, current]
  | some failure => simp [Error.is]

/-! ## What there is to do -/

/-- Migrations that have started lead to the newest version. -/
theorem ending_readUpFrom (source : Source) {version count : Nat}
    (member : version ∈ source.index) (started : count ≠ 0) :
    ending (readUpFrom source version count) = .ok () ∧
      UpToDate source (reached (readUpFrom source version count) ⟨version, false⟩) := by
  fun_induction readUpFrom source version count with
  | case1 version => exact absurd rfl started
  | case2 version count last _ =>
      exact ⟨rfl, rfl, version, source.getLast_of_next_none member last, rfl⟩
  | case3 version count next follows ih =>
      exact ih (source.mem_of_next follows) (Nat.succ_ne_zero count)

/-- `readUp` finds nothing to do at the newest version, an error, or migrations up to the newest
version. -/
theorem readUp_forms (source : Source) (version : Int) :
    (readUp source version = [.error .noChange] ∧ UpToDate source ⟨version, false⟩) ∨
      (∃ error, readUp source version = [.error error] ∧ error.is .noChange = false) ∨
      ending (readUp source version) = .ok () ∧
        UpToDate source (reached (readUp source version) ⟨version, false⟩) := by
  unfold readUp
  split_ifs with missing empty negative
  · exact Or.inr (Or.inl ⟨_, rfl, rfl⟩)
  · cases start : source.first with
    | none => exact Or.inr (Or.inl ⟨_, rfl, rfl⟩)
    | some first =>
        have member : first ∈ source.index := List.mem_of_head? start
        exact Or.inr (Or.inr (ending_readUpFrom source member one_ne_zero))
  · exact Or.inr (Or.inl ⟨_, rfl, rfl⟩)
  · have nonneg := not_lt.mp negative
    have member := source.mem_of_not_missing nonneg missing
    rw [readUpFrom]
    split
    case h_1 last =>
        refine Or.inl ⟨rfl, rfl, version.toNat, source.getLast_of_next_none member last, ?_⟩
        exact (Int.toNat_of_nonneg nonneg).symm
    case h_2 next follows =>
        exact Or.inr (Or.inr (ending_readUpFrom source (source.mem_of_next follows) one_ne_zero))

theorem readUp_of_upToDate {ledger : Ledger} (current : UpToDate source ledger) :
    readUp source ledger.version = [.error .noChange] := by
  obtain ⟨_, newest, last, same⟩ := current
  rw [same, readUp_newest source last]

/-! ## The run of `MigrateUp` -/

theorem reportsOnlySuccess_iff_honest {ledger : Ledger} {held : Bool} :
    ReportsOnlySuccess world source ledger held ↔
      Honest source ((up source).run world.serve ⟨ledger, held, true⟩) := by
  rw [ReportsOnlySuccess, afterMigrateUp, migrateUp, Procedure.run_bind]
  rfl

/-- The conditions, once the lock is taken and the ledger read. -/
theorem unhidden_iff {ledger : Ledger} (locks : world.error .lock = none)
    (reads : world.error .version = none) :
    Unhidden world source ledger ↔
      (∀ error ∈ world.firstError (pending source ledger), error.is .noChange = false) ∧
        (∀ failure ∈ world.error .unlock, failure.is .noChange = false) ∧
        (UpToDate source ledger → world.error .unlock = none) := by
  have first : world.firstError (.lock :: .version :: pending source ledger) =
      world.firstError (pending source ledger) := by
    simp [World.firstError, locks, reads]
  constructor
  · intro unhidden
    exact ⟨first ▸ unhidden.first, unhidden.unlock locks, unhidden.upToDate locks reads⟩
  · rintro ⟨seen, unlock, upToDate⟩
    exact ⟨first ▸ seen, fun _ => unlock, fun _ _ => upToDate⟩

/-- Where there is something to do and nothing fails in doing it, only `Unlock` matters. -/
private theorem unhidden_iff_unlock {ledger : Ledger} (locks : world.error .lock = none)
    (reads : world.error .version = none)
    (succeed : world.firstError (pending source ledger) = none)
    (behind : ¬ UpToDate source ledger) :
    Unhidden world source ledger ↔
      ∀ failure ∈ world.error .unlock, failure.is .noChange = false := by
  simp [unhidden_iff locks reads, succeed, behind]

/-- `Up` from a clean ledger, with the lock taken. -/
theorem honest_from_clean (locks : world.error .lock = none)
    (reads : world.error .version = none) (version : Int) :
    Honest source ((migrateFrom (readUp source) (.ok (version, false))).run world.serve
        ⟨⟨version, false⟩, true, true⟩) ↔
      Unhidden world source ⟨version, false⟩ := by
  have performs : Performs world (operations (readUp source version)) _
      (runMigrations (readUp source version)) ⟨⟨version, false⟩, true, true⟩ :=
    runMigrations_performs _ _
  have same : pending source ⟨version, false⟩ = operations (readUp source version) := rfl
  have ran : (migrateFrom (readUp source) (.ok (version, false))).run world.serve
      ⟨⟨version, false⟩, true, true⟩ = _ :=
    Procedure.run_bind world.serve (runMigrations (readUp source version)) unlockErr
      ⟨⟨version, false⟩, true, true⟩
  rw [ran]
  cases first : world.firstError (operations (readUp source version)) with
  | some error =>
      obtain ⟨failed, broken⟩ := performs.fails error first
      have behind : ¬ UpToDate source ⟨version, false⟩ := by
        intro current
        rw [readUp_of_upToDate current] at first
        cases first
      rw [failed, unhidden_iff locks reads, same, first]
      by_cases hidden : error.is .noChange = true
      · simp [not_honest_after_hidden hidden broken, hidden]
      · simp [honest_after_error (Bool.eq_false_iff.mpr hidden), hidden, behind]
  | none =>
      rw [performs.succeeds first]
      rcases readUp_forms source version with ⟨items, current⟩ | ⟨error, items, seen⟩ |
        ⟨ended, current⟩
      · rw [items]
        refine (honest_after_noChange rfl current).trans ?_
        rw [unhidden_iff locks reads, same, first]
        constructor
        · intro unlocks
          simp [unlocks]
        · exact fun unhidden => unhidden.2.2 current
      · have behind : ¬ UpToDate source ⟨version, false⟩ := by
          intro current
          rw [readUp_of_upToDate current] at items
          cases items
          cases seen
        rw [unhidden_iff_unlock locks reads (same ▸ first) behind, items]
        exact honest_after_error seen
      · have behind : ¬ UpToDate source ⟨version, false⟩ := by
          intro current
          rw [readUp_of_upToDate current] at ended
          cases ended
        rw [unhidden_iff_unlock locks reads (same ▸ first) behind, ended]
        exact honest_after_ok rfl current

end Runs

/-- `MigrateUp` reports success only when it is success exactly if no failure is taken for
`ErrNoChange`, whatever the source, the ledger and the failures of the driver are. -/
theorem reportsOnlySuccess_iff (world : World) (source : Source) (ledger : Ledger) (held : Bool) :
    ReportsOnlySuccess world source ledger held ↔ Unhidden world source ledger := by
  rw [reportsOnlySuccess_iff_honest]
  cases locking : world.error .lock with
  | some error =>
      have ran : (up source).run world.serve ⟨ledger, held, true⟩ =
          (.error error, ⟨world.ledger .lock, world.locked .lock, false⟩) := by
        simp [up, lockAndMigrate, World.serve, World.attempt, locking]
      have first : world.firstError (.lock :: .version :: pending source ledger) = some error := by
        simp [World.firstError, locking]
      rw [ran]
      constructor
      · intro honest
        refine ⟨?_, by simp [locking], by simp [locking]⟩
        rw [first]
        rintro _ ⟨⟩
        by_contra hidden
        have wrong := honest (by simpa [upResult] using hidden)
        cases wrong.1
      · intro unhidden returned
        have seen := unhidden.first error first
        simp [upResult, seen] at returned
  | none =>
      cases reading : world.error .version with
      | some error =>
          have ran : (up source).run world.serve ⟨ledger, held, true⟩ =
              (unlockErr (.error error)).run world.serve
                ⟨world.ledger .version, world.locked .version, false⟩ := by
            simp [up, lockAndMigrate, migrateFrom, World.serve, World.attempt, locking, reading]
          have first : world.firstError (.lock :: .version :: pending source ledger) =
              some error := by
            simp [World.firstError, locking, reading]
          rw [ran]
          by_cases hidden : error.is .noChange = true
          · refine iff_of_false (not_honest_after_hidden hidden rfl) fun unhidden => ?_
            have seen := unhidden.first error first
            rw [hidden] at seen
            cases seen
          · have seen := Bool.eq_false_iff.mpr hidden
            rw [honest_after_error seen]
            constructor
            · intro unlock
              refine ⟨?_, fun _ => unlock, by simp [reading]⟩
              rw [first]
              rintro _ ⟨⟩
              exact seen
            · exact fun unhidden => unhidden.unlock locking
      | none =>
          obtain ⟨version, dirty⟩ := ledger
          have ran : (up source).run world.serve ⟨⟨version, dirty⟩, held, true⟩ =
              (migrateFrom (readUp source) (.ok (version, dirty))).run world.serve
                ⟨⟨version, dirty⟩, true, true⟩ := by
            simp [up, lockAndMigrate, World.serve, World.attempt, locking, reading]
          rw [ran]
          cases dirty with
          | true =>
              have behind : ¬ UpToDate source ⟨version, true⟩ := fun current => nomatch current.1
              rw [unhidden_iff_unlock locking reading rfl behind]
              exact honest_after_error rfl
          | false => exact honest_from_clean locking reading version

/-- A source with one migration. -/
def oneMigration : Source where
  index := [1]
  files version direction :=
    if version = 1 ∧ direction = .up then some "CREATE TABLE t (id)" else none
  sorted := by decide
  fits := by decide
  indexed := by simp

/-- A driver whose `Unlock` fails and leaves the lock held. -/
def stuckLock : World where
  error
    | .unlock => some (.other 1)
    | _ => none
  ledger _ := ⟨1, false⟩
  locked _ := true
  ran _ ledger := ledger

/-- With nothing to do, `MigrateUp` returns nil while `Unlock` has failed and the lock is held. -/
theorem unlock_failure_hidden :
    (afterMigrateUp stuckLock oneMigration ⟨1, false⟩ false).1 = .ok () ∧
      (afterMigrateUp stuckLock oneMigration ⟨1, false⟩ false).2 = ⟨⟨1, false⟩, true, false⟩ ∧
      ¬ ReportsOnlySuccess stuckLock oneMigration ⟨1, false⟩ false := by
  have nothing : readUp oneMigration 1 = [.error .noChange] := readUp_newest oneMigration rfl
  have ran : afterMigrateUp stuckLock oneMigration ⟨1, false⟩ false =
      (.ok (), ⟨⟨1, false⟩, true, false⟩) := by
    simp [afterMigrateUp, migrateUp, up, lockAndMigrate, migrateFrom, Procedure.run_bind,
      World.serve, World.attempt, stuckLock, nothing, runMigrations, unlockErr, upResult, Error.is]
  refine ⟨by rw [ran], by rw [ran], fun honest => ?_⟩
  rw [ReportsOnlySuccess, ran] at honest
  cases (honest rfl).1

end CommonGo.Migrate
