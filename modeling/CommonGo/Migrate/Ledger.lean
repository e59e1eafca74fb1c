import CommonGo.Migrate.SqliteDriver
import CommonGo.Program.Run

/-!
# The ledger of concurrent callers

Any number of callers set versions, and their operations on the database interleave.  Transactions
are serializable: the statements of a transaction take effect together, with its commit, on the
database as it is then.  Every operation may fail, and a transaction that does not commit changes
nothing.  The ledger then holds one version at most, the one that was set last.
-/

namespace CommonGo.Migrate.Sqlite

open Program

variable {ι σ : Type}

/-! ## Serializable transactions -/

section Transactions

variable (effect : String → σ → σ)

/-- The database after the statements of a transaction. -/
def replay (db : Db σ) (log : List Statement) : Db σ :=
  log.foldl (fun db statement => Connection.exec effect statement db) db

/-- The statements of a caller's transaction after an operation; `none` while none is open. -/
def logAfter (failing : Bool) (log : Option (List Statement)) : SqlOp → Option (List Statement)
  | .beginTx => if failing then log else some []
  | .execTx statement => if failing then log else log.map (· ++ [statement])
  | .commit => none
  | .rollback => none
  | _ => log

/-- An operation of a caller.  Its transaction works on what its statements so far make of the
committed database as it is now. -/
def transact (failing : Bool) (op : SqlOp) (log : Option (List Statement)) (db : Db σ) :
    op.Reply × Db σ :=
  let result := sql effect (fun _ => if failing then .failure else .success) op
    ⟨db, log.map (replay effect db), [], 0⟩
  (result.1, result.2.db)

end Transactions

/-! ## Callers -/

/-- The arguments of `SetVersion`. -/
structure Setting where
  /-- The version to be set. -/
  version : Int
  /-- Whether a migration to it is on its way. -/
  dirty : Bool
  deriving DecidableEq, Repr

/-- A call on its way: what is left of it, and the statements of its transaction. -/
structure Running where
  /-- What the call is to set. -/
  setting : Setting
  /-- What is left of the call. -/
  code : Sql (Except Error Unit)
  /-- The statements of its open transaction. -/
  log : Option (List Statement)

/-- A call that has returned. -/
structure Returned (ι : Type) where
  /-- Who made the call. -/
  caller : ι
  /-- What it was to set. -/
  setting : Setting
  /-- What it returned. -/
  result : Except Error Unit

/-- The committed database, the calls on their way and the calls that have returned. -/
structure Ledger (ι σ : Type) where
  /-- The committed database. -/
  db : Db σ
  /-- The call of each caller, if one is on its way. -/
  running : ι → Option Running
  /-- The calls that have returned. -/
  returned : List (Returned ι)

/-- A caller calls `SetVersion`, or the next operation of its call succeeds or fails. -/
inductive Move (ι : Type) where
  | call (caller : ι) (setting : Setting)
  | operate (caller : ι) (failing : Bool)

/-- The empty ledger table, and nobody there. -/
def emptyLedger (schema : σ) : Ledger ι σ := ⟨⟨some [], schema⟩, fun _ => none, []⟩

namespace Ledger

variable [DecidableEq ι]

/-- A caller has come to some code of its call: there is more to do, or it returns. -/
def proceed (ledger : Ledger ι σ) (caller : ι) (setting : Setting) (log : Option (List Statement))
    (db : Db σ) : Sql (Except Error Unit) → Ledger ι σ
  | .done result =>
      ⟨db, Function.update ledger.running caller none,
        ledger.returned ++ [⟨caller, setting, result⟩]⟩
  | code => ⟨db, Function.update ledger.running caller (some ⟨setting, code, log⟩), ledger.returned⟩

/-- One move; `none` if the caller cannot make it. -/
def step (effect : String → σ → σ) (ledger : Ledger ι σ) : Move ι → Option (Ledger ι σ)
  | .call caller setting =>
      match ledger.running caller with
      | none => some (ledger.proceed caller setting none ledger.db
          (setVersion setting.version setting.dirty))
      | some _ => none
  | .operate caller failing =>
      match ledger.running caller with
      | some ⟨setting, .call op next, log⟩ =>
          let result := transact effect failing op log ledger.db
          some (ledger.proceed caller setting (logAfter failing log op) result.2 (next result.1))
      | _ => none

end Ledger

/-- What `Version` returns for a committed database. -/
def readVersion (db : Db σ) : Except Error (Int × Bool) :=
  (version.run (sql (fun _ schema => schema) fun _ => .success) ⟨db, none, [], 0⟩).1

/-! ## The stages of a call -/

/-- The version is written into the table. -/
def Told (version : Int) (dirty : Bool) : Prop := 0 ≤ version ∨ (version = nilVersion ∧ dirty)

instance (version : Int) (dirty : Bool) : Decidable (Told version dirty) :=
  inferInstanceAs (Decidable (_ ∨ _))

/-- The commit of `SetVersion`. -/
def committing : Sql (Except Error Unit) := commitWith "commit migration version transaction"

/-- `SetVersion` from its insertion on. -/
def inserting (version : Int) (dirty : Bool) : Sql (Except Error Unit) :=
  .call (.execTx (.insertMigrationVersion version dirty)) fun reply =>
    match reply with
    | .error error =>
        rollbackWithError error (Statement.insertMigrationVersion version dirty).text
    | .ok _ => committing

/-- `SetVersion` from its deletion on. -/
def deleting (version : Int) (dirty : Bool) : Sql (Except Error Unit) :=
  .call (.execTx .deleteMigrationVersion) fun reply =>
    match reply with
    | .error error => rollbackWithError error Statement.deleteMigrationVersion.text
    | .ok _ => if Told version dirty then inserting version dirty else committing

/-- `SetVersion` from its start on. -/
def starting (version : Int) (dirty : Bool) : Sql (Except Error Unit) :=
  .call .beginTx fun reply =>
    match reply with
    | .error error => .done (.error (.database error "start migration version transaction" ""))
    | .ok _ => deleting version dirty

theorem setVersion_eq (version : Int) (dirty : Bool) :
    setVersion version dirty = starting version dirty := by
  refine congrArg (Procedure.call SqlOp.beginTx) (funext fun reply => ?_)
  cases reply with
  | error error => rfl
  | ok _ =>
      refine congrArg (Procedure.call _) (funext fun reply => ?_)
      cases reply with
      | error error => rfl
      | ok _ =>
          by_cases told : Told version dirty
          · trans inserting version dirty
            · refine (if_pos told).trans (congrArg (Procedure.call _) (funext fun reply => ?_))
              cases reply <;> rfl
            · exact (if_pos told).symm
          · exact (if_neg told).trans (if_neg told).symm

/-- The statements of a transaction that is about to commit. -/
def statements (version : Int) (dirty : Bool) : List Statement :=
  if Told version dirty then [.deleteMigrationVersion, .insertMigrationVersion version dirty]
  else [.deleteMigrationVersion]

/-- How far a call of `SetVersion` is. -/
inductive Stage (version : Int) (dirty : Bool) :
    Sql (Except Error Unit) → Option (List Statement) → Prop
  | starting : Stage version dirty (starting version dirty) none
  | deleting : Stage version dirty (deleting version dirty) (some [])
  | inserting : Told version dirty →
      Stage version dirty (inserting version dirty) (some [.deleteMigrationVersion])
  | committing : Stage version dirty committing (some (statements version dirty))
  | rollingBack {original : Error} {query : String} {log : Option (List Statement)} :
      Stage version dirty (rollbackWithError original query) log

section Stages

variable {effect : String → σ → σ} {version : Int} {dirty : Bool} {db : Db σ} {rows : List Row}
  {code : Sql (Except Error Unit)} {log : Option (List Statement)}

theorem mark_of_told (told : Told version dirty) :
    db.mark version dirty = { db with table := some [⟨version, dirty⟩] } := by
  have written : 0 ≤ version ∨ (version = nilVersion ∧ dirty = true) := told
  rw [Db.mark, if_pos written]

theorem mark_of_not_told (untold : ¬ Told version dirty) :
    db.mark version dirty = { db with table := some [] } := by
  have unwritten : ¬ (0 ≤ version ∨ (version = nilVersion ∧ dirty = true)) := untold
  rw [Db.mark, if_neg unwritten]

theorem replay_delete (present : db.table = some rows) :
    replay effect db [.deleteMigrationVersion] = { db with table := some [] } := by
  simp [replay, Connection.exec, Statement.apply, present]

/-- A transaction that commits makes the ledger tell its version. -/
theorem replay_statements (present : db.table = some rows) :
    replay effect db (statements version dirty) = db.mark version dirty := by
  by_cases told : Told version dirty
  · rw [statements, if_pos told, mark_of_told told]
    simp [replay, Connection.exec, Statement.apply, present]
  · rw [statements, if_neg told, mark_of_not_told told, replay_delete present]

/-- An operation of a call returns nil and has set the version, or it leaves the database as it was
and the call goes on or returns an error. -/
theorem Stage.operate (stage : Stage version dirty code log) (present : db.table = some rows)
    (failing : Bool) :
    ∃ op next, code = .call op next ∧
      ((transact effect failing op log db).2 = db ∧
          ((∃ error, next (transact effect failing op log db).1 = .done (.error error)) ∨
            Stage version dirty (next (transact effect failing op log db).1)
              (logAfter failing log op)) ∨
        (transact effect failing op log db).2 = db.mark version dirty ∧
          next (transact effect failing op log db).1 = .done (.ok ())) := by
  cases stage with
  | starting =>
      refine ⟨.beginTx, _, rfl, Or.inl ?_⟩
      cases failing with
      | true => exact ⟨rfl, Or.inl ⟨_, rfl⟩⟩
      | false => exact ⟨rfl, Or.inr .deleting⟩
  | deleting =>
      refine ⟨_, _, rfl, Or.inl ?_⟩
      cases failing with
      | true => exact ⟨rfl, Or.inr .rollingBack⟩
      | false =>
          have applied : transact effect false (.execTx .deleteMigrationVersion) (some []) db =
              (.ok (), db) := by
            simp [transact, sql, replay, Statement.apply, present]
          rw [applied]
          refine ⟨rfl, Or.inr ?_⟩
          by_cases told : Told version dirty
          · simpa [told, logAfter] using Stage.inserting told
          · simpa [told, logAfter, statements] using @Stage.committing version dirty
  | inserting told =>
      refine ⟨_, _, rfl, Or.inl ?_⟩
      cases failing with
      | true => exact ⟨rfl, Or.inr .rollingBack⟩
      | false =>
          have applied : transact effect false (.execTx (.insertMigrationVersion version dirty))
              (some [.deleteMigrationVersion]) db = (.ok (), db) := by
            simp [transact, sql, replay_delete present, Statement.apply]
          rw [applied]
          refine ⟨rfl, Or.inr ?_⟩
          simpa [told, logAfter, statements] using @Stage.committing version dirty
  | committing =>
      refine ⟨.commit, _, rfl, ?_⟩
      cases failing with
      | true => exact Or.inl ⟨rfl, Or.inl ⟨_, rfl⟩⟩
      | false => exact Or.inr ⟨replay_statements present, rfl⟩
  | rollingBack =>
      refine ⟨.rollback, _, rfl, Or.inl ?_⟩
      cases failing with
      | true => exact ⟨rfl, Or.inl ⟨_, rfl⟩⟩
      | false => exact ⟨rfl, Or.inl ⟨_, rfl⟩⟩

/-- What was marked is what `Version` reads. -/
theorem readVersion_mark (db : Db σ) (dirty : Bool) (valid : nilVersion ≤ version) :
    readVersion (db.mark version dirty) = .ok (version, dirty) := by
  by_cases told : Told version dirty
  · rw [mark_of_told told]
    rfl
  · have unset : version = nilVersion ∧ dirty = false := by
      rw [Told, not_or, not_and, Bool.not_eq_true] at told
      have least : version = nilVersion := by
        have negative := told.1
        unfold nilVersion at valid ⊢
        omega
      exact ⟨least, told.2 least⟩
    rw [mark_of_not_told told, unset.1, unset.2]
    rfl

end Stages

/-! ## Runs -/

namespace Ledger

variable [DecidableEq ι] {effect : String → σ → σ} {ledger next last : Ledger ι σ} {move : Move ι}
  {moves : List (Move ι)}

/-- The table holds one row at most, and every call is at a stage of `SetVersion`. -/
structure Orderly (ledger : Ledger ι σ) : Prop where
  /-- The table exists and has one row at most. -/
  row : ∃ rows, ledger.db.table = some rows ∧ rows.length ≤ 1
  /-- Every call is at a stage of `SetVersion`. -/
  stages : ∀ caller running, ledger.running caller = some running →
    Stage running.setting.version running.setting.dirty running.code running.log

/-- A call has returned nil and has set its version. -/
def Sets (ledger next : Ledger ι σ) : Prop :=
  ∃ call, next.returned = ledger.returned ++ [call] ∧ call.result = .ok () ∧
    next.db = ledger.db.mark call.setting.version call.setting.dirty

/-- The database is as it was, and no call has returned nil. -/
def Keeps (ledger next : Ledger ι σ) : Prop :=
  next.db = ledger.db ∧ ∃ later, next.returned = ledger.returned ++ later ∧
    ∀ call ∈ later, call.result ≠ .ok ()

omit [DecidableEq ι] in
theorem row_mark {db : Db σ} (version : Int) (dirty : Bool) :
    ∃ rows, (db.mark version dirty).table = some rows ∧ rows.length ≤ 1 := by
  refine ⟨_, rfl, ?_⟩
  split_ifs <;> simp

/-- The stages of all calls after one of them has gone on or returned. -/
theorem stages_proceed {caller : ι} {setting : Setting} {log : Option (List Statement)} {db : Db σ}
    {code : Sql (Except Error Unit)}
    (stages : ∀ caller running, ledger.running caller = some running →
      Stage running.setting.version running.setting.dirty running.code running.log)
    (stage : ∀ op more, code = .call op more → Stage setting.version setting.dirty code log) :
    ∀ other running, (ledger.proceed caller setting log db code).running other = some running →
      Stage running.setting.version running.setting.dirty running.code running.log := by
  intro other running there
  by_cases same : other = caller
  · subst same
    cases code with
    | done result => simp [proceed] at there
    | call op more =>
        simp only [proceed, Function.update_self, Option.some.injEq] at there
        subst there
        exact stage op more rfl
  · refine stages other running ?_
    cases code with
    | done result => simpa [proceed, same] using there
    | call op more => simpa [proceed, same] using there

theorem Orderly.step (orderly : ledger.Orderly) (stepped : ledger.step effect move = some next) :
    next.Orderly ∧ (ledger.Keeps next ∨ ledger.Sets next) := by
  obtain ⟨rows, present, few⟩ := orderly.row
  cases move with
  | call caller setting =>
      rw [Ledger.step] at stepped
      split at stepped
      · cases stepped
        rw [setVersion_eq]
        refine ⟨⟨orderly.row, stages_proceed orderly.stages fun _ _ _ => .starting⟩, Or.inl ?_⟩
        exact ⟨rfl, [], (List.append_nil _).symm, by nofun⟩
      · cases stepped
  | operate caller failing =>
      rw [Ledger.step] at stepped
      split at stepped
      · next setting op more log running =>
          cases stepped
          have stage := orderly.stages caller _ running
          obtain ⟨op', more', same, outcome⟩ :=
            @Stage.operate _ effect _ _ _ _ _ _ stage present failing
          cases same
          rcases outcome with ⟨untouched, ⟨error, returned⟩ | later⟩ | ⟨marked, returned⟩
          · rw [untouched, returned]
            refine ⟨⟨orderly.row, stages_proceed orderly.stages (by nofun)⟩, Or.inl ⟨rfl, ?_⟩⟩
            exact ⟨[⟨caller, setting, .error error⟩], rfl, by simp⟩
          · obtain ⟨_, _, goesOn, _⟩ := @Stage.operate _ effect _ _ _ _ _ _ later present false
            rw [untouched]
            refine ⟨⟨?_, stages_proceed orderly.stages fun _ _ _ => later⟩, Or.inl ?_⟩
            · rw [goesOn]
              exact orderly.row
            · rw [goesOn]
              exact ⟨rfl, [], (List.append_nil _).symm, by nofun⟩
          · rw [marked, returned]
            refine ⟨⟨row_mark _ _, stages_proceed orderly.stages (by nofun)⟩, Or.inr ?_⟩
            exact ⟨⟨caller, setting, .ok ()⟩, rfl, rfl, rfl⟩
      · cases stepped

omit [DecidableEq ι] in
theorem orderly_emptyLedger (schema : σ) : (emptyLedger schema : Ledger ι σ).Orderly :=
  ⟨⟨[], rfl, Nat.zero_le _⟩, by nofun⟩

/-- While no call returns nil, the database stays as it is. -/
theorem Orderly.run_keeps (orderly : ledger.Orderly)
    (ran : runFrom (Ledger.step effect) ledger moves = some last) :
    ∃ later, last.returned = ledger.returned ++ later ∧
      ((∀ call ∈ later, call.result ≠ .ok ()) → last.db = ledger.db) := by
  refine (@runFrom_history _ _ (Ledger.step effect) ledger last moves (fun _ last =>
    last.Orderly ∧ ∃ later, last.returned = ledger.returned ++ later ∧
      ((∀ call ∈ later, call.result ≠ .ok ()) → last.db = ledger.db)) ?_
    ⟨orderly, [], (List.append_nil _).symm, fun _ => rfl⟩ ran).2
  rintro moves middle move next - ⟨held, before, earlier, kept⟩ stepped
  obtain ⟨holds, ⟨same, after, later, _⟩ | ⟨call, later, succeeded, _⟩⟩ := held.step stepped
  · refine ⟨holds, before ++ after, by rw [later, earlier, List.append_assoc], fun failing => ?_⟩
    rw [same]
    exact kept fun call member => failing call (List.mem_append_left _ member)
  · refine ⟨holds, before ++ [call], by rw [later, earlier, List.append_assoc], fun failing => ?_⟩
    exact absurd succeeded (failing call (by simp))

/-- In every run of any number of callers from the empty table, with any failures: the table holds
at most one row; directly after a call that returned nil `Version` gives what the call has set; and
as long as calls return errors only, `Version` gives what it gave before them. -/
theorem ledger_exact (effect : String → σ → σ) (schema : σ)
    (ran : runFrom (Ledger.step effect) (emptyLedger schema) moves = some ledger) :
    (∃ rows, ledger.db.table = some rows ∧ rows.length ≤ 1) ∧
      (∀ move next call, ledger.step effect move = some next →
        next.returned = ledger.returned ++ [call] → call.result = .ok () →
        nilVersion ≤ call.setting.version →
          readVersion next.db = .ok (call.setting.version, call.setting.dirty)) ∧
      ∀ later last calls, runFrom (Ledger.step effect) ledger later = some last →
        last.returned = ledger.returned ++ calls → (∀ call ∈ calls, call.result ≠ .ok ()) →
          readVersion last.db = readVersion ledger.db := by
  have orderly : ledger.Orderly :=
    runFrom_invariant (fun held stepped => (held.step stepped).1) (orderly_emptyLedger schema) ran
  refine ⟨orderly.row, ?_, ?_⟩
  · intro move next call stepped returned succeeded valid
    obtain ⟨-, ⟨_, calls, same, failing⟩ | ⟨call', same, _, marked⟩⟩ := orderly.step stepped
    · rw [returned, List.append_cancel_left_eq] at same
      exact absurd succeeded (failing call (by simp [← same]))
    · rw [returned, List.append_cancel_left_eq] at same
      cases same
      rw [marked, readVersion_mark _ _ valid]
  · intro later last calls segment returned failing
    obtain ⟨calls', same, kept⟩ := orderly.run_keeps segment
    rw [returned, List.append_cancel_left_eq] at same
    rw [kept (same ▸ failing)]

/-- Two callers in their transactions, one of them about to commit version 3 as dirty. -/
def twoCallers : List (Move Bool) :=
  [.call true ⟨3, true⟩, .operate true false, .call false ⟨4, false⟩, .operate false false,
    .operate true false, .operate false false, .operate true false]

theorem ledger_exact_sample :
    ∃ ledger next : Ledger Bool Unit,
      runFrom (Ledger.step fun _ schema => schema) (emptyLedger ()) twoCallers = some ledger ∧
      ledger.step (fun _ schema => schema) (.operate true false) = some next ∧
      readVersion next.db = .ok (3, true) := by
  have reached : ∃ ledger next : Ledger Bool Unit,
      runFrom (Ledger.step fun _ schema => schema) (emptyLedger ()) twoCallers = some ledger ∧
      ledger.step (fun _ schema => schema) (.operate true false) = some next ∧
      next.returned = ledger.returned ++ [⟨true, ⟨3, true⟩, .ok ()⟩] := ⟨_, _, rfl, rfl, rfl⟩
  obtain ⟨ledger, next, ran, stepped, returned⟩ := reached
  have read := (ledger_exact _ () ran).2.1 _ next _ stepped returned rfl (by decide)
  exact ⟨ledger, next, ran, stepped, read⟩

end Ledger

end CommonGo.Migrate.Sqlite
