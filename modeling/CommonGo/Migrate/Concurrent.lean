import CommonGo.Migrate.History
import Mathlib.Data.Fintype.Basic

/-!
# Concurrent calls of `sqlite.MigrateUp`

Any number of callers migrate one database, each with a driver of its own, and their driver
operations interleave.  The lock of a driver is a flag inside it, so it keeps nobody else out:
what decides is whether a caller reads the ledger while another one still has a migration to
apply.
-/

namespace CommonGo.Migrate

open Program Sqlite

/-! ## The callers -/

/-- Callers of `sqlite.MigrateUp` on a shared connection; each owns the flag of its driver. -/
abbrev Callers (ι σ : Type) :=
  Pool ι DriverOp DriverOp.Reply Bool (Connection σ) (Except Error Unit)

/-- No operation fails. -/
def undisturbed : Nat → Outcome := fun _ => .success

/-- All callers before their first step. -/
def callers (ι : Type) {σ : Type} (source : Source) (db : Db σ) : Callers ι σ where
  shared := ⟨db, none, [], 0⟩
  owned := fun _ => false
  code := fun _ => Sqlite.migrateUp (.ok source)

/-- The next step reads the version from the ledger. -/
def Reading {α : Type} : Driver α → Bool
  | .call .version _ => true
  | _ => false

/-- A migration is still to be applied: the next step marks it, runs it or marks it clean. -/
def Applying {α : Type} : Driver α → Bool
  | .call (.setVersion _ _) _ => true
  | .call (.run _) _ => true
  | _ => false

/-- A step that reads the ledger is taken only while no other caller has a migration to apply. -/
def ReadsAlone {ι σ : Type} (pool : Callers ι σ) (i : ι) : Prop :=
  Reading (pool.code i) → ∀ j, j ≠ i → ¬ Applying (pool.code j)

instance {ι σ : Type} [DecidableEq ι] [Fintype ι] (pool : Callers ι σ) (i : ι) :
    Decidable (ReadsAlone pool i) :=
  inferInstanceAs (Decidable (_ → ∀ _, _))

/-- What concurrent calls should achieve: no body is executed twice, nobody fails but for a lock,
and once all have returned the ledger is clean at the newest version. -/
structure MigratedOnce {ι σ : Type} (source : Source) (pool : Callers ι σ) : Prop where
  /-- No body has been executed twice. -/
  once : pool.shared.executed.Nodup
  /-- Whoever fails does so because of a lock. -/
  unharmed : ∀ i error, pool.code i = .done (.error error) → error.is .locked = true
  /-- When all have returned, the newest version has been reached. -/
  newest : (∀ i, ∃ result, pool.code i = .done result) →
    ∃ newest : Nat, source.index.getLast? = some newest ∧
      pool.shared.db.version = some ((newest : Int), false)

/-! ## What the driver does when nothing fails -/

section Undisturbed

variable {σ : Type} (effect : String → σ → σ) (locked : Bool) (conn : Connection σ)

theorem undisturbed_create :
    ∃ last, handle effect undisturbed .create (locked, conn) = (.ok (), false, last) ∧
      last.db = conn.db.withTable ∧ last.executed = conn.executed := by
  refine ⟨_, rfl, rfl, ?_⟩
  exact List.append_nil _

theorem undisturbed_version {told : Int × Bool} (read : conn.db.version = some told) :
    ∃ last, handle effect undisturbed .version (locked, conn) = (.ok told, locked, last) ∧
      last.db = conn.db ∧ last.executed = conn.executed := by
  obtain ⟨⟨table, schema⟩, transaction, executed, clock⟩ := conn
  rcases table with _ | _ | ⟨row, rest⟩
  · simp [Db.version] at read
  · cases read
    exact ⟨_, rfl, rfl, rfl⟩
  · cases read
    exact ⟨_, rfl, rfl, rfl⟩

theorem undisturbed_setVersion (version : Int) (dirty : Bool) {rows : List Row}
    (present : conn.db.table = some rows) :
    ∃ last, handle effect undisturbed (.setVersion version dirty) (locked, conn) =
        (.ok (), locked, last) ∧
      last.db = conn.db.mark version dirty ∧ last.executed = conn.executed := by
  obtain ⟨⟨table, schema⟩, transaction, executed, clock⟩ := conn
  cases present
  by_cases told : 0 ≤ version ∨ (version = nilVersion ∧ dirty = true)
  · simp [handle, setVersion, sql, undisturbed, Statement.apply, Statement.bodies, told,
      commitWith, Db.mark]
  · simp [handle, setVersion, sql, undisturbed, Statement.apply, Statement.bodies, told,
      commitWith, Db.mark]

theorem undisturbed_run (body : Body) :
    ∃ last, handle effect undisturbed (.run body) (locked, conn) = (.ok (), locked, last) ∧
      last.db.table = conn.db.table ∧ last.executed = conn.executed ++ [body] :=
  ⟨_, rfl, rfl, rfl⟩

end Undisturbed

/-! ## Where a caller is -/

/-- What a call of `sqlite.MigrateUp` still does around what is left of `Up`. -/
def finish (rest : Driver (Except Error Unit)) : Driver (Except Error Unit) :=
  (rest >>= fun result => return upResult result) >>= fun result =>
    return wrapResult "migrate SQLite up" result

/-- What is left of a call that holds its lock. -/
def reading (source : Source) : Driver (Except Error Unit) :=
  finish (.call .version (migrateFrom (readUp source)))

/-- What is left of a call that has migrations to apply. -/
def applying (rest : Driver (Except Error Unit)) : Driver (Except Error Unit) :=
  finish (rest >>= unlockErr)

section Callers

variable {ι σ : Type} (source : Source) (pool : Callers ι σ) (i : ι)

/-- A caller that has not read the ledger yet. -/
inductive Idle : Prop
  | starting : pool.code i = Sqlite.migrateUp (.ok source) → Idle
  | created : pool.code i = finish (up source) → pool.owned i = false →
      pool.shared.db.table.isSome → Idle
  | holding : pool.code i = reading source → pool.owned i = true →
      pool.shared.db.table.isSome → Idle

/-- A caller with nothing left to apply, which will return or has returned without an error. -/
inductive Served : Prop
  | leaving {result : Except Error Unit} : pool.code i = finish (unlockErr result) →
      upResult result = .ok () → pool.owned i = true → Served
  | returned : pool.code i = .done (.ok ()) → Served

/-- A caller in the middle of its migrations, which has executed the ones before. -/
inductive Busy (start : Int) : Prop
  | marking {later count : Nat} : later ∈ source.index →
      pool.code i = applying (markDirty (newMigration source later later)
        (runMigrations (readUpFrom source later (count + 1)))) →
      pool.owned i = true → pool.shared.db.table.isSome →
      pool.shared.executed ++ bodies (.migration (newMigration source later later) ::
        readUpFrom source later (count + 1)) = bodies (readUp source start) → Busy start
  | running {later count : Nat} {body : Body} : later ∈ source.index →
      (newMigration source later later).body = some body →
      pool.code i = applying (applyBody (newMigration source later later)
        (runMigrations (readUpFrom source later (count + 1)))) →
      pool.owned i = true → pool.shared.db.table.isSome →
      pool.shared.executed ++ bodies (.migration (newMigration source later later) ::
        readUpFrom source later (count + 1)) = bodies (readUp source start) → Busy start
  | clearing {later count : Nat} : later ∈ source.index →
      pool.code i = applying (markClean (newMigration source later later)
        (runMigrations (readUpFrom source later (count + 1)))) →
      pool.owned i = true → pool.shared.db.table.isSome →
      pool.shared.executed ++ bodies (readUpFrom source later (count + 1)) =
        bodies (readUp source start) → Busy start

/-- How far all callers together are: nobody has read the ledger, or one caller applies what is
pending while nobody else has read it, or everything pending has been applied. -/
inductive Progress (start : Int) : Prop
  | before : (∀ i, Idle source pool i) →
      pool.shared.db.withTable.version = some (start, false) →
      pool.shared.executed = [] → Progress start
  | during (i : ι) : Busy source pool i start → (∀ j, j ≠ i → Idle source pool j) →
      Progress start
  | after {newest : Nat} : source.index.getLast? = some newest →
      pool.shared.db.version = some ((newest : Int), false) →
      pool.shared.executed = bodies (readUp source start) →
      (∀ i, Idle source pool i ∨ Served pool i) → Progress start

end Callers

/-! ## Steps -/

section Steps

variable {ι σ : Type} [DecidableEq ι] {source : Source} (effect : String → σ → σ)
  {pool : Callers ι σ} {i j : ι} {start : Int}

/-- A caller at rest does not notice the steps of another, which keep the table. -/
theorem Idle.advance {owned : Bool} {shared : Connection σ} {code : Driver (Except Error Unit)}
    (idle : Idle source pool j) (other : j ≠ i)
    (table : pool.shared.db.table.isSome → shared.db.table.isSome) :
    Idle source (pool.advance i owned shared code) j := by
  have same_code := pool.code_advance_of_ne owned shared code other
  have same_flag := pool.owned_advance_of_ne owned shared code other
  cases idle with
  | starting at_code => exact .starting (same_code.trans at_code)
  | created at_code flag present =>
      exact .created (same_code.trans at_code) (same_flag.trans flag) (table present)
  | holding at_code flag present =>
      exact .holding (same_code.trans at_code) (same_flag.trans flag) (table present)

theorem Served.advance {owned : Bool} {shared : Connection σ} {code : Driver (Except Error Unit)}
    (served : Served pool j) (other : j ≠ i) : Served (pool.advance i owned shared code) j := by
  have same_code := pool.code_advance_of_ne owned shared code other
  have same_flag := pool.owned_advance_of_ne owned shared code other
  cases served with
  | leaving at_code fine flag =>
      exact .leaving (same_code.trans at_code) fine (same_flag.trans flag)
  | returned at_code => exact .returned (same_code.trans at_code)

/-- Where the others are when one caller has moved. -/
theorem idle_or_served_advance {owned : Bool} {shared : Connection σ}
    {code : Driver (Except Error Unit)}
    (moved : Idle source (pool.advance i owned shared code) i ∨
      Served (pool.advance i owned shared code) i)
    (others : ∀ j, j ≠ i → Idle source pool j ∨ Served pool j)
    (table : pool.shared.db.table.isSome → shared.db.table.isSome) (j : ι) :
    Idle source (pool.advance i owned shared code) j ∨
      Served (pool.advance i owned shared code) j := by
  by_cases mover : j = i
  · exact mover ▸ moved
  · exact (others j mover).imp (fun idle => idle.advance mover table) fun served =>
      served.advance mover

theorem Busy.advance {owned : Bool} {shared : Connection σ} {code : Driver (Except Error Unit)}
    (busy : Busy source pool j start) (other : j ≠ i)
    (table : pool.shared.db.table.isSome → shared.db.table.isSome)
    (executed : shared.executed = pool.shared.executed) :
    Busy source (pool.advance i owned shared code) j start := by
  have same_code := pool.code_advance_of_ne owned shared code other
  have same_flag := pool.owned_advance_of_ne owned shared code other
  cases busy with
  | marking member at_code flag present pending =>
      refine .marking member (same_code.trans at_code) (same_flag.trans flag) (table present) ?_
      rw [Pool.shared_advance, executed]
      exact pending
  | running member runs at_code flag present pending =>
      refine .running member runs (same_code.trans at_code) (same_flag.trans flag)
        (table present) ?_
      rw [Pool.shared_advance, executed]
      exact pending
  | clearing member at_code flag present pending =>
      refine .clearing member (same_code.trans at_code) (same_flag.trans flag) (table present) ?_
      rw [Pool.shared_advance, executed]
      exact pending

/-- A caller at rest that does not read the ledger creates its driver or takes its own lock. -/
theorem Idle.step (idle : Idle source pool i) (quiet : ¬ Reading (pool.code i)) :
    ∃ owned shared code,
      pool.step (handle effect undisturbed) i = pool.advance i owned shared code ∧
        Idle source (pool.advance i owned shared code) i ∧
        (shared.db = pool.shared.db ∨ shared.db = pool.shared.db.withTable) ∧
        shared.executed = pool.shared.executed := by
  cases idle with
  | starting at_code =>
      obtain ⟨last, handled, table, executed⟩ :=
        undisturbed_create effect (pool.owned i) pool.shared
      refine ⟨_, _, _, Pool.step_of_call at_code handled, ?_, Or.inr table, executed⟩
      refine .created (pool.code_advance _ _ _) (pool.owned_advance _ _ _) ?_
      rw [Pool.shared_advance, table]
      rfl
  | created at_code flag present =>
      have handled : handle effect undisturbed .lock (pool.owned i, pool.shared) =
          (.ok (), true, pool.shared) := by
        rw [flag]
        rfl
      refine ⟨_, _, _, Pool.step_of_call at_code handled, ?_, Or.inl rfl, rfl⟩
      exact .holding (pool.code_advance _ _ _) (pool.owned_advance _ _ _) present
  | holding at_code flag present =>
      rw [at_code] at quiet
      exact absurd rfl quiet

/-- Reading a clean ledger leaves the migrations listed from its version to apply. -/
theorem reading_step {version : Int} (at_code : pool.code i = reading source)
    (told : pool.shared.db.version = some (version, false)) :
    ∃ shared, pool.step (handle effect undisturbed) i =
        pool.advance i (pool.owned i) shared (applying (runMigrations (readUp source version))) ∧
      shared.db = pool.shared.db ∧ shared.executed = pool.shared.executed := by
  obtain ⟨last, handled, same, executed⟩ :=
    undisturbed_version effect (pool.owned i) pool.shared told
  exact ⟨last, Pool.step_of_call at_code handled, same, executed⟩

/-- A caller with nothing to apply unlocks and returns without an error. -/
theorem Served.step (served : Served pool i) :
    ∃ owned code, pool.step (handle effect undisturbed) i =
        pool.advance i owned pool.shared code ∧
      Served (pool.advance i owned pool.shared code) i := by
  cases served with
  | @leaving result at_code fine flag =>
      have handled : handle effect undisturbed .unlock (pool.owned i, pool.shared) =
          (.ok (), false, pool.shared) := by
        rw [flag]
        rfl
      refine ⟨_, _, Pool.step_of_call at_code handled, .returned ?_⟩
      rw [Pool.code_advance]
      exact congrArg (fun r => Procedure.done (wrapResult "migrate SQLite up" r)) fine
  | returned at_code =>
      refine ⟨pool.owned i, pool.code i, ?_, .returned ?_⟩
      · rw [Pool.step_of_done at_code]
        simp [Pool.advance]
      · rw [Pool.code_advance, at_code]

theorem isSome_of_version {db : Db σ} {told : Int × Bool} (read : db.version = some told) :
    db.table.isSome = true := by
  obtain ⟨rows, table⟩ := table_of_version read
  rw [table]
  rfl

omit [DecidableEq ι] in
/-- A caller about to apply a list that starts with a migration is busy. -/
theorem Busy.of_items {later count : Nat} {items : List Item} (member : later ∈ source.index)
    (pending : items = .migration (newMigration source later later) ::
      readUpFrom source later (count + 1))
    (at_code : pool.code i = applying (runMigrations items)) (flag : pool.owned i = true)
    (present : pool.shared.db.table.isSome)
    (remaining : pool.shared.executed ++ bodies items = bodies (readUp source start)) :
    Busy source pool i start := by
  subst pending
  exact .marking member at_code flag present remaining

/-- The busy caller takes its next migration a step further, or has applied the last one. -/
theorem Busy.step (busy : Busy source pool i start) (others : ∀ j, j ≠ i → Idle source pool j) :
    Progress source (pool.step (handle effect undisturbed) i) start := by
  cases busy with
  | @marking later count member at_code flag present pending =>
      obtain ⟨rows, table⟩ := Option.isSome_iff_exists.mp present
      obtain ⟨last, handled, marked, executed⟩ :=
        undisturbed_setVersion effect (pool.owned i) pool.shared later true table
      have kept : last.db.table.isSome := by
        rw [marked]
        rfl
      rw [Pool.step_of_call at_code handled]
      refine .during i ?_ fun j other => (others j other).advance other fun _ => kept
      cases runs : (newMigration source later later).body with
      | none =>
          have cleared : applying (applyBody (newMigration source later later)
              (runMigrations (readUpFrom source later (count + 1)))) =
              applying (markClean (newMigration source later later)
                (runMigrations (readUpFrom source later (count + 1)))) := by
            simp only [applyBody, runs]
          refine .clearing member ((pool.code_advance _ _ _).trans cleared)
            ((pool.owned_advance _ _ _).trans flag) kept ?_
          simpa [executed, bodies, runs] using pending
      | some body =>
          refine .running member runs (pool.code_advance _ _ _)
            ((pool.owned_advance _ _ _).trans flag) kept ?_
          rw [Pool.shared_advance, executed]
          exact pending
  | @running later count body member runs at_code flag present pending =>
      obtain ⟨last, handled, table, executed⟩ :=
        undisturbed_run effect (pool.owned i) pool.shared body
      simp only [applying, applyBody, runs] at at_code
      rw [Pool.step_of_call at_code handled]
      have kept : last.db.table.isSome := by rwa [table]
      refine .during i ?_ fun j other => (others j other).advance other fun _ => kept
      refine .clearing member (pool.code_advance _ _ _)
        ((pool.owned_advance _ _ _).trans flag) kept ?_
      rw [Pool.shared_advance, executed, ← pending, bodies, runs]
      simp
  | @clearing later count member at_code flag present pending =>
      obtain ⟨rows, table⟩ := Option.isSome_iff_exists.mp present
      obtain ⟨last, handled, marked, executed⟩ :=
        undisturbed_setVersion effect (pool.owned i) pool.shared later false table
      have told : last.db.version = some ((later : Int), false) := by
        rw [marked]
        exact version_mark _ false (Or.inl (Int.natCast_nonneg later))
      have kept := isSome_of_version told
      rw [Pool.step_of_call at_code handled]
      rcases readUpFrom_cases source member count with ⟨finished, newest⟩ | ⟨next, behind, goes⟩
      · have left : applying (runMigrations (readUpFrom source later (count + 1))) =
            finish (unlockErr (.ok ())) := by
          rw [finished]
          rfl
        refine .after newest told ?_ (idle_or_served_advance (Or.inr ?_)
          (fun j other => Or.inl (others j other)) fun _ => kept)
        · rw [Pool.shared_advance, executed, ← pending, finished, bodies, List.append_nil]
        · exact .leaving ((pool.code_advance _ _ _).trans left) rfl
            ((pool.owned_advance _ _ _).trans flag)
      · refine .during i ?_ fun j other => (others j other).advance other fun _ => kept
        refine .of_items behind goes (pool.code_advance _ _ _)
          ((pool.owned_advance _ _ _).trans flag) kept ?_
        rw [Pool.shared_advance, executed, pending]

omit [DecidableEq ι] in
/-- The code of a caller that is marking, running or clearing has a migration to apply. -/
theorem Busy.applying (busy : Busy source pool i start) : Applying (pool.code i) := by
  cases busy with
  | marking member at_code =>
      rw [at_code]
      trivial
  | running member runs at_code =>
      simp only [Migrate.applying, applyBody, runs] at at_code
      rw [at_code]
      trivial
  | clearing member at_code =>
      rw [at_code]
      trivial

omit [DecidableEq ι] in
theorem Idle.of_reading (idle : Idle source pool i) (reads : Reading (pool.code i)) :
    pool.code i = reading source ∧ pool.owned i = true ∧ pool.shared.db.table.isSome := by
  cases idle with
  | starting at_code =>
      rw [at_code] at reads
      exact absurd reads Bool.false_ne_true
  | created at_code =>
      rw [at_code] at reads
      exact absurd reads Bool.false_ne_true
  | holding at_code flag present => exact ⟨at_code, flag, present⟩

theorem isSome_of_kept {before after : Db σ}
    (kept : after = before ∨ after = before.withTable) :
    before.table.isSome → after.table.isSome := by
  rcases kept with rfl | rfl
  · exact id
  · exact fun _ => rfl

theorem version_of_withTable {db : Db σ} {told : Int × Bool} (present : db.table.isSome)
    (read : db.withTable.version = some told) : db.version = some told := by
  obtain ⟨_ | rows, schema⟩ := db
  · simp at present
  · exact read

/-- No change is no error. -/
theorem leaving_noChange : upResult (.error .noChange) = .ok () := by decide

/-- The first caller to read the ledger has the pending migrations to itself, or finds none. -/
theorem Progress.step_before (nonempty : source.index ≠ []) (known : source.Position start)
    (idle : ∀ j, Idle source pool j) (told : pool.shared.db.withTable.version = some (start, false))
    (unexecuted : pool.shared.executed = []) (i : ι) :
    Progress source (pool.step (handle effect undisturbed) i) start := by
  by_cases reads : Reading (pool.code i)
  · obtain ⟨at_code, flag, present⟩ := (idle i).of_reading reads
    have read := version_of_withTable present told
    obtain ⟨shared, stepped, same, executed⟩ := reading_step effect at_code read
    rw [stepped]
    have kept : shared.db.table.isSome := by rwa [same]
    rcases readUp_cases source nonempty known with
      ⟨nothing, newest, last, rfl⟩ | ⟨later, count, member, pending⟩
    · refine .after last (same ▸ read) ?_ (idle_or_served_advance (Or.inr ?_)
        (fun j _ => Or.inl (idle j)) fun _ => kept)
      · rw [Pool.shared_advance, executed, unexecuted, nothing]
        rfl
      · rw [nothing]
        exact .leaving (pool.code_advance _ _ _) leaving_noChange
          ((pool.owned_advance _ _ _).trans flag)
    · refine .during i ?_ fun j other => (idle j).advance other fun _ => kept
      refine .of_items member pending (pool.code_advance _ _ _)
        ((pool.owned_advance _ _ _).trans flag) kept ?_
      rw [Pool.shared_advance, executed, unexecuted, List.nil_append]
  · obtain ⟨owned, shared, code, stepped, moved, kept, executed⟩ := (idle i).step effect reads
    rw [stepped]
    refine .before (fun j => ?_) ?_ (executed.trans unexecuted)
    · by_cases mover : j = i
      · exact mover ▸ moved
      · exact (idle j).advance mover (isSome_of_kept kept)
    · rcases kept with same | created
      · rw [Pool.shared_advance, same]
        exact told
      · rw [Pool.shared_advance, created]
        exact version_withTable told

/-- Once everything is applied, whoever reads the ledger finds nothing to do. -/
theorem Progress.step_after {newest : Nat} (last : source.index.getLast? = some newest)
    (told : pool.shared.db.version = some ((newest : Int), false))
    (executed_all : pool.shared.executed = bodies (readUp source start))
    (placed : ∀ j, Idle source pool j ∨ Served pool j) (i : ι) :
    Progress source (pool.step (handle effect undisturbed) i) start := by
  have present := isSome_of_version told
  rcases placed i with idle | served
  · by_cases reads : Reading (pool.code i)
    · obtain ⟨at_code, flag, _⟩ := idle.of_reading reads
      obtain ⟨shared, stepped, same, executed⟩ := reading_step effect at_code told
      rw [stepped, readUp_newest source last]
      refine .after last (same ▸ told) (executed.trans executed_all)
        (idle_or_served_advance (Or.inr ?_) (fun j _ => placed j) fun _ => same ▸ present)
      exact .leaving (pool.code_advance _ _ _) leaving_noChange
        ((pool.owned_advance _ _ _).trans flag)
    · obtain ⟨owned, shared, code, stepped, moved, kept, executed⟩ := idle.step effect reads
      have same : shared.db = pool.shared.db := by
        rcases kept with same | created
        · exact same
        · exact created.trans (withTable_of_version told)
      rw [stepped]
      exact .after last (same ▸ told) (executed.trans executed_all)
        (idle_or_served_advance (Or.inl moved) (fun j _ => placed j) (isSome_of_kept kept))
  · obtain ⟨owned, code, stepped, moved⟩ := served.step effect
    rw [stepped]
    exact .after last told executed_all
      (idle_or_served_advance (Or.inr moved) (fun j _ => placed j) id)

/-- Callers that read alone keep their joint progress. -/
theorem Progress.step (nonempty : source.index ≠ []) (known : source.Position start)
    (progress : Progress source pool start) (i : ι) (alone : ReadsAlone pool i) :
    Progress source (pool.step (handle effect undisturbed) i) start := by
  cases progress with
  | before idle told unexecuted => exact step_before effect nonempty known idle told unexecuted i
  | during b busy others =>
      by_cases mover : i = b
      · subst mover
        exact busy.step effect others
      · have quiet : ¬ Reading (pool.code i) := fun reads =>
          alone reads b (Ne.symm mover) busy.applying
        obtain ⟨owned, shared, code, stepped, moved, kept, executed⟩ :=
          (others i mover).step effect quiet
        rw [stepped]
        refine .during b (busy.advance (Ne.symm mover) (isSome_of_kept kept) executed) ?_
        intro j other
        by_cases same : j = i
        · exact same ▸ moved
        · exact (others j other).advance same (isSome_of_kept kept)
  | after last told executed_all placed => exact step_after effect last told executed_all placed i

omit [DecidableEq ι] in
theorem Idle.code_ne_done (idle : Idle source pool i) (result : Except Error Unit) :
    pool.code i ≠ .done result := by
  cases idle with
  | starting at_code =>
      rw [at_code]
      exact nofun
  | created at_code =>
      rw [at_code]
      exact nofun
  | holding at_code =>
      rw [at_code]
      exact nofun

omit [DecidableEq ι] in
theorem Busy.code_ne_done (busy : Busy source pool i start) (result : Except Error Unit) :
    pool.code i ≠ .done result := by
  intro finished
  have applies := busy.applying
  rw [finished] at applies
  exact Bool.false_ne_true applies

omit [DecidableEq ι] in
theorem Busy.executed (busy : Busy source pool i start) :
    ∃ rest, pool.shared.executed ++ rest = bodies (readUp source start) := by
  cases busy with
  | marking _ _ _ _ pending => exact ⟨_, pending⟩
  | running _ _ _ _ _ pending => exact ⟨_, pending⟩
  | clearing _ _ _ _ pending => exact ⟨_, pending⟩

omit [DecidableEq ι] in
theorem Served.ok_of_done (served : Served pool i) {result : Except Error Unit}
    (finished : pool.code i = .done result) : result = .ok () := by
  cases served with
  | leaving at_code =>
      rw [at_code] at finished
      exact nomatch finished
  | returned at_code =>
      rw [at_code] at finished
      cases finished
      rfl

omit [DecidableEq ι] in
/-- Joint progress is all that was to be achieved. -/
theorem Progress.migratedOnce [Nonempty ι] (progress : Progress source pool start) :
    MigratedOnce source pool := by
  have distinct := nodup_bodies_readUp source start
  obtain ⟨someone⟩ := ‹Nonempty ι›
  cases progress with
  | before idle told unexecuted =>
      refine ⟨unexecuted ▸ List.nodup_nil, ?_, ?_⟩
      · intro i error failed
        exact absurd failed ((idle i).code_ne_done _)
      · intro returned
        obtain ⟨result, finished⟩ := returned someone
        exact absurd finished ((idle someone).code_ne_done result)
  | during b busy others =>
      refine ⟨?_, ?_, ?_⟩
      · obtain ⟨rest, pending⟩ := busy.executed
        rw [← pending, List.nodup_append] at distinct
        exact distinct.1
      · intro i error failed
        by_cases same : i = b
        · exact absurd (same ▸ failed) (busy.code_ne_done _)
        · exact absurd failed ((others i same).code_ne_done _)
      · intro returned
        obtain ⟨result, finished⟩ := returned b
        exact absurd finished (busy.code_ne_done result)
  | after last told executed_all placed =>
      refine ⟨executed_all ▸ distinct, ?_, fun _ => ⟨_, last, told⟩⟩
      intro i error failed
      rcases placed i with idle | served
      · exact absurd failed (idle.code_ne_done _)
      · exact nomatch served.ok_of_done failed

end Steps

/-! ## Every interleaving -/

/-- From a clean ledger at no version or one of the source, through every interleaving in which
the ledger is read only while no other caller has a migration to apply: no body is executed
twice, nobody fails, and the ledger ends clean at the newest version. -/
theorem migratedOnce_of_readsAlone {ι σ : Type} [DecidableEq ι] [Nonempty ι] (source : Source)
    (nonempty : source.index ≠ []) (effect : String → σ → σ) (db : Db σ) (start : Int)
    (clean : db.withTable.version = some (start, false)) (known : source.Position start)
    (schedule : List ι)
    (alone : Pool.Guarded (handle effect undisturbed) ReadsAlone (callers ι source db) schedule) :
    MigratedOnce source ((callers ι source db).run (handle effect undisturbed) schedule) := by
  have begun : Progress source (callers ι source db) start :=
    .before (fun i => .starting rfl) clean rfl
  have keeps : ∀ (pool : Callers ι σ) i, Progress source pool start → ReadsAlone pool i →
      Progress source (pool.step (handle effect undisturbed) i) start :=
    fun pool i progress alone => progress.step effect nonempty known i alone
  exact (Pool.run_invariant keeps begun alone).migratedOnce

/-- Two callers one after the other: the second finds nothing to do. -/
theorem migratedOnce_of_readsAlone_sample :
    MigratedOnce countingSource ((callers Bool countingSource (⟨none, 0⟩ : Db Int)).run
      (handle counts undisturbed)
      [false, false, false, false, false, false, false, false, false, false,
        true, true, true, true]) :=
  migratedOnce_of_readsAlone countingSource (by decide) counts ⟨none, 0⟩ nilVersion rfl
    (Or.inl rfl) _ (by decide +kernel)

/-- Two callers in step: both find version 1 pending, and both execute its body. -/
theorem body_executed_twice :
    ∃ schedule : List Bool,
      ((callers Bool countingSource (⟨none, 0⟩ : Db Int)).run
        (handle counts undisturbed) schedule).shared.executed =
          [⟨1, .up, "+"⟩, ⟨1, .up, "+"⟩] ∧
      ¬ MigratedOnce countingSource
        ((callers Bool countingSource (⟨none, 0⟩ : Db Int)).run
          (handle counts undisturbed) schedule) := by
  have twice : ((callers Bool countingSource (⟨none, 0⟩ : Db Int)).run (handle counts undisturbed)
      [false, true, false, true, false, true, false, true, false, true]).shared.executed =
        [⟨1, .up, "+"⟩, ⟨1, .up, "+"⟩] := by decide +kernel
  refine ⟨_, twice, fun migrated => ?_⟩
  have distinct := migrated.once
  rw [twice] at distinct
  exact absurd distinct (by decide)

end CommonGo.Migrate
