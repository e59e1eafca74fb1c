import CommonGo.Migrate.Server

/-!
# The ledger on a database server

Every call is safe by itself: it touches the database only while it has the lock, and then keeps a
clean ledger true.  So the ledger is true however the calls interleave.
-/

namespace CommonGo.Migrate

open Program Sqlite
open Sql (Package)

variable {ι σ : Type} {source : Source} {effect : String → σ → σ} {initial : σ}

/-- A clean ledger tells where the schema is, and the table has one row at most. -/
structure Truthful (source : Source) (effect : String → σ → σ) (initial : σ) (db : Db σ) :
    Prop where
  /-- The table has one row at most. -/
  single : ∀ rows, db.table = some rows → rows.length ≤ 1
  /-- A clean row tells the version of the schema. -/
  clean : ∀ version, db.withTable.version = some (version, false) →
    db.schema = schemaAt source effect initial version

/-! ## Migrations that lead somewhere -/

/-- Migrations each of which takes the schema from where the one before left it to its target. -/
inductive Leads (source : Source) (effect : String → σ → σ) (initial : σ) :
    Int → List Item → Prop
  | stop (version : Int) : Leads source effect initial version []
  | error (version : Int) (error : Error) (rest : List Item) :
      Leads source effect initial version (.error error :: rest)
  | move {version : Int} {migration : Migration} {rest : List Item}
      (applied : migration.apply effect (schemaAt source effect initial version) =
        schemaAt source effect initial migration.targetVersion)
      (expected : 0 ≤ migration.targetVersion ∨ migration.targetVersion = nilVersion)
      (later : Leads source effect initial migration.targetVersion rest) :
      Leads source effect initial version (.migration migration :: rest)

theorem leads_of_route {version : Int} {items : List Item}
    (undoes : DownUndoesUp source effect initial) (route : Route source version items) :
    Leads source effect initial version items := by
  induction route with
  | stop version => exact .stop version
  | error version error rest => exact .error version error rest
  | move moves _ ih => exact .move (moves.apply undoes) moves.expected ih

/-- Going up needs no down bodies. -/
theorem apply_newMigration {earlier : Int} {later : Nat} (follows : Follows source earlier later) :
    (newMigration source later later).apply effect (schemaAt source effect initial earlier) =
      schemaAt source effect initial later := by
  rw [schemaAt_follows follows]
  simp only [Migration.apply, newMigration, if_pos (le_refl (later : Int)), Source.runFile,
    Source.read]
  cases source.files later .up <;> rfl

theorem leads_up {earlier : Int} {later : Nat} {rest : List Item}
    (follows : Follows source earlier later) (onwards : Leads source effect initial later rest) :
    Leads source effect initial earlier (.migration (newMigration source later later) :: rest) :=
  .move (apply_newMigration follows) (Or.inl (Int.natCast_nonneg _)) onwards

theorem leads_readUpFrom (version count : Nat) :
    Leads source effect initial version (readUpFrom source version count) := by
  fun_induction readUpFrom source version count with
  | case1 version => exact .error _ _ _
  | case2 version count follows started => exact .stop _
  | case3 version count next follows ih => exact leads_up (.next follows) ih

theorem leads_readUp (version : Int) :
    Leads source effect initial version (readUp source version) := by
  unfold readUp
  split_ifs with missing empty negative
  · exact .error _ _ _
  · rw [empty]
    cases start : source.first with
    | none => exact .error _ _ _
    | some first => exact leads_up (.first start) (leads_readUpFrom first 1)
  · exact .error _ _ _
  · have leads : Leads source effect initial version.toNat (readUpFrom source version.toNat 0) :=
      leads_readUpFrom version.toNat 0
    rwa [Int.toNat_of_nonneg (not_lt.mp negative)] at leads

/-! ## What the operations do -/

section Operations

variable {package : Package} {db after : Db σ} {fault : Fault σ}

theorem attempt_attempts (fault : Fault σ) (before intended : Db σ) :
    Attempt before intended (fault.attempt before intended).1
      (fault.attempt before intended).2 := by
  cases fault with
  | none => exact .done
  | failed error => exact .failed error
  | lost error => exact .lost error
  | broken error schema => exact .failed error

/-- A table of one row at most has nothing left when it has been cleared. -/
theorem cleared_eq_nil {rows : List Row} (few : rows.length ≤ 1) : cleared package rows = [] := by
  cases package with
  | mysql => exact List.drop_eq_nil_of_le few
  | postgresql => rfl

theorem rewritten_eq {rows : List Row} (few : rows.length ≤ 1) (version : Int) (dirty : Bool) :
    rewritten package version dirty rows =
      some (if 0 ≤ version ∨ (version = nilVersion ∧ dirty) then [⟨version, dirty⟩] else []) := by
  rw [rewritten, cleared_eq_nil few]
  by_cases told : 0 ≤ version ∨ (version = nilVersion ∧ dirty)
  · rw [if_pos told, if_pos told]
    rfl
  · rw [if_neg told, if_neg told]

/-- Both packages mark a version as the other does. -/
theorem writeVersion_attempts (truthful : Truthful source effect initial db) (fault : Fault σ)
    (version : Int) (dirty : Bool) :
    Attempt db (db.mark version dirty) (writeVersion package fault version dirty db).1
      (writeVersion package fault version dirty db).2 := by
  unfold writeVersion
  cases present : db.table with
  | none => exact .failed _
  | some rows =>
      rw [Option.bind_some, rewritten_eq (truthful.single rows present)]
      exact attempt_attempts fault db (db.mark version dirty)

/-- A version that was read clean is where the schema is. -/
theorem Truthful.read {version : Int} (truthful : Truthful source effect initial db)
    (told : readVersion package fault db = .ok (version, false)) :
    db.schema = schemaAt source effect initial version := by
  unfold readVersion at told
  split at told
  · split at told
    · rename_i _ found
      cases told
      exact truthful.clean version (version_withTable found)
    · rename_i missing
      have absent : db.table = none := Option.map_eq_none_iff.mp missing
      cases package with
      | mysql => cases told
      | postgresql =>
          cases told
          refine truthful.clean nilVersion ?_
          rw [Db.withTable, absent]
          rfl
  all_goals cases told

theorem Truthful.withTable (truthful : Truthful source effect initial db) :
    Truthful source effect initial db.withTable := by
  refine ⟨fun rows present => ?_, fun version told => truthful.clean version ?_⟩
  · obtain ⟨_ | table, schema⟩ := db
    · cases present
      exact Nat.zero_le _
    · exact truthful.single rows present
  · obtain ⟨_ | table, schema⟩ := db
    · exact told
    · exact told

theorem single_mark (db : Db σ) (version : Int) (dirty : Bool) (rows : List Row)
    (present : (db.mark version dirty).table = some rows) : rows.length ≤ 1 := by
  cases present
  split_ifs <;> simp

/-- A dirty ledger tells nothing. -/
theorem truthful_dirty {version : Int}
    (single : ∀ rows, db.table = some rows → rows.length ≤ 1)
    (told : db.version = some (version, true)) : Truthful source effect initial db := by
  refine ⟨single, fun other clean => ?_⟩
  rw [version_withTable told] at clean
  cases clean

theorem truthful_clean {version : Int}
    (single : ∀ rows, db.table = some rows → rows.length ≤ 1)
    (told : db.version = some (version, false))
    (schema : db.schema = schemaAt source effect initial version) :
    Truthful source effect initial db := by
  refine ⟨single, fun other clean => ?_⟩
  rw [version_withTable told] at clean
  cases clean
  exact schema

end Operations

/-! ## Every call by itself -/

section Calls

variable {package : Package} {α : Type} {post : α → Option (Db σ) → Prop}

/-- Safe with the ledger kept true. -/
abbrev Harmless (package : Package) (source : Source) (effect : String → σ → σ) (initial : σ)
    (post : α → Option (Db σ) → Prop) (code : Driver α) (held : Option (Db σ)) : Prop :=
  Safe (lockProtocol package effect) (Truthful source effect initial) post code held

theorem harmless_lock {next : Except Error Unit → Driver α}
    (granted : ∀ db, Truthful source effect initial db →
      Harmless package source effect initial post (next (.ok ())) (some db))
    (refused : ∀ error, Harmless package source effect initial post (next (.error error)) none) :
    Harmless package source effect initial post (.call .lock next) none := by
  refine ⟨?_, ?_, ?_⟩
  · rintro reply rfl db truthful
    exact granted db truthful
  · rintro reply ⟨error, rfl⟩
    exact refused error
  · rintro db reply after ⟨⟩

/-- Unlocking is harmless with and without the lock. -/
theorem harmless_unlock {next : Except Error Unit → Driver α} {held : Option (Db σ)}
    (released : Harmless package source effect initial post (next (.ok ())) none)
    (refused : ∀ error held,
      Harmless package source effect initial post (next (.error error)) held) :
    Harmless package source effect initial post (.call .unlock next) held := by
  cases held with
  | none =>
      refine ⟨nofun, ?_, ?_⟩
      · rintro reply ⟨error, rfl⟩
        exact refused error none
      · rintro db reply after ⟨⟩
  | some db =>
      refine ⟨?_, ?_, ?_⟩
      · rintro (error | ⟨⟩) _
        · exact refused error none
        · exact released
      · rintro reply ⟨error, rfl⟩
        exact refused error (some db)
      · rintro reply after ⟨⟩

theorem harmless_version {next : Except Error (Int × Bool) → Driver α} {db : Db σ}
    (truthful : Truthful source effect initial db)
    (replied : ∀ reply, (∀ version, reply = .ok (version, false) →
      db.schema = schemaAt source effect initial version) →
      Harmless package source effect initial post (next reply) (some db)) :
    Harmless package source effect initial post (.call .version next) (some db) := by
  refine ⟨nofun, nofun, ?_⟩
  intro reply after works
  cases works with
  | version fault => exact ⟨truthful, replied _ fun version told => truthful.read told⟩

theorem harmless_setVersion {next : Except Error Unit → Driver α} {db : Db σ} {version : Int}
    {dirty : Bool} (truthful : Truthful source effect initial db)
    (replied : ∀ reply after, Attempt db (db.mark version dirty) reply after →
      Truthful source effect initial after ∧
        Harmless package source effect initial post (next reply) (some after)) :
    Harmless package source effect initial post (.call (.setVersion version dirty) next)
      (some db) := by
  refine ⟨nofun, nofun, ?_⟩
  intro reply after works
  cases works with
  | setVersion fault => exact replied _ _ (writeVersion_attempts truthful fault version dirty)

/-- Whatever becomes of a body, the ledger stays. -/
theorem harmless_run {next : Except Error Unit → Driver α} {db : Db σ} {body : Body}
    (kept : ∀ schema, Truthful source effect initial { db with schema })
    (done : Harmless package source effect initial post (next (.ok ()))
      (some { db with schema := effect body.contents db.schema }))
    (failed : ∀ error held,
      Harmless package source effect initial post (next (.error error)) held) :
    Harmless package source effect initial post (.call (.run body) next) (some db) := by
  refine ⟨nofun, nofun, ?_⟩
  intro reply after works
  cases works with
  | run fault =>
      cases fault with
      | none => exact ⟨kept _, done⟩
      | failed error => exact ⟨kept _, failed error _⟩
      | lost error => exact ⟨kept _, failed error _⟩
      | broken error schema => exact ⟨kept _, failed error _⟩

/-- A result, whoever has the lock. -/
def Any : α → Option (Db σ) → Prop := fun _ _ => True

/-- A failed call may still have the lock, a successful one has not. -/
def Unlocked : Except Error Unit → Option (Db σ) → Prop
  | .ok _, held => held = none
  | .error _, _ => True

theorem unlockErr_harmless (previous : Except Error Unit) (held : Option (Db σ)) :
    Harmless package source effect initial Unlocked (unlockErr previous) held := by
  refine harmless_unlock ?_ fun error held => ?_
  · cases previous with
    | ok _ => exact rfl
    | error error => exact trivial
  · cases previous with
    | ok _ => exact trivial
    | error error => exact trivial

theorem ensureVersionTable_harmless :
    Harmless package source effect initial Unlocked ensureVersionTable none := by
  refine harmless_lock (fun db truthful => ?_) fun error => trivial
  refine ⟨nofun, nofun, ?_⟩
  intro reply after works
  cases works with
  | create fault =>
      have attempt := attempt_attempts fault db db.withTable
      refine ⟨?_, unlockErr_harmless _ _⟩
      generalize (fault.attempt db db.withTable).1 = reply,
        (fault.attempt db db.withTable).2 = after at attempt
      cases attempt with
      | done => exact truthful.withTable
      | failed error => exact truthful
      | lost error => exact truthful.withTable

/-! ## Migrating -/

variable {db : Db σ} {migration : Migration} {next : Driver (Except Error Unit)}

theorem markClean_harmless
    (expected : 0 ≤ migration.targetVersion ∨ migration.targetVersion = nilVersion)
    (single : ∀ rows, db.table = some rows → rows.length ≤ 1)
    (told : db.version = some (migration.targetVersion, true))
    (schema : db.schema = schemaAt source effect initial migration.targetVersion)
    (continues : ∀ after : Db σ, Truthful source effect initial after →
      after.schema = schemaAt source effect initial migration.targetVersion →
      Harmless package source effect initial Any next (some after)) :
    Harmless package source effect initial Any (markClean migration next) (some db) := by
  have dirty : Truthful source effect initial db := truthful_dirty single told
  have clean : Truthful source effect initial (db.mark migration.targetVersion false) :=
    truthful_clean (single_mark db _ _) (version_mark db false expected) schema
  refine harmless_setVersion dirty fun reply after attempt => ?_
  cases attempt with
  | done => exact ⟨clean, continues _ clean schema⟩
  | failed error => exact ⟨dirty, trivial⟩
  | lost error => exact ⟨clean, trivial⟩

theorem applyBody_harmless {version : Int}
    (applied : migration.apply effect (schemaAt source effect initial version) =
      schemaAt source effect initial migration.targetVersion)
    (expected : 0 ≤ migration.targetVersion ∨ migration.targetVersion = nilVersion)
    (single : ∀ rows, db.table = some rows → rows.length ≤ 1)
    (told : db.version = some (migration.targetVersion, true))
    (schema : db.schema = schemaAt source effect initial version)
    (continues : ∀ after : Db σ, Truthful source effect initial after →
      after.schema = schemaAt source effect initial migration.targetVersion →
      Harmless package source effect initial Any next (some after)) :
    Harmless package source effect initial Any (applyBody migration next) (some db) := by
  unfold applyBody
  cases runs : migration.body with
  | none =>
      simp only [Migration.apply, runs] at applied
      exact markClean_harmless expected single told (schema.trans applied) continues
  | some body =>
      simp only [Migration.apply, runs] at applied
      rw [← schema] at applied
      refine harmless_run (fun schema => truthful_dirty single told) ?_ fun _ _ => trivial
      exact markClean_harmless expected single told applied continues

/-- Migrations that lead somewhere keep the ledger true all the way. -/
theorem runMigrations_harmless {version : Int} {items : List Item}
    (leads : Leads source effect initial version items)
    (truthful : Truthful source effect initial db)
    (schema : db.schema = schemaAt source effect initial version) :
    Harmless package source effect initial Any (runMigrations items) (some db) := by
  induction leads generalizing db with
  | stop version => exact trivial
  | error version error rest => exact trivial
  | @move version migration rest applied expected later ih =>
      have told := version_mark db true expected
      have single := single_mark db migration.targetVersion true
      refine harmless_setVersion truthful fun reply after attempt => ?_
      cases attempt with
      | done =>
          refine ⟨truthful_dirty single told, ?_⟩
          exact applyBody_harmless applied expected single told schema fun after kept reached =>
            ih kept reached
      | failed error => exact ⟨truthful, trivial⟩
      | lost error => exact ⟨truthful_dirty single told, trivial⟩

theorem migrateFrom_harmless {items : Int → List Item} {reply : Except Error (Int × Bool)}
    (leads : ∀ version, Leads source effect initial version (items version))
    (truthful : Truthful source effect initial db)
    (told : ∀ version, reply = .ok (version, false) →
      db.schema = schemaAt source effect initial version) :
    Harmless package source effect initial Any (migrateFrom items reply) (some db) := by
  have unlocks : ∀ (result : Except Error Unit) (held : Option (Db σ)),
      Harmless package source effect initial Any (unlockErr result) held :=
    fun result held => (unlockErr_harmless result held).mono fun _ _ _ => trivial
  rcases reply with error | ⟨version, dirty⟩
  · exact unlocks _ _
  · cases dirty with
    | true => exact unlocks _ _
    | false =>
        refine Safe.bind ?_
        refine (runMigrations_harmless (leads version) truthful (told version rfl)).mono ?_
        exact fun result held _ => unlocks result held

theorem lockAndMigrate_harmless {items : Int → List Item}
    (leads : ∀ version, Leads source effect initial version (items version)) :
    Harmless package source effect initial Any (lockAndMigrate items) none := by
  refine harmless_lock (fun db truthful => ?_) fun error => trivial
  refine Safe.bind (harmless_version truthful fun reply told => ?_)
  exact migrateFrom_harmless leads truthful told

theorem withMigrationDriver_harmless {closing : Option Error}
    {migrate : Driver (Except Error Unit)}
    (harmless : Harmless package source effect initial Any migrate none) :
    Harmless package source effect initial Any (withMigrationDriver package closing migrate)
      none := by
  refine Safe.bind (ensureVersionTable_harmless.mono ?_)
  rintro (error | ⟨⟩) held unlocked
  · exact trivial
  · cases unlocked
    exact Safe.bind (harmless.mono fun _ _ _ => trivial)

theorem call_harmless (call : Call) (closing : Option Error)
    (undoes : ∀ steps, call = .down steps → DownUndoesUp source effect initial) :
    Harmless package source effect initial Any (call.onServer package source closing) none := by
  cases call with
  | up =>
      refine withMigrationDriver_harmless (Safe.bind ?_)
      exact (lockAndMigrate_harmless leads_readUp).mono fun _ _ _ => trivial
  | down steps =>
      rw [Call.onServer]
      split_ifs with few
      · exact trivial
      · refine withMigrationDriver_harmless ?_
        rw [migrateDown, if_neg few]
        have leads := fun version =>
          leads_of_route (undoes steps rfl) (readDown_route source version steps.toNat)
        exact Safe.bind ((lockAndMigrate_harmless leads).mono fun _ _ _ => trivial)

end Calls

/-! ## All calls together -/

variable [DecidableEq ι] {package : Package} {calls : ι → Call} {closing : ι → Option Error}
  {prior : Db σ} {actions : List (ServerAction ι σ)} {server : Server ι σ}

/-- However the operations of the callers interleave, whichever fail and whatever a failed body
leaves behind, a clean ledger tells where the schema is. -/
theorem ledger_truthful (undoes : ∀ i steps, calls i = .down steps →
      DownUndoesUp source effect initial)
    (first : Truthful source effect initial prior)
    (ran : runFrom (Server.step package effect) (Server.start package source calls closing prior)
      actions = some server) :
    Truthful source effect initial server.contest.resource := by
  have sound : server.contest.Sound (lockProtocol package effect)
      (Truthful source effect initial) := by
    refine @runFrom_invariant _ _ (Server.step package effect)
      (Server.start package source calls closing prior) server actions
      (fun server => server.contest.Sound (lockProtocol package effect)
        (Truthful source effect initial)) ?_ ?_ ran
    · exact fun sound stepped => sound.step (Server.step_contest stepped)
    · refine ⟨first, fun i => ?_⟩
      exact call_harmless (calls i) (closing i) (undoes i)
  exact sound.holds

/-- One caller migrates up while the other one migrates down. -/
def upAndDown : Bool → Call
  | true => .up
  | false => .down 1

/-- The first one has all its migrations done and is told that the last mark failed; then the second
one undoes a migration. -/
def lostMark : List (ServerAction Bool Int) :=
  List.replicate 3 (.operate true .none) ++ List.replicate 3 (.operate false .none) ++
    List.replicate 7 (.operate true .none) ++ [.operate true (.lost (.other 1))] ++
    [.operate true .none] ++ List.replicate 6 (.operate false .none)

theorem ledger_truthful_lostMark : ∃ server : Server Bool Int,
    runFrom (Server.step .mysql counts)
        (Server.start .mysql countingSource upAndDown (fun _ => none) ⟨none, 0⟩)
        lostMark = some server ∧
      server.contest.resource = ⟨some [⟨1, false⟩], 1⟩ ∧
      Truthful countingSource counts 0 server.contest.resource := by
  have ends : (runFrom (Server.step .mysql counts)
      (Server.start .mysql countingSource upAndDown (fun _ => none) ⟨none, 0⟩) lostMark).map
      (·.contest.resource) = some ⟨some [⟨1, false⟩], 1⟩ := by decide +kernel
  obtain ⟨server, ran, resource⟩ := Option.map_eq_some_iff.mp ends
  have undoes : DownUndoesUp countingSource counts 0 := by
    intro earlier later _
    by_cases known : later = 1 ∨ later = 2 <;>
      simp [Source.runFile, countingSource, counts, known]
  have fresh : Truthful countingSource counts 0 ⟨none, 0⟩ := by
    refine ⟨by simp, fun version told => ?_⟩
    cases told
    rfl
  exact ⟨server, ran, resource, ledger_truthful (fun _ _ _ => undoes) fresh ran⟩

end CommonGo.Migrate
