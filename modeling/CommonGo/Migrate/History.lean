import CommonGo.Migrate.SqliteDriver

/-!
# The ledger and the schema

Calls of `sqlite.MigrateUp` and `sqlite.MigrateDown`, one after another, while any operation of
`database/sql` may fail.  At every moment the ledger tells where the schema is: at a clean version
the schema is what the up bodies up to that version make of the initial one, and at a dirty
version it lies on one side or the other of a single migration.  A dirty ledger stays as it is.
-/

namespace CommonGo.Migrate

open Program Sqlite

/-! ## Calls one after another -/

/-- A call of `sqlite.MigrateUp` or of `sqlite.MigrateDown`. -/
inductive Call where
  | up
  | down (steps : Int)
  deriving DecidableEq, Repr

/-- What a call does. -/
def Call.code (source : Source) : Call → Driver (Except Error Unit)
  | .up => Sqlite.migrateUp (.ok source)
  | .down steps => Sqlite.migrateDown (.ok source) steps

/-- Calls made one after another, whatever each returns. -/
def runCalls (source : Source) : List Call → Driver Unit
  | [] => return ()
  | call :: rest => do
      let _ ← call.code source
      runCalls source rest

/-! ## What calls keep -/

section Keeps

variable {σ α : Type} {effect : String → σ → σ} {faults : Nat → Outcome}
  {inv : Db σ → List Body → Prop}

/-- In every state the procedure passes through, the database and the executed bodies satisfy
`inv`. -/
def Keeps (effect : String → σ → σ) (faults : Nat → Outcome) (inv : Db σ → List Body → Prop)
    (p : Driver α) (state : Bool × Connection σ) : Prop :=
  p.wp (handle effect faults) (fun passed => inv passed.2.db passed.2.executed)
    (fun _ _ => True) state

theorem keeps_done {a : α} {state : Bool × Connection σ}
    (holds : inv state.2.db state.2.executed) :
    Keeps effect faults inv (.done a) state := ⟨holds, trivial⟩

theorem keeps_bind {β : Type} {p : Driver α} {f : α → Driver β} {state : Bool × Connection σ}
    (first : Keeps effect faults inv p state)
    (rest : ∀ a last, inv last.2.db last.2.executed → Keeps effect faults inv (f a) last) :
    Keeps effect faults inv (p >>= f) state := by
  refine Procedure.wp_bind p (Procedure.wp_mono first ?_)
  intro a last holds _
  exact rest a last holds

theorem keeps_lock {next : Except Error Unit → Driver α} {state : Bool × Connection σ}
    (holds : inv state.2.db state.2.executed)
    (replied : ∀ reply locked, Keeps effect faults inv (next reply) (locked, state.2)) :
    Keeps effect faults inv (.call .lock next) state := ⟨holds, replied _ _⟩

theorem keeps_unlock {next : Except Error Unit → Driver α} {state : Bool × Connection σ}
    (holds : inv state.2.db state.2.executed)
    (replied : ∀ reply locked, Keeps effect faults inv (next reply) (locked, state.2)) :
    Keeps effect faults inv (.call .unlock next) state := ⟨holds, replied _ _⟩

theorem keeps_version {next : Except Error (Int × Bool) → Driver α}
    {state : Bool × Connection σ} (holds : inv state.2.db state.2.executed)
    (replied : ∀ reply last, last.2.db = state.2.db → last.2.executed = state.2.executed →
      (∀ told, reply = .ok told → state.2.db.version = some told) →
      Keeps effect faults inv (next reply) last) :
    Keeps effect faults inv (.call .version next) state := by
  obtain ⟨same, bodies, told⟩ := (@version_ensures _ effect faults state.2).run
  exact ⟨holds, replied _ _ same bodies told⟩

theorem keeps_create {next : Except Error Unit → Driver α} {state : Bool × Connection σ}
    (holds : inv state.2.db state.2.executed)
    (replied : ∀ reply last, Attempt state.2.db state.2.db.withTable reply last.2.db →
      last.2.executed = state.2.executed → Keeps effect faults inv (next reply) last) :
    Keeps effect faults inv (.call .create next) state := by
  obtain ⟨attempt, bodies⟩ := (@migrationDriver_ensures _ effect faults state.2).run
  exact ⟨holds, replied _ _ attempt bodies⟩

theorem keeps_setVersion {version : Int} {dirty : Bool} {next : Except Error Unit → Driver α}
    {state : Bool × Connection σ} {rows : List Row} (present : state.2.db.table = some rows)
    (holds : inv state.2.db state.2.executed)
    (replied : ∀ reply last, Attempt state.2.db (state.2.db.mark version dirty) reply last.2.db →
      Keeps effect faults inv (next reply) last) :
    Keeps effect faults inv (.call (.setVersion version dirty) next) state :=
  ⟨holds, replied _ _ (Ensures.run (setVersion_ensures present)).1⟩

theorem keeps_run {body : Body} {next : Except Error Unit → Driver α}
    {state : Bool × Connection σ} (holds : inv state.2.db state.2.executed)
    (replied : ∀ reply last,
      Attempt state.2.db { state.2.db with schema := effect body.contents state.2.db.schema }
        reply last.2.db → Keeps effect faults inv (next reply) last) :
    Keeps effect faults inv (.call (.run body) next) state :=
  ⟨holds, replied _ _ (Ensures.run (run_ensures body))⟩

theorem unlockErr_keeps (previous : Except Error Unit) {state : Bool × Connection σ}
    (holds : inv state.2.db state.2.executed) :
    Keeps effect faults inv (unlockErr previous) state := by
  refine keeps_unlock holds fun reply locked => ?_
  cases reply <;> cases previous <;> exact keeps_done holds

/-- Refusing a dirty ledger, and failing to read it, touch neither the database nor the bodies:
what a clean ledger leads to is all there is to show. -/
theorem lockAndMigrate_keeps {items : Int → List Item} {state : Bool × Connection σ}
    (holds : inv state.2.db state.2.executed)
    (clean : ∀ version middle, inv middle.2.db middle.2.executed →
      middle.2.db.version = some (version, false) →
      Keeps effect faults inv (runMigrations (items version)) middle) :
    Keeps effect faults inv (lockAndMigrate items) state := by
  refine keeps_lock holds fun reply locked => ?_
  cases reply with
  | error error => exact keeps_done holds
  | ok _ =>
      refine keeps_version holds fun reply last same bodies told => ?_
      have held : inv last.2.db last.2.executed := by rwa [same, bodies]
      rcases reply with error | ⟨version, dirty⟩
      · exact unlockErr_keeps _ held
      · have read : last.2.db.version = some (version, dirty) := by
          rw [same]
          exact told _ rfl
        cases dirty with
        | true => exact unlockErr_keeps _ held
        | false =>
            refine keeps_bind (p := runMigrations (items version)) (clean version last held read) ?_
            exact fun result after kept => unlockErr_keeps result kept

/-- A call keeps what creating the table keeps and what migrating from a clean ledger keeps. -/
theorem call_keeps {source : Source} (call : Call) {state : Bool × Connection σ}
    (holds : inv state.2.db state.2.executed)
    (created : ∀ db bodies, inv db bodies → inv db.withTable bodies)
    (clean : ∀ version items middle, Route source version items →
      inv middle.2.db middle.2.executed → middle.2.db.version = some (version, false) →
      Keeps effect faults inv (runMigrations items) middle) :
    Keeps effect faults inv (call.code source) state := by
  have migrates : ∀ items : Int → List Item, (∀ version, Route source version (items version)) →
      ∀ middle, inv middle.2.db middle.2.executed →
        Keeps effect faults inv (lockAndMigrate items) middle := by
    intro items routes middle held
    exact lockAndMigrate_keeps held fun version last => clean version _ last (routes version)
  have creates : ∀ (message : String) (migrate : Driver (Except Error Unit)),
      (∀ middle, inv middle.2.db middle.2.executed → Keeps effect faults inv migrate middle) →
      Keeps effect faults inv (withDriver message migrate) state := by
    intro message migrate kept
    refine keeps_create holds fun reply last attempt bodies => ?_
    have held : inv last.2.db last.2.executed := by
      rw [bodies]
      generalize last.2.db = after at attempt
      cases attempt with
      | done => exact created _ _ holds
      | failed error => exact holds
      | lost error => exact created _ _ holds
    cases reply with
    | error error => exact keeps_done held
    | ok _ => exact keeps_bind (p := migrate) (kept last held) fun _ _ kept => keeps_done kept
  cases call with
  | up =>
      refine creates _ _ fun middle held => ?_
      refine keeps_bind ?_ fun result after kept => keeps_done kept
      exact migrates _ (readUp_route source) middle held
  | down steps =>
      refine creates _ _ fun middle held => ?_
      unfold migrateDown
      split_ifs
      · exact keeps_done held
      · refine keeps_bind ?_ fun result after kept => keeps_done kept
        exact migrates _ (fun version => readDown_route source version _) middle held

/-- What every call keeps, calls one after another keep. -/
theorem runCalls_keeps {source : Source} (calls : List Call) {state : Bool × Connection σ}
    (holds : inv state.2.db state.2.executed)
    (each : ∀ (call : Call) middle, inv middle.2.db middle.2.executed →
      Keeps effect faults inv (call.code source) middle) :
    Keeps effect faults inv (runCalls source calls) state := by
  induction calls generalizing state with
  | nil => exact keeps_done holds
  | cons call rest ih => exact keeps_bind (each call state holds) fun _ last kept => ih kept

end Keeps

/-! ## Where the schema is -/

/-- What the file of a version and direction makes of a schema; a missing file leaves it. -/
def Source.runFile {σ : Type} (source : Source) (effect : String → σ → σ) (version : Nat)
    (direction : Direction) (schema : σ) : σ :=
  match source.files version direction with
  | none => schema
  | some contents => effect contents schema

/-- The initial schema after the up bodies of all versions up to one, in order. -/
def schemaAt {σ : Type} (source : Source) (effect : String → σ → σ) (initial : σ)
    (version : Int) : σ :=
  (source.index.filter fun (v : Nat) => (v : Int) ≤ version).foldl
    (fun schema v => source.runFile effect v .up schema) initial

/-- On the schema a migration is applied to, its down body undoes its up body. -/
def DownUndoesUp {σ : Type} (source : Source) (effect : String → σ → σ) (initial : σ) : Prop :=
  ∀ earlier later, Follows source earlier later →
    source.runFile effect later .down
        (source.runFile effect later .up (schemaAt source effect initial earlier)) =
      schemaAt source effect initial earlier

section Schema

variable {σ : Type} {source : Source} {effect : String → σ → σ} {initial : σ}

theorem Follows.lt {earlier : Int} {later : Nat} (follows : Follows source earlier later) :
    earlier < later := by
  cases follows with
  | first start =>
      rw [nilVersion]
      omega
  | next follows => exact Int.ofNat_lt.mpr (source.lt_of_next follows)

/-- A neighbour is the nil version or not negative, as `SetVersion` expects it. -/
theorem Follows.nil_or_nonneg {earlier : Int} {later : Nat}
    (follows : Follows source earlier later) : 0 ≤ earlier ∨ earlier = nilVersion := by
  cases follows with
  | first start => exact Or.inr rfl
  | next follows => exact Or.inl (Int.natCast_nonneg _)

private theorem filter_split {front back : List Nat} {version : Int}
    (low : ∀ v ∈ front, (v : Int) ≤ version) (high : ∀ v ∈ back, version < (v : Int)) :
    (front ++ back).filter (fun (v : Nat) => (v : Int) ≤ version) = front := by
  have kept : front.filter (fun (v : Nat) => (v : Int) ≤ version) = front :=
    List.filter_eq_self.mpr fun v member => by simpa using low v member
  have dropped : back.filter (fun (v : Nat) => (v : Int) ≤ version) = [] :=
    List.filter_eq_nil_iff.mpr fun v member => by simpa using high v member
  rw [List.filter_append, kept, dropped, List.append_nil]

/-- The index splits behind a version: smaller or equal ones in front, greater ones behind. -/
private theorem versions_upTo {front back : List Nat} {last : Nat}
    (split : source.index = front ++ last :: back) :
    source.index.filter (fun (v : Nat) => (v : Int) ≤ (last : Int)) = front ++ [last] := by
  have sorted := source.sorted
  rw [split, List.pairwise_append, List.pairwise_cons] at sorted
  rw [split, List.append_cons]
  refine filter_split ?_ ?_
  · intro v member
    rcases List.mem_append.mp member with before | same
    · exact Int.ofNat_le.mpr (sorted.2.2 v before last List.mem_cons_self).le
    · rw [List.mem_singleton.mp same]
  · intro v member
    exact Int.ofNat_lt.mpr (sorted.2.1.1 v member)

/-- No up body belongs to the nil version. -/
theorem schemaAt_nilVersion : schemaAt source effect initial nilVersion = initial := by
  have none : source.index.filter (fun (v : Nat) => (v : Int) ≤ nilVersion) = [] :=
    List.filter_eq_nil_iff.mpr fun v _ => by rw [decide_eq_true_eq, nilVersion]; omega
  rw [schemaAt, none]
  rfl

/-- One more version is one more up body. -/
theorem schemaAt_follows {earlier : Int} {later : Nat} (follows : Follows source earlier later) :
    schemaAt source effect initial later =
      source.runFile effect later .up (schemaAt source effect initial earlier) := by
  cases follows with
  | first start =>
      obtain ⟨rest, split⟩ := List.head?_eq_some_iff.mp start
      have one : source.index.filter (fun (v : Nat) => (v : Int) ≤ (later : Int)) = [] ++ [later] :=
        versions_upTo split
      rw [schemaAt_nilVersion, schemaAt, one]
      rfl
  | @next version _ follows =>
      obtain ⟨before, rest, split⟩ := source.split_of_next follows
      have shorter := versions_upTo split
      have longer := versions_upTo (split.trans (List.append_cons before version _))
      rw [schemaAt, schemaAt, longer, shorter, List.foldl_append]
      rfl

/-- What a migration makes of a schema: its body runs, if it has one. -/
def Migration.apply (migration : Migration) (effect : String → σ → σ) (schema : σ) : σ :=
  match migration.body with
  | none => schema
  | some body => effect body.contents schema

/-- A migration between neighbours takes the schema from one to the other. -/
theorem Moves.apply {version : Int} {migration : Migration}
    (undoes : DownUndoesUp source effect initial) (moves : Moves source version migration) :
    migration.apply effect (schemaAt source effect initial version) =
      schemaAt source effect initial migration.targetVersion := by
  have runs : ∀ (v : Nat) (direction : Direction) (target : Int) (schema : σ),
      Migration.apply ⟨v, target, source.read v direction⟩ effect schema =
        source.runFile effect v direction schema := by
    intro v direction target schema
    simp only [Migration.apply, Source.runFile, Source.read]
    cases source.files v direction <;> rfl
  cases moves with
  | @up earlier later follows =>
      rw [newMigration, if_pos (le_refl _), runs]
      exact (schemaAt_follows follows).symm
  | @down earlier later follows =>
      rw [newMigration, if_neg (not_le.mpr follows.lt), runs, schemaAt_follows follows]
      exact undoes earlier later follows

/-! ## The ledger tracks the schema -/

/-- The schema is that of one side or the other of the migration step between two neighbours, of
which the version told is one. -/
def MidStep (source : Source) (effect : String → σ → σ) (initial : σ) (told : Int) (schema : σ) :
    Prop :=
  ∃ earlier later, Follows source earlier later ∧ (told = earlier ∨ told = later) ∧
    (schema = schemaAt source effect initial earlier ∨
      schema = schemaAt source effect initial later)

/-- What the ledger tells is where the schema is.  A missing table is as good as an empty one. -/
inductive Tracks (source : Source) (effect : String → σ → σ) (initial : σ) (db : Db σ) : Prop
  | clean {version : Int} : db.withTable.version = some (version, false) →
      db.schema = schemaAt source effect initial version → Tracks source effect initial db
  | dirty {version : Int} : db.version = some (version, true) →
      MidStep source effect initial version db.schema → Tracks source effect initial db

theorem withTable_of_version {db : Db σ} {told : Int × Bool} (read : db.version = some told) :
    db.withTable = db := by
  obtain ⟨_ | rows, schema⟩ := db
  · simp [Db.version] at read
  · rfl

theorem version_withTable {db : Db σ} {told : Int × Bool} (read : db.version = some told) :
    db.withTable.version = some told := by
  rw [withTable_of_version read]
  exact read

theorem Tracks.withTable {db : Db σ} (tracks : Tracks source effect initial db) :
    Tracks source effect initial db.withTable := by
  cases tracks with
  | clean told schema => exact .clean (version_withTable told) schema
  | dirty told step => exact .dirty (version_withTable told) step

/-- A ledger that tells a clean version tells the one the schema is at. -/
theorem Tracks.schema_of_clean {db : Db σ} {version : Int}
    (tracks : Tracks source effect initial db) (read : db.version = some (version, false)) :
    db.schema = schemaAt source effect initial version := by
  cases tracks with
  | clean told schema =>
      rw [version_withTable read] at told
      simp only [Option.some.injEq, Prod.mk.injEq, and_true] at told
      rw [told]
      exact schema
  | dirty told step => simp [read] at told

/-- A ledger that tells a dirty version tells a neighbour of the step the schema is at. -/
theorem Tracks.midStep_of_dirty {db : Db σ} {version : Int}
    (tracks : Tracks source effect initial db) (read : db.version = some (version, true)) :
    MidStep source effect initial version db.schema := by
  cases tracks with
  | clean told schema =>
      rw [version_withTable read] at told
      simp at told
  | dirty told step =>
      rw [read] at told
      simp only [Option.some.injEq, Prod.mk.injEq, and_true] at told
      rw [told]
      exact step

theorem version_mark (db : Db σ) {version : Int} (dirty : Bool)
    (expected : 0 ≤ version ∨ version = nilVersion) :
    (db.mark version dirty).version = some (version, dirty) := by
  by_cases told : 0 ≤ version ∨ (version = nilVersion ∧ dirty = true)
  · simp [Db.version, Db.mark, told]
  · have absent : version = nilVersion ∧ dirty = false := by
      rcases expected with nonneg | same
      · exact absurd (Or.inl nonneg) told
      · exact ⟨same, by simpa [same, nilVersion] using told⟩
    rw [absent.1, absent.2]
    rfl

theorem table_of_version {db : Db σ} {told : Int × Bool} (read : db.version = some told) :
    ∃ rows, db.table = some rows := by
  obtain ⟨rows, table, _⟩ := Option.map_eq_some_iff.mp read
  exact ⟨rows, table⟩

theorem Moves.expected {version : Int} {migration : Migration}
    (moves : Moves source version migration) :
    0 ≤ migration.targetVersion ∨ migration.targetVersion = nilVersion := by
  cases moves with
  | up follows => exact Or.inl (Int.natCast_nonneg _)
  | down follows => exact follows.nil_or_nonneg

theorem Moves.midStep {version : Int} {migration : Migration} {schema : σ}
    (moves : Moves source version migration)
    (side : schema = schemaAt source effect initial version ∨
      schema = schemaAt source effect initial migration.targetVersion) :
    MidStep source effect initial migration.targetVersion schema := by
  cases moves with
  | up follows => exact ⟨_, _, follows, Or.inr rfl, side⟩
  | down follows => exact ⟨_, _, follows, Or.inl rfl, side.symm⟩

variable {faults : Nat → Outcome} {version : Int} {migration : Migration}
  {next : Driver (Except Error Unit)} {state : Bool × Connection σ}

/-- Marking clean ends the step: the ledger is clean at the target, or still dirty. -/
theorem markClean_keeps (moves : Moves source version migration)
    (told : state.2.db.version = some (migration.targetVersion, true))
    (schema : state.2.db.schema = schemaAt source effect initial migration.targetVersion)
    (continues : ∀ last, last.2.db.version = some (migration.targetVersion, false) →
      last.2.db.schema = schemaAt source effect initial migration.targetVersion →
      Keeps effect faults (fun db _ => Tracks source effect initial db) next last) :
    Keeps effect faults (fun db _ => Tracks source effect initial db)
      (markClean migration next) state := by
  obtain ⟨rows, present⟩ := table_of_version told
  have dirty := Tracks.dirty told (moves.midStep (Or.inr schema))
  have marked := version_mark state.2.db false moves.expected
  refine keeps_setVersion present dirty fun reply last attempt => ?_
  generalize after_eq : last.2.db = after at attempt
  cases attempt with
  | done => exact continues last (after_eq ▸ marked) (after_eq ▸ schema)
  | failed error => exact keeps_done (after_eq ▸ dirty)
  | lost error => exact keeps_done (after_eq ▸ .clean (version_withTable marked) schema)

/-- Running the body takes the schema to the other side of the step. -/
theorem applyBody_keeps (undoes : DownUndoesUp source effect initial)
    (moves : Moves source version migration)
    (told : state.2.db.version = some (migration.targetVersion, true))
    (schema : state.2.db.schema = schemaAt source effect initial version)
    (continues : ∀ last, last.2.db.version = some (migration.targetVersion, false) →
      last.2.db.schema = schemaAt source effect initial migration.targetVersion →
      Keeps effect faults (fun db _ => Tracks source effect initial db) next last) :
    Keeps effect faults (fun db _ => Tracks source effect initial db)
      (applyBody migration next) state := by
  have applied := moves.apply undoes
  unfold applyBody
  cases runs : migration.body with
  | none =>
      simp only [Migration.apply, runs] at applied
      exact markClean_keeps moves told (schema.trans applied) continues
  | some body =>
      simp only [Migration.apply, runs] at applied
      rw [← schema] at applied
      have before := Tracks.dirty told (moves.midStep (Or.inl schema))
      refine keeps_run before fun reply last attempt => ?_
      generalize after_eq : last.2.db = after at attempt
      cases attempt with
      | done =>
          refine markClean_keeps moves ?_ ?_ continues
          · rw [after_eq]
            exact told
          · rw [after_eq]
            exact applied
      | failed error => exact keeps_done (after_eq ▸ before)
      | lost error =>
          refine keeps_done (after_eq ▸ .dirty ?_ (moves.midStep (Or.inr applied)))
          exact told

/-- Migrations along a route keep the ledger and the schema together. -/
theorem runMigrations_keeps (undoes : DownUndoesUp source effect initial) {items : List Item}
    (route : Route source version items) (told : state.2.db.version = some (version, false))
    (schema : state.2.db.schema = schemaAt source effect initial version) :
    Keeps effect faults (fun db _ => Tracks source effect initial db)
      (runMigrations items) state := by
  induction route generalizing state with
  | stop version => exact keeps_done (.clean (version_withTable told) schema)
  | error version error rest => exact keeps_done (.clean (version_withTable told) schema)
  | @move version migration rest moves route ih =>
      obtain ⟨rows, present⟩ := table_of_version told
      have clean := Tracks.clean (version_withTable told) schema
      have marked := version_mark state.2.db true moves.expected
      refine keeps_setVersion present clean fun reply last attempt => ?_
      generalize after_eq : last.2.db = after at attempt
      cases attempt with
      | done =>
          refine applyBody_keeps undoes moves ?_ ?_ fun last read at_target => ih read at_target
          · rw [after_eq]
            exact marked
          · rw [after_eq]
            exact schema
      | failed error => exact keeps_done (after_eq ▸ clean)
      | lost error => exact keeps_done (after_eq ▸ .dirty marked (moves.midStep (Or.inl schema)))

/-- Every call keeps the ledger and the schema together. -/
theorem call_tracks (undoes : DownUndoesUp source effect initial) (call : Call)
    (tracks : Tracks source effect initial state.2.db) :
    Keeps effect faults (fun db _ => Tracks source effect initial db)
      (call.code source) state := by
  refine call_keeps call tracks (fun db _ kept => kept.withTable) ?_
  intro version items middle route kept told
  exact runMigrations_keeps undoes route told (kept.schema_of_clean told)

/-- A dirty ledger: no call changes the database or executes a body. -/
theorem call_frozen (call : Call) {db : Db σ} {bodies : List Body}
    (told : db.version = some (version, true)) (same : state.2.db = db)
    (executed : state.2.executed = bodies) :
    Keeps effect faults (fun passed executed => passed = db ∧ executed = bodies)
      (call.code source) state := by
  refine call_keeps call ⟨same, executed⟩ ?_ ?_
  · rintro db bodies ⟨rfl, rfl⟩
    exact ⟨withTable_of_version told, rfl⟩
  · intro version items middle route kept read
    rw [kept.1, told] at read
    simp at read

end Schema

/-- From a fresh ledger, through every sequence of calls and every failure: in every state passed
through, a clean ledger tells the version whose up bodies made the schema, and a dirty one tells a
neighbour of the one step the schema lies before or behind; and once a call leaves the ledger
dirty, later calls leave the database and the executed bodies as they are. -/
theorem ledger_tracks_schema {σ : Type} (source : Source) (effect : String → σ → σ) (initial : σ)
    (undoes : DownUndoesUp source effect initial) (faults : Nat → Outcome) (calls : List Call)
    (start : Bool × Connection σ)
    (fresh : start.2.db.table = none ∨ start.2.db.table = some [])
    (unmigrated : start.2.db.schema = initial) :
    (∀ passed ∈ (runCalls source calls).states (handle effect faults) start,
      ∀ version dirty, passed.2.db.version = some (version, dirty) →
        if dirty then MidStep source effect initial version passed.2.db.schema
        else passed.2.db.schema = schemaAt source effect initial version) ∧
      ∀ later version,
        let middle := ((runCalls source calls).run (handle effect faults) start).2
        middle.2.db.version = some (version, true) →
          ∀ passed ∈ (runCalls source later).states (handle effect faults) middle,
            passed.2.db = middle.2.db ∧ passed.2.executed = middle.2.executed := by
  have told : start.2.db.withTable.version = some (nilVersion, false) := by
    rcases fresh with table | table <;> simp [Db.version, Db.withTable, table]
  have tracks : Tracks source effect initial start.2.db :=
    .clean told (unmigrated.trans schemaAt_nilVersion.symm)
  have kept : Keeps effect faults (fun db _ => Tracks source effect initial db)
      (runCalls source calls) start :=
    runCalls_keeps calls tracks fun call middle => call_tracks undoes call
  constructor
  · intro passed member version dirty read
    have holds := ((Procedure.wp_iff _ _ _).mp kept).1 passed member
    cases dirty with
    | true => exact holds.midStep_of_dirty read
    | false => exact holds.schema_of_clean read
  · intro later version middle read passed member
    have frozen : Keeps effect faults
        (fun db executed => db = middle.2.db ∧ executed = middle.2.executed)
        (runCalls source later) middle :=
      runCalls_keeps later ⟨rfl, rfl⟩ fun call last kept => call_frozen call read kept.1 kept.2
    exact ((Procedure.wp_iff _ _ _).mp frozen).1 passed member

/-- Two versions whose up bodies count up and whose down bodies count down. -/
def countingSource : Source where
  index := [1, 2]
  files version direction :=
    if version = 1 ∨ version = 2 then
      match direction with
      | .up => some "+"
      | .down => some "-"
    else none
  sorted := by decide
  fits := by decide
  indexed version := by by_cases known : version = 1 ∨ version = 2 <;> simp [known]

/-- What the bodies of the counting source mean. -/
def counts (contents : String) (schema : Int) : Int :=
  if contents = "+" then schema + 1 else schema - 1

/-- The commit of the second migration's body fails, and nothing else. -/
def secondBodyFails : Nat → Outcome := fun n => if n = 22 then .failure else .success

/-- Where `MigrateUp` then leaves an empty database. -/
def stoppedMigration : Bool × Connection Int :=
  ((runCalls countingSource [.up]).run (handle counts secondBodyFails)
    (false, ⟨⟨none, 0⟩, none, [], 0⟩)).2

/-- The ledger is dirty at version 2, the schema is that of version 1, and both stay. -/
theorem ledger_tracks_schema_sample :
    stoppedMigration.2.db = ⟨some [⟨2, true⟩], 1⟩ ∧
      ∀ passed ∈ (runCalls countingSource [.up, .down 1]).states
          (handle counts secondBodyFails) stoppedMigration,
        passed.2.db = stoppedMigration.2.db ∧
          passed.2.executed = stoppedMigration.2.executed := by
  have undoes : DownUndoesUp countingSource counts 0 := by
    intro earlier later _
    by_cases known : later = 1 ∨ later = 2 <;>
      simp [Source.runFile, countingSource, counts, known]
  have stopped : stoppedMigration.2.db = ⟨some [⟨2, true⟩], 1⟩ := by decide +kernel
  have told : stoppedMigration.2.db.version = some (2, true) := by
    rw [stopped]
    rfl
  exact ⟨stopped, (ledger_tracks_schema countingSource counts 0 undoes secondBodyFails [.up]
    (false, ⟨⟨none, 0⟩, none, [], 0⟩) (Or.inl rfl) rfl).2 [.up, .down 1] 2 told⟩

end CommonGo.Migrate
