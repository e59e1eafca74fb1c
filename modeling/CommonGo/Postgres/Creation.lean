import CommonGo.Postgres.Pools
import Mathlib.Data.Fintype.Basic

/-!
# Processes that create one database

Any number of processes make sure that a database exists, each with a connection of its own to one
server, and their operations interleave.  The check and the creation are two operations, and the
server refuses to create a database that exists: so a process fails exactly if another one created
the database between its check and its creation.
-/

namespace CommonGo.Postgres

open Go Program Sql

/-! ## The server -/

/-- The error of a creation that comes too late. -/
def alreadyExists (name : Bytes) : Sql.Error :=
  .driver (ascii "database \"" ++ name ++ ascii "\" already exists")

/-- A server that counts how often the database with a name was created.  Nothing fails but the
creation of a database that exists. -/
def serve (name : Bytes) : Handler Op Op.Reply (Unit × Nat)
  | .openDB, s => (0, s)
  | .sqlOpen _, s => (.ok 0, s)
  | .reserve _, s => (.ok 0, s)
  | .queryExists _ dbName, s => (.ok (dbName = name && s.2 != 0), s)
  | .exec _ query, s =>
      if query = createQuery name then
        if s.2 = 0 then (none, s.1, 1) else (some (alreadyExists name), s)
      else (none, s)
  | .newConnector _, s => (none, s)
  | .ping _, s => (none, s)
  | .wait, s => (none, s)
  | .initDialect _, s => (none, s)
  | .closePool _, s => (none, s)
  | .withConnection _, s => (none, s)
  | .migrate _ _, s => (none, s)
  | .closeConn _, s => (none, s)

/-- Processes in `ensureDatabaseExists`, over the number of creations. -/
abbrev Processes (ι : Type) := Pool ι Op Op.Reply Unit Nat (Option Sql.Error)

variable {ι : Type}

/-- All processes before their first step, on a server that has the database or not. -/
def processes (retries : ι → Nat) (cfg : ι → Config) (present : Bool) : Processes ι where
  shared := present.toNat
  owned := fun _ => ()
  code := fun i => ensureDatabaseExists (retries i) (cfg i)

/-- The next step is the check for the database. -/
def Checking {α : Type} : Action α → Bool
  | .call (.queryExists _ _) _ => true
  | _ => false

/-- The next step is the creation of the database. -/
def Creating {α : Type} : Action α → Bool
  | .call (.exec _ _) _ => true
  | _ => false

/-- A check that does not find the database is made only while no process is about to create it. -/
def ChecksAlone (pool : Processes ι) (i : ι) : Prop :=
  Checking (pool.code i) → pool.shared = 0 → ∀ j, ¬ Creating (pool.code j)

instance [Fintype ι] (pool : Processes ι) (i : ι) : Decidable (ChecksAlone pool i) :=
  inferInstanceAs (Decidable (_ → _ → ∀ _, _))

/-! ## Phases -/

/-- How far a process has got. -/
inductive Phase where
  | connecting
  | pinging
  | checking
  | creating
  | closing (result : Option Sql.Error)
  | finished (result : Option Sql.Error)
  deriving DecidableEq, Repr

/-- The process closes its pool and returns. -/
def closeAfter (result : Option Sql.Error) : Action (Option Sql.Error) := do
  let _ ← Procedure.perform (Op.closePool 0)
  return result

/-- A process goes on with some replies. -/
def resume {α : Type} (replies : (op : Op) → op.Reply) : Action α → Action α
  | .done a => .done a
  | .call op next => next (replies op)

/-- What a process has still to do. -/
def Phase.code (retries : Nat) (cfg : Config) : Phase → Action (Option Sql.Error)
  | .connecting => ensureDatabaseExists retries cfg
  | .pinging =>
      resume (fun op => (serve cfg.database op ((), 0)).1) (ensureDatabaseExists retries cfg)
  | .checking => createIfMissing 0 cfg.database >>= closeAfter
  | .creating => do
      closeAfter (wrapError (← createDatabase 0 cfg.database) "could not create database")
  | .closing result => closeAfter result
  | .finished result => .done result

/-- The error that a creation that comes too late ends with. -/
def tooLate (name : Bytes) : Sql.Error :=
  .wrap (.wrap (alreadyExists name) "could not create database") "could not create database"

/-- The processes and the number of creations. -/
structure Progress (ι : Type) where
  /-- Where each process is. -/
  phase : ι → Phase
  /-- How often the database has been created. -/
  created : Nat

namespace Progress

/-- The phase after the next step, and the number of creations. -/
def next (name : Bytes) (created : Nat) : Phase → Phase × Nat
  | .connecting => (.pinging, created)
  | .pinging => (.checking, created)
  | .checking => (if created = 0 then .creating else .closing none, created)
  | .creating =>
      if created = 0 then (.closing none, 1) else (.closing (some (tooLate name)), created)
  | .closing result => (.finished result, created)
  | .finished result => (.finished result, created)

/-- A process takes a step. -/
def step [DecidableEq ι] (name : Bytes) (progress : Progress ι) (i : ι) : Progress ι where
  phase := Function.update progress.phase i (next name progress.created (progress.phase i)).1
  created := (next name progress.created (progress.phase i)).2

/-- The processes that have got so far. -/
def pool (retries : ι → Nat) (cfg : ι → Config) (progress : Progress ι) : Processes ι where
  shared := progress.created
  owned := fun _ => ()
  code := fun i => (progress.phase i).code (retries i) (cfg i)

end Progress

theorem serve_query (name : Bytes) (created : Nat) :
    (serve name (.queryExists 0 name) ((), created)).1 = .ok (created != 0) := by
  simp [serve]

theorem serve_create (name : Bytes) (created : Nat) :
    serve name (.exec 0 (createQuery name)) ((), created) =
      if created = 0 then (none, (), 1) else (some (alreadyExists name), (), created) := by
  simp [serve]

/-- The operation of a phase leads to the next one. -/
theorem code_step (retries : Nat) (cfg : Config) (created : Nat) (phase : Phase)
    (unfinished : ∀ result, phase ≠ .finished result) :
    ∃ op next, phase.code retries cfg = .call op next ∧
      next (serve cfg.database op ((), created)).1 =
        (Progress.next cfg.database created phase).1.code retries cfg ∧
      (serve cfg.database op ((), created)).2.2 =
        (Progress.next cfg.database created phase).2 := by
  cases phase with
  | connecting => cases retries <;> exact ⟨_, _, rfl, rfl, rfl⟩
  | pinging => cases retries <;> exact ⟨_, _, rfl, rfl, rfl⟩
  | checking =>
      refine ⟨_, _, rfl, ?_, rfl⟩
      rw [serve_query, Progress.next]
      by_cases missing : created = 0
      · rw [if_pos missing, missing]
        rfl
      · rw [if_neg missing, bne_iff_ne.mpr missing]
        rfl
  | creating =>
      refine ⟨_, _, rfl, ?_⟩
      rw [serve_create, Progress.next]
      by_cases missing : created = 0
      · rw [if_pos missing, if_pos missing]
        exact ⟨rfl, rfl⟩
      · rw [if_neg missing, if_neg missing]
        exact ⟨rfl, rfl⟩
  | closing result => exact ⟨_, _, rfl, rfl, rfl⟩
  | finished result => exact absurd rfl (unfinished result)

section Processes

variable [DecidableEq ι] {retries : ι → Nat} {cfg : ι → Config} {name : Bytes}

/-- A step of the processes is a step of their phases. -/
theorem pool_step (same : ∀ i, (cfg i).database = name) (progress : Progress ι) (i : ι) :
    (progress.pool retries cfg).step (serve name) i = (progress.step name i).pool retries cfg := by
  have updated : ∀ phase : Phase, (fun j => (Function.update progress.phase i phase j).code
      (retries j) (cfg j)) = Function.update (fun j => (progress.phase j).code (retries j) (cfg j))
        i (phase.code (retries i) (cfg i)) := by
    intro phase
    funext j
    by_cases other : j = i
    · rw [other, Function.update_self, Function.update_self]
    · rw [Function.update_of_ne other, Function.update_of_ne other]
  by_cases unfinished : ∀ result, progress.phase i ≠ .finished result
  · obtain ⟨op, next, code, reply, created⟩ :=
      code_step (retries i) (cfg i) progress.created (progress.phase i) unfinished
    rw [same i] at reply created
    have calls : (progress.pool retries cfg).code i = .call op next := code
    have handled : serve name op ((progress.pool retries cfg).owned i,
        (progress.pool retries cfg).shared) = ((serve name op ((), progress.created)).1, (),
          (serve name op ((), progress.created)).2.2) := rfl
    rw [Pool.step_of_call calls handled, reply, created]
    simp only [Pool.advance, Progress.pool, Progress.step, updated]
  · obtain ⟨result, finished⟩ : ∃ result, progress.phase i = .finished result := by
      by_contra none_finished
      exact unfinished fun result finished => none_finished ⟨result, finished⟩
    have done : (progress.pool retries cfg).code i = .done result := by
      simp only [Progress.pool, finished]
      rfl
    rw [Pool.step_of_done done]
    simp only [Progress.pool, Progress.step, finished, Progress.next, updated]
    rw [← finished, Function.update_eq_self]

theorem pool_run (same : ∀ i, (cfg i).database = name) (progress : Progress ι)
    (schedule : List ι) :
    (progress.pool retries cfg).run (serve name) schedule =
      (schedule.foldl (Progress.step name) progress).pool retries cfg := by
  induction schedule generalizing progress with
  | nil => rfl
  | cons i schedule ih =>
      rw [Pool.run, List.foldl_cons, List.foldl_cons, pool_step same, ← ih]
      rfl

end Processes

/-! ## What a step does -/

theorem checking_iff (retries : Nat) (cfg : Config) (phase : Phase) :
    Checking (phase.code retries cfg) = true ↔ phase = .checking := by
  cases phase <;> cases retries <;> simp [Checking, Phase.code] <;> rfl

theorem creating_iff (retries : Nat) (cfg : Config) (phase : Phase) :
    Creating (phase.code retries cfg) = true ↔ phase = .creating := by
  cases phase <;> cases retries <;> simp [Creating, Phase.code] <;> rfl

theorem code_eq_done {retries : Nat} {cfg : Config} {phase : Phase} {result : Option Sql.Error}
    (done : phase.code retries cfg = .done result) : phase = .finished result := by
  cases phase with
  | finished other => cases done; rfl
  | connecting => cases retries <;> cases done
  | pinging => cases retries <;> cases done
  | checking => cases done
  | creating => cases done
  | closing other => cases done

namespace Progress

/-- A check that does not find the database is made only while no process is about to create it. -/
def Alone (progress : Progress ι) (i : ι) : Prop :=
  progress.phase i = .checking → progress.created = 0 → ∀ j, progress.phase j ≠ .creating

theorem checksAlone_iff {retries : ι → Nat} {cfg : ι → Config} (progress : Progress ι) (i : ι) :
    ChecksAlone (progress.pool retries cfg) i ↔ progress.Alone i := by
  simp only [ChecksAlone, pool, checking_iff, creating_iff, Alone, ne_eq]

variable [DecidableEq ι] {name : Bytes} {progress : Progress ι} {i j : ι}

theorem step_self : (progress.step name i).phase i =
    (next name progress.created (progress.phase i)).1 :=
  Function.update_self ..

theorem step_other (other : j ≠ i) : (progress.step name i).phase j = progress.phase j :=
  Function.update_of_ne other ..

/-- A process is about to create the database after a step only if it was before, or it has just
not found it. -/
theorem creating_of_step (creating : (progress.step name i).phase j = .creating) :
    j ≠ i ∧ progress.phase j = .creating ∨
      j = i ∧ progress.phase i = .checking ∧ progress.created = 0 := by
  by_cases other : j = i
  · subst other
    rw [step_self] at creating
    cases phase : progress.phase j with
    | checking =>
        rw [phase, next] at creating
        by_cases missing : progress.created = 0
        · exact Or.inr ⟨rfl, rfl, missing⟩
        · rw [if_neg missing] at creating
          cases creating
    | creating =>
        rw [phase, next] at creating
        by_cases missing : progress.created = 0
        · rw [if_pos missing] at creating
          cases creating
        · rw [if_neg missing] at creating
          cases creating
    | connecting => rw [phase] at creating; cases creating
    | pinging => rw [phase] at creating; cases creating
    | closing result => rw [phase] at creating; cases creating
    | finished result => rw [phase] at creating; cases creating
  · rw [step_other other] at creating
    exact Or.inl ⟨other, creating⟩

/-- The database is created by a step only if it was missing and the process was about to. -/
theorem created_step (name : Bytes) (progress : Progress ι) (i : ι) :
    (progress.step name i).created = progress.created ∨
      progress.phase i = .creating ∧ progress.created = 0 ∧
        (progress.step name i).created = 1 := by
  change (next name progress.created (progress.phase i)).2 = _ ∨ _
  cases phase : progress.phase i with
  | creating =>
      by_cases missing : progress.created = 0
      · refine Or.inr ⟨rfl, missing, ?_⟩
        change (next name progress.created (progress.phase i)).2 = 1
        rw [phase, next, if_pos missing]
      · rw [next, if_neg missing]
        exact Or.inl rfl
  | connecting => exact Or.inl rfl
  | pinging => exact Or.inl rfl
  | checking => exact Or.inl rfl
  | closing result => exact Or.inl rfl
  | finished result => exact Or.inl rfl

/-- The process has its result. -/
def Ended (result : Option Sql.Error) (phase : Phase) : Prop :=
  phase = .closing result ∨ phase = .finished result

/-- A process has a result after a step only if it had it before, or it has found the database, or
has tried to create it. -/
theorem ended_of_step {result : Option Sql.Error}
    (ended : Ended result ((progress.step name i).phase j)) :
    Ended result (progress.phase j) ∨
      progress.phase i = .checking ∧ progress.created ≠ 0 ∧ result = none ∨
      progress.phase i = .creating ∧ (progress.created = 0 → result = none) := by
  by_cases other : j = i
  · subst other
    rw [step_self] at ended
    cases phase : progress.phase j with
    | checking =>
        rw [phase, next] at ended
        by_cases missing : progress.created = 0
        · rw [if_pos missing] at ended
          rcases ended with closing | finished
          · cases closing
          · cases finished
        · rw [if_neg missing] at ended
          rcases ended with closing | finished
          · cases closing
            exact Or.inr (Or.inl ⟨rfl, missing, rfl⟩)
          · cases finished
    | creating =>
        refine Or.inr (Or.inr ⟨rfl, fun missing => ?_⟩)
        rw [phase, next, if_pos missing] at ended
        rcases ended with closing | finished
        · cases closing
          rfl
        · cases finished
    | connecting => rw [phase] at ended; rcases ended with closing | finished <;> contradiction
    | pinging => rw [phase] at ended; rcases ended with closing | finished <;> contradiction
    | closing earlier =>
        rw [phase] at ended
        rcases ended with closing | finished
        · cases closing
        · cases finished
          exact Or.inl (Or.inl rfl)
    | finished earlier =>
        rw [phase] at ended
        rcases ended with closing | finished
        · cases closing
        · cases finished
          exact Or.inl (Or.inr rfl)
  · rw [step_other other] at ended
    exact Or.inl ended

/-! ## Checks that are made alone -/

/-- At most one process is about to create the database, and none once it exists; the processes
that have a result have nil, and the database exists. -/
structure Good (progress : Progress ι) : Prop where
  /-- Two processes do not create the database at the same time. -/
  single : ∀ i j, progress.phase i = .creating → progress.phase j = .creating → i = j
  /-- None is about to create it when it exists. -/
  none_late : progress.created ≠ 0 → ∀ i, progress.phase i ≠ .creating
  /-- A result is nil, and then the database exists. -/
  succeeded : ∀ i result, Ended result (progress.phase i) → result = none ∧ progress.created ≠ 0
  /-- It has been created once at most. -/
  once : progress.created ≤ 1

theorem Good.step (good : progress.Good) (alone : progress.Alone i) :
    (progress.step name i).Good where
  single := by
    intro j k first second
    rcases creating_of_step first with ⟨_, before⟩ | ⟨rfl, checking, missing⟩
    · rcases creating_of_step second with ⟨_, before'⟩ | ⟨rfl, checking, missing⟩
      · exact good.single j k before before'
      · exact absurd before (alone checking missing j)
    · rcases creating_of_step second with ⟨_, before'⟩ | ⟨rfl, _, _⟩
      · exact absurd before' (alone checking missing k)
      · rfl
  none_late := by
    intro exists_now j creating
    rcases created_step name progress i with same | ⟨creates, missing, _⟩
    · rcases creating_of_step creating with ⟨_, before⟩ | ⟨_, _, missing⟩
      · exact good.none_late (same ▸ exists_now) j before
      · exact exists_now (same.trans missing)
    · rcases creating_of_step creating with ⟨other, before⟩ | ⟨_, checking, _⟩
      · exact other (good.single j i before creates)
      · rw [creates] at checking
        cases checking
  succeeded := by
    intro j result ended
    have stays : progress.created ≠ 0 → (progress.step name i).created ≠ 0 := by
      intro exists_before
      rcases created_step name progress i with same | ⟨_, missing, _⟩
      · rwa [same]
      · exact absurd missing exists_before
    rcases ended_of_step ended with before | ⟨_, exists_before, nil⟩ | ⟨creating, nil⟩
    · obtain ⟨nil, exists_before⟩ := good.succeeded j result before
      exact ⟨nil, stays exists_before⟩
    · exact ⟨nil, stays exists_before⟩
    · have missing : progress.created = 0 := by
        by_contra exists_before
        exact good.none_late exists_before i creating
      refine ⟨nil missing, ?_⟩
      change (next name progress.created (progress.phase i)).2 ≠ 0
      rw [creating, next, if_pos missing]
      exact Nat.one_ne_zero
  once := by
    rcases created_step name progress i with same | ⟨_, _, one⟩
    · rw [same]
      exact good.once
    · exact Nat.le_of_eq one

/-! ## A check that is not -/

/-- A process has failed, or will: the database exists and it is about to create it, or two are. -/
def Doomed (progress : Progress ι) : Prop :=
  (∃ i err, Ended (some err) (progress.phase i)) ∨
    (progress.created ≠ 0 ∧ ∃ i, progress.phase i = .creating) ∨
      ∃ i j, i ≠ j ∧ progress.phase i = .creating ∧ progress.phase j = .creating

theorem doomed_of_not_alone (together : ¬ progress.Alone i) : (progress.step name i).Doomed := by
  simp only [Alone, not_forall, ne_eq, not_not] at together
  obtain ⟨checking, missing, j, creating⟩ := together
  have other : j ≠ i := by
    rintro rfl
    rw [checking] at creating
    cases creating
  refine Or.inr (Or.inr ⟨i, j, other.symm, ?_, ?_⟩)
  · rw [step_self, checking, next, if_pos missing]
  · rw [step_other other, creating]

/-- A creation that comes too late fails. -/
theorem ended_of_late (creating : progress.phase i = .creating) (late : progress.created ≠ 0) :
    Ended (some (tooLate name)) ((progress.step name i).phase i) := by
  rw [step_self, creating, next, if_neg late]
  exact Or.inl rfl

theorem Doomed.step (doomed : progress.Doomed) : (progress.step name j).Doomed := by
  rcases doomed with ⟨i, err, ended⟩ | ⟨late, i, creating⟩ | ⟨i, k, differ, first, second⟩
  · refine Or.inl ⟨i, err, ?_⟩
    by_cases other : i = j
    · subst other
      rw [step_self]
      rcases ended with closing | finished
      · rw [closing]
        exact Or.inr rfl
      · rw [finished]
        exact Or.inr rfl
    · rw [step_other other]
      exact ended
  · by_cases other : i = j
    · subst other
      exact Or.inl ⟨i, _, ended_of_late creating late⟩
    · refine Or.inr (Or.inl ⟨?_, i, ?_⟩)
      · rcases created_step name progress j with same | ⟨_, missing, _⟩
        · rwa [same]
        · exact absurd missing late
      · rw [step_other other, creating]
  · -- The one that moves first creates the database, and the other one comes too late.
    have moves : ∀ a b, a ≠ b → progress.phase a = .creating → progress.phase b = .creating →
        (progress.step name a).Doomed := by
      intro a b apart here there
      by_cases late : progress.created = 0
      · refine Or.inr (Or.inl ⟨?_, b, ?_⟩)
        · change (next name progress.created (progress.phase a)).2 ≠ 0
          rw [here, next, if_pos late]
          exact Nat.one_ne_zero
        · rw [step_other apart.symm, there]
      · exact Or.inl ⟨a, _, ended_of_late here late⟩
    by_cases first_moves : i = j
    · subst first_moves
      exact moves i k differ first second
    by_cases second_moves : k = j
    · subst second_moves
      exact moves k i differ.symm second first
    refine Or.inr (Or.inr ⟨i, k, differ, ?_, ?_⟩)
    · rw [step_other first_moves, first]
    · rw [step_other second_moves, second]

theorem Doomed.run (doomed : progress.Doomed) (schedule : List ι) :
    (schedule.foldl (Progress.step name) progress).Doomed := by
  induction schedule generalizing progress with
  | nil => exact doomed
  | cons i schedule ih => exact ih doomed.step

omit [DecidableEq ι] in
theorem Doomed.not_finished (doomed : progress.Doomed) :
    ¬ ∀ i, progress.phase i = .finished none := by
  intro finished
  rcases doomed with ⟨i, err, closing | failed⟩ | ⟨_, i, creating⟩ | ⟨i, _, _, creating, _⟩
  · rw [finished i] at closing
    cases closing
  · rw [finished i] at failed
    cases failed
  · rw [finished i] at creating
    cases creating
  · rw [finished i] at creating
    cases creating

end Progress

/-! ## All processes -/

section Schedules

variable [DecidableEq ι] {retries : ι → Nat} {cfg : ι → Config} {name : Bytes}

open Progress

theorem good_of_guarded (same : ∀ i, (cfg i).database = name) {progress : Progress ι}
    (good : progress.Good) {schedule : List ι}
    (guarded : Pool.Guarded (serve name) ChecksAlone (progress.pool retries cfg) schedule) :
    (schedule.foldl (step name) progress).Good := by
  induction schedule generalizing progress with
  | nil => exact good
  | cons i schedule ih =>
      obtain ⟨alone, later⟩ := guarded
      rw [pool_step same] at later
      exact ih (good.step ((checksAlone_iff progress i).mp alone)) later

theorem guarded_of_finished (same : ∀ i, (cfg i).database = name) {progress : Progress ι}
    {schedule : List ι}
    (finished : ∀ i, (schedule.foldl (step name) progress).phase i = .finished none) :
    Pool.Guarded (serve name) ChecksAlone (progress.pool retries cfg) schedule := by
  induction schedule generalizing progress with
  | nil => exact True.intro
  | cons i schedule ih =>
      refine ⟨?_, ?_⟩
      · rw [checksAlone_iff]
        by_contra together
        exact (Doomed.run (doomed_of_not_alone together) schedule).not_finished finished
      · rw [pool_step same]
        exact ih finished

omit [DecidableEq ι] in
/-- The processes before their first step are all connecting. -/
theorem processes_eq (present : Bool) :
    processes retries cfg present = (⟨fun _ => .connecting, present.toNat⟩ : Progress ι).pool
      retries cfg := rfl

omit [DecidableEq ι] in
theorem good_start (present : Bool) :
    (⟨fun _ => .connecting, present.toNat⟩ : Progress ι).Good where
  single := by
    intro _ _ creating
    cases creating
  none_late := by
    intro _ _ creating
    cases creating
  succeeded := by
    rintro _ _ (closing | finished)
    · cases closing
    · cases finished
  once := Bool.toNat_le present

/-- Any number of processes make sure that one database exists, in any interleaving of their steps
that lets all of them return.  They all return nil, and the database has been created once, exactly
if every check that does not find the database is made while no process is about to create it. -/
theorem ensured_iff [Nonempty ι] (same : ∀ i, (cfg i).database = name) (present : Bool)
    {schedule : List ι}
    (returned : ∀ i, ∃ result,
      ((processes retries cfg present).run (serve name) schedule).code i = .done result) :
    ((∀ i, ((processes retries cfg present).run (serve name) schedule).code i = .done none) ∧
        ((processes retries cfg present).run (serve name) schedule).shared = 1) ↔
      Pool.Guarded (serve name) ChecksAlone (processes retries cfg present) schedule := by
  rw [processes_eq] at returned ⊢
  rw [pool_run same] at returned ⊢
  constructor
  · rintro ⟨succeeded, _⟩
    exact guarded_of_finished same fun i => code_eq_done (succeeded i)
  · intro guarded
    have good := good_of_guarded same (good_start present) guarded
    have results : ∀ i, ∃ result, (schedule.foldl (step name)
        (⟨fun _ => .connecting, present.toNat⟩ : Progress ι)).phase i = .finished result := by
      intro i
      obtain ⟨result, done⟩ := returned i
      exact ⟨result, code_eq_done done⟩
    constructor
    · intro i
      obtain ⟨result, finished⟩ := results i
      obtain ⟨rfl, _⟩ := good.succeeded i result (Or.inr finished)
      simp only [pool, finished]
      rfl
    · obtain ⟨i⟩ := ‹Nonempty ι›
      obtain ⟨result, finished⟩ := results i
      have exists_now := (good.succeeded i result (Or.inr finished)).2
      exact Nat.le_antisymm good.once (Nat.one_le_iff_ne_zero.mpr exists_now)

end Schedules

/-- A configuration for the database `app`. -/
def appConfig : Config := ⟨ascii "host", 5432, ascii "user", ascii "secret", ascii "app", false⟩

/-- Two processes with one configuration, on a server without the database. -/
def twins : Processes Bool := processes (fun _ => 0) (fun _ => appConfig) false

/-- A process that is alone until it returns, and one after it. -/
theorem ensured_one_by_one :
    let last := twins.run (serve (ascii "app"))
      [true, true, true, true, true, false, false, false, false]
    (∀ i, ∃ result, last.code i = .done result) ∧
      (∀ i, last.code i = .done none) ∧ last.shared = 1 := by
  have returned : ∀ i, ∃ result, (twins.run (serve (ascii "app"))
      [true, true, true, true, true, false, false, false, false]).code i = .done result := by
    intro i
    cases i with
    | false => exact ⟨_, rfl⟩
    | true => exact ⟨_, rfl⟩
  have guarded : Pool.Guarded (serve (ascii "app")) ChecksAlone twins
      [true, true, true, true, true, false, false, false, false] := by decide
  have iff := @ensured_iff Bool _ (fun _ => 0) (fun _ => appConfig) (ascii "app") _
    (fun _ => rfl) false _ returned
  exact ⟨returned, iff.mpr guarded⟩

/-- Two processes check before either creates: the second creation fails. -/
theorem late_creation :
    (twins.run (serve (ascii "app"))
      [true, true, true, false, false, false, true, true, false, false]).code false =
        .done (some (tooLate (ascii "app"))) := rfl

end CommonGo.Postgres
