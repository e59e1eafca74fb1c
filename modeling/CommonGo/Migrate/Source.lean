import Mathlib.Data.List.Basic
import Mathlib.Algebra.Order.Ring.Int
import Mathlib.Tactic.Common

/-!
# Migration sources

A source is an index of versions, strictly increasing, with an up body, a down body or both for
every version of it.  `readUp` and `readDown` list the migrations a run has to apply, as the
goroutines that feed `runMigrations` send them: in order, ending early with an error.
-/

namespace CommonGo.Migrate

/-- The Go errors the migration code returns, compares and wraps. -/
inductive Error where
  /-- `migrate.ErrNoChange`. -/
  | noChange
  /-- `migrate.ErrInvalidVersion`. -/
  | invalidVersion
  /-- `migrate.ErrDirty`. -/
  | dirty (version : Int)
  /-- `migrate.ErrShortLimit`. -/
  | shortLimit (short : Nat)
  /-- `os.ErrNotExist`, as such. -/
  | notExist
  /-- `os.ErrNotExist` under the path error of a source operation. -/
  | pathNotExist (op : String)
  /-- `no migration found for version ...`, over the path error of the last read. -/
  | noMigration (version : Nat)
  /-- `database.ErrLocked`. -/
  | locked
  /-- `database.ErrNotLocked`. -/
  | notLocked
  /-- `sql.ErrNoRows`. -/
  | noRows
  /-- `commerr.ErrInvalidArgument`. -/
  | invalidArgument
  /-- Any other error, told apart by a number. -/
  | other (number : Nat)
  /-- A `database.Error`, which does not unwrap. -/
  | database (original : Error) (message query : String)
  /-- `ctxerrors.Wrap`. -/
  | wrap (inner : Error) (message : String)
  /-- `errors.Join` of two errors. -/
  | join (first second : Error)
  /-- The panic of `suint`, which ends the process. -/
  | panics (n : Int)
  deriving DecidableEq, Repr

/-- `errors.Is`: the target is the error itself or lies below what unwraps. -/
def Error.is : Error → Error → Bool
  | .wrap inner message, target => Error.wrap inner message == target || inner.is target
  | .join first second, target =>
      Error.join first second == target || first.is target || second.is target
  | .pathNotExist op, target => Error.pathNotExist op == target || Error.notExist == target
  | .noMigration version, target =>
      Error.noMigration version == target || Error.notExist == target
  | error, target => error == target

/-- `source.Direction`. -/
inductive Direction where
  | up
  | down
  deriving DecidableEq, Repr

/-- The body of one migration file: its version and direction say which, and its contents are
what is run. -/
structure Body where
  /-- The version. -/
  version : Nat
  /-- Whether it migrates up or down. -/
  direction : Direction
  /-- The text of the file. -/
  contents : String
  deriving DecidableEq, Repr

/-- `source.Migrations`: the sorted index and the files behind it.  Versions fit an `int`, the
type in which the database driver is told about them. -/
structure Source where
  /-- The versions, as `buildIndex` sorts them. -/
  index : List Nat
  /-- The contents of the file of a version and direction, if there is one. -/
  files : Nat → Direction → Option String
  /-- The index is strictly increasing. -/
  sorted : index.Pairwise (· < ·)
  /-- Every version is an `int`.  The parser takes larger ones, which `int()` would wrap. -/
  fits : ∀ version ∈ index, version < 2 ^ 63
  /-- The index lists the versions that have a file. -/
  indexed : ∀ version,
    version ∈ index ↔ (files version .up).isSome ∨ (files version .down).isSome

/-- `database.NilVersion`. -/
def nilVersion : Int := -1

namespace Source

/-- `Migrations.First`. -/
def first (source : Source) : Option Nat := source.index.head?

/-- `Migrations.findPos`: where the search for the least version not below stops, if the version
stands there. -/
def findPos (source : Source) (version : Nat) : Option Nat :=
  let ix := source.index.findIdx fun candidate => version ≤ candidate
  if source.index[ix]? = some version then some ix else none

/-- `Migrations.Prev`. -/
def prev (source : Source) (version : Nat) : Option Nat :=
  match source.findPos version with
  | some (pos + 1) => source.index[pos]?
  | _ => none

/-- `Migrations.Next`. -/
def next (source : Source) (version : Nat) : Option Nat :=
  match source.findPos version with
  | some pos => source.index[pos + 1]?
  | none => none

/-- `ReadUp` and `ReadDown`: the body, unless there is no such file. -/
def read (source : Source) (version : Nat) (direction : Direction) : Option Body :=
  (source.files version direction).map fun contents => ⟨version, direction, contents⟩

/-- `Migrate.versionExists`: an up body or a down body can be read. -/
def versionExists (source : Source) (version : Nat) : Bool :=
  (source.read version .up).isSome || (source.read version .down).isSome

/-! ## Neighbours in the index -/

theorem versionExists_iff (source : Source) (version : Nat) :
    source.versionExists version = true ↔ version ∈ source.index := by
  rw [source.indexed]
  simp [versionExists, read]

/-- A version that is not reported as missing is in the index. -/
theorem mem_of_not_missing (source : Source) {version : Int} (nonneg : 0 ≤ version)
    (found : ¬ (0 ≤ version ∧ ¬ source.versionExists version.toNat = true)) :
    version.toNat ∈ source.index := by
  rw [← source.versionExists_iff]
  by_contra absent
  exact found ⟨nonneg, absent⟩

theorem findPos_of_split (source : Source) {before after : List Nat} {version : Nat}
    (split : source.index = before ++ version :: after) :
    source.findPos version = some before.length := by
  have smaller : ∀ candidate ∈ before, candidate < version := by
    intro candidate member
    have sorted := source.sorted
    rw [split, List.pairwise_append] at sorted
    exact sorted.2.2 candidate member version List.mem_cons_self
  have stops : source.index.findIdx (fun candidate => version ≤ candidate) = before.length := by
    rw [split, List.findIdx_append, List.findIdx_eq_length_of_false]
    · simp [List.findIdx_cons]
    · intro candidate member
      simpa using smaller candidate member
  rw [findPos, stops]
  simp [split]

theorem findPos_of_notMem (source : Source) {version : Nat} (missing : version ∉ source.index) :
    source.findPos version = none := by
  refine if_neg fun found => ?_
  exact missing (List.mem_of_getElem? found)

theorem next_of_split (source : Source) {before after : List Nat} {version : Nat}
    (split : source.index = before ++ version :: after) :
    source.next version = after.head? := by
  rw [next, source.findPos_of_split split, split]
  cases after <;> simp

theorem prev_of_split (source : Source) {before after : List Nat} {version : Nat}
    (split : source.index = before ++ version :: after) :
    source.prev version = before.getLast? := by
  rw [prev, source.findPos_of_split split, split]
  rcases List.eq_nil_or_concat before with rfl | ⟨front, last, rfl⟩ <;> simp

/-- The version after another one stands right behind it in the index. -/
theorem split_of_next (source : Source) {version after : Nat}
    (follows : source.next version = some after) :
    ∃ before rest, source.index = before ++ version :: after :: rest := by
  by_cases member : version ∈ source.index
  · obtain ⟨before, rest, split⟩ := List.append_of_mem member
    rw [source.next_of_split split] at follows
    obtain ⟨tail, rfl⟩ := List.head?_eq_some_iff.mp follows
    exact ⟨before, tail, split⟩
  · simp [next, source.findPos_of_notMem member] at follows

theorem lt_of_next (source : Source) {version after : Nat}
    (follows : source.next version = some after) : version < after := by
  obtain ⟨before, rest, split⟩ := source.split_of_next follows
  have sorted := source.sorted
  rw [split, List.pairwise_append, List.pairwise_cons] at sorted
  exact sorted.2.1.1 after List.mem_cons_self

theorem mem_of_next_left (source : Source) {version after : Nat}
    (follows : source.next version = some after) : version ∈ source.index := by
  obtain ⟨before, rest, split⟩ := source.split_of_next follows
  simp [split]

theorem mem_of_next (source : Source) {version after : Nat}
    (follows : source.next version = some after) : after ∈ source.index := by
  obtain ⟨before, rest, split⟩ := source.split_of_next follows
  simp [split]

/-- A version of the index with nothing before it is the first one. -/
theorem first_of_prev_none (source : Source) {version : Nat} (member : version ∈ source.index)
    (least : source.prev version = none) : source.first = some version := by
  obtain ⟨before, after, split⟩ := List.append_of_mem member
  rw [source.prev_of_split split, List.getLast?_eq_none_iff] at least
  simp [first, split, least]

theorem next_of_prev (source : Source) {version before : Nat}
    (precedes : source.prev version = some before) : source.next before = some version := by
  by_cases member : version ∈ source.index
  · obtain ⟨front, after, split⟩ := List.append_of_mem member
    rw [source.prev_of_split split] at precedes
    obtain ⟨start, rfl⟩ := List.getLast?_eq_some_iff.mp precedes
    rw [source.next_of_split (by rw [split, List.append_assoc]; rfl)]
    rfl
  · simp [prev, source.findPos_of_notMem member] at precedes

/-- A version of the index with nothing after it is the newest one. -/
theorem getLast_of_next_none (source : Source) {version : Nat} (member : version ∈ source.index)
    (greatest : source.next version = none) : source.index.getLast? = some version := by
  obtain ⟨before, after, split⟩ := List.append_of_mem member
  rw [source.next_of_split split, List.head?_eq_none_iff] at greatest
  simp [split, greatest]

/-- How many versions of the index lie above one. -/
def above (source : Source) (version : Nat) : Nat :=
  source.index.countP fun candidate => version < candidate

theorem above_lt_of_next (source : Source) {version after : Nat}
    (follows : source.next version = some after) : source.above after < source.above version := by
  have bound := source.lt_of_next follows
  obtain ⟨before, rest, split⟩ := source.split_of_next follows
  have fewer : ∀ versions : List Nat, versions.countP (fun candidate => after < candidate) ≤
      versions.countP (fun candidate => version < candidate) := by
    intro versions
    refine List.countP_mono_left fun candidate _ later => ?_
    simp only [decide_eq_true_eq] at later ⊢
    omega
  have front := fewer before
  have back := fewer rest
  simp only [above, split, List.countP_append, List.countP_cons, decide_eq_true_eq]
  rw [if_pos bound, if_neg (lt_irrefl after), if_neg (lt_irrefl version),
    if_neg (not_lt.mpr bound.le)]
  omega

end Source

/-! ## Reading migrations -/

/-- `migrate.Migration`: which version it migrates, the version afterwards, and the body to run,
if any. -/
structure Migration where
  /-- The version that is migrated. -/
  version : Nat
  /-- The version afterwards. -/
  targetVersion : Int
  /-- What is run, if there is a file for it. -/
  body : Option Body
  deriving DecidableEq, Repr

/-- What `runMigrations` receives: a migration or an error. -/
inductive Item where
  | migration (migration : Migration)
  | error (error : Error)
  deriving DecidableEq, Repr

/-- `Migrate.newMigration`: the up body when the target is not below the version, else the down
body. -/
def newMigration (source : Source) (version : Nat) (targetVersion : Int) : Migration where
  version := version
  targetVersion := targetVersion
  body :=
    if (version : Int) ≤ targetVersion then source.read version .up
    else source.read version .down

/-- The loop of `readUp` without a limit, from a version that is not the nil version. -/
def readUpFrom (source : Source) (version count : Nat) : List Item :=
  match follows : source.next version with
  | none => if count = 0 then [.error .noChange] else []
  | some next => .migration (newMigration source next next) :: readUpFrom source next (count + 1)
termination_by source.above version
decreasing_by exact source.above_lt_of_next follows

/-- `Migrate.readUp` with the limit -1, as `Up` calls it. -/
def readUp (source : Source) (version : Int) : List Item :=
  if 0 ≤ version ∧ ¬ source.versionExists version.toNat then
    [.error (.noMigration version.toNat)]
  else if version = nilVersion then
    match source.first with
    | none => [.error (.pathNotExist "first")]
    | some first => .migration (newMigration source first first) :: readUpFrom source first 1
  else if version < 0 then [.error (.panics version)]
  else readUpFrom source version.toNat 0

/-- The loop of `readDown` with `remaining` migrations left to its limit. -/
def readDownFrom (source : Source) : Nat → Nat → List Item
  | 0, _ => []
  | remaining + 1, version =>
      match source.prev version with
      | none =>
          match source.first with
          | none => [.error (.pathNotExist "first")]
          | some first =>
              .migration (newMigration source first nilVersion) ::
                if 0 < remaining then [.error (.shortLimit remaining)] else []
      | some prev =>
          .migration (newMigration source version prev) :: readDownFrom source remaining prev

/-- `Migrate.readDown` with a positive limit, as `Steps` calls it. -/
def readDown (source : Source) (version : Int) (limit : Nat) : List Item :=
  if 0 ≤ version ∧ ¬ source.versionExists version.toNat then
    [.error (.noMigration version.toNat)]
  else if limit = 0 then [.error .noChange]
  else if version = nilVersion then [.error .notExist]
  else if version < 0 then [.error (.panics version)]
  else readDownFrom source limit version.toNat

/-! ## Routes -/

/-- The version `later` comes right after `earlier`, where the nil version comes before all. -/
inductive Follows (source : Source) : Int → Nat → Prop
  | first {version : Nat} : source.first = some version → Follows source nilVersion version
  | next {version after : Nat} : source.next version = some after → Follows source version after

/-- One migration between neighbouring versions: up to the later one, or down from it. -/
inductive Moves (source : Source) : Int → Migration → Prop
  | up {earlier : Int} {later : Nat} :
      Follows source earlier later → Moves source earlier (newMigration source later later)
  | down {earlier : Int} {later : Nat} :
      Follows source earlier later → Moves source later (newMigration source later earlier)

/-- A list of migrations that lead from a version to neighbour after neighbour, until it ends or
an error stands in it. -/
inductive Route (source : Source) : Int → List Item → Prop
  | stop (version : Int) : Route source version []
  | error (version : Int) (error : Error) (rest : List Item) :
      Route source version (.error error :: rest)
  | move {version : Int} {migration : Migration} {rest : List Item} :
      Moves source version migration → Route source migration.targetVersion rest →
      Route source version (.migration migration :: rest)

/-- The versions a ledger can be at: none, or one of the source. -/
def Source.Position (source : Source) (version : Int) : Prop :=
  version = nilVersion ∨ ∃ v ∈ source.index, version = (v : Int)

theorem readUpFrom_route (source : Source) (version count : Nat) :
    Route source version (readUpFrom source version count) := by
  fun_induction readUpFrom source version count with
  | case1 version => exact .error _ _ _
  | case2 version count follows started => exact .stop _
  | case3 version count next follows ih => exact .move (.up (.next follows)) ih

theorem readUp_route (source : Source) (version : Int) :
    Route source version (readUp source version) := by
  unfold readUp
  split_ifs with missing empty negative
  · exact .error _ _ _
  · rw [empty]
    cases start : source.first with
    | none => exact .error _ _ _
    | some first => exact .move (.up (.first start)) (readUpFrom_route source first 1)
  · exact .error _ _ _
  · have route := readUpFrom_route source version.toNat 0
    rwa [Int.toNat_of_nonneg (not_lt.mp negative)] at route

theorem readDownFrom_route (source : Source) (remaining : Nat) {version : Nat}
    (member : version ∈ source.index) :
    Route source version (readDownFrom source remaining version) := by
  induction remaining generalizing version with
  | zero => exact .stop _
  | succ remaining ih =>
      rw [readDownFrom]
      cases before : source.prev version with
      | none =>
          have least := source.first_of_prev_none member before
          rw [least]
          refine .move (.down (.first least)) ?_
          split_ifs
          · exact .error _ _ _
          · exact .stop _
      | some prev =>
          have follows := source.next_of_prev before
          exact .move (.down (.next follows)) (ih (source.mem_of_next_left follows))

theorem readDown_route (source : Source) (version : Int) (limit : Nat) :
    Route source version (readDown source version limit) := by
  unfold readDown
  split_ifs with missing zero empty negative
  · exact .error _ _ _
  · exact .error _ _ _
  · exact .error _ _ _
  · exact .error _ _ _
  · have nonneg := not_lt.mp negative
    have member := source.mem_of_not_missing nonneg missing
    have route := readDownFrom_route source limit member
    rwa [Int.toNat_of_nonneg nonneg] at route

/-! ## The pending migrations -/

/-- The bodies a list of items runs. -/
def bodies : List Item → List Body
  | [] => []
  | .error _ :: rest => bodies rest
  | .migration migration :: rest => migration.body.toList ++ bodies rest

/-- The body of the migration up to a version is the up body of that version. -/
theorem body_newMigration (source : Source) (version : Nat) :
    (newMigration source version version).body = source.read version .up :=
  if_pos (le_refl _)

theorem version_of_mem_read {source : Source} {version : Nat} {direction : Direction}
    {body : Body} (member : body ∈ (source.read version direction).toList) :
    body.version = version := by
  rw [Option.mem_toList, Source.read, Option.map_eq_some_iff] at member
  obtain ⟨contents, _, rfl⟩ := member
  rfl

theorem lt_of_mem_bodies_readUpFrom (source : Source) (version count : Nat) :
    ∀ body ∈ bodies (readUpFrom source version count), version < body.version := by
  fun_induction readUpFrom source version count with
  | case1 version => simp [bodies]
  | case2 version count follows started => simp [bodies]
  | case3 version count next follows ih =>
      have later := source.lt_of_next follows
      intro body member
      rw [bodies, List.mem_append, body_newMigration] at member
      rcases member with own | behind
      · rw [version_of_mem_read own]
        exact later
      · exact later.trans (ih body behind)

theorem nodup_bodies_cons (source : Source) (version count : Nat)
    (behind : (bodies (readUpFrom source version count)).Nodup) :
    (bodies (.migration (newMigration source version version) ::
      readUpFrom source version count)).Nodup := by
  rw [bodies, body_newMigration, List.nodup_append]
  refine ⟨by cases source.read version .up <;> simp, behind, ?_⟩
  intro body own other member same
  have greater := lt_of_mem_bodies_readUpFrom source version count other member
  rw [← same, version_of_mem_read own] at greater
  exact lt_irrefl version greater

theorem nodup_bodies_readUpFrom (source : Source) (version count : Nat) :
    (bodies (readUpFrom source version count)).Nodup := by
  fun_induction readUpFrom source version count with
  | case1 version => exact List.nodup_nil
  | case2 version count follows started => exact List.nodup_nil
  | case3 version count next follows ih => exact nodup_bodies_cons source next (count + 1) ih

/-- From a version a ledger can be at, `readUp` finds nothing to do at the newest version, and
otherwise starts with the version that comes next. -/
theorem readUp_cases (source : Source) (nonempty : source.index ≠ []) {version : Int}
    (known : source.Position version) :
    (readUp source version = [.error .noChange] ∧
        ∃ newest, source.index.getLast? = some newest ∧ version = (newest : Int)) ∨
      ∃ later count, later ∈ source.index ∧
        readUp source version =
          .migration (newMigration source later later) :: readUpFrom source later (count + 1) := by
  rcases known with rfl | ⟨v, member, rfl⟩
  · obtain ⟨first, rest, split⟩ := List.exists_cons_of_ne_nil nonempty
    refine Or.inr ⟨first, 0, by simp [split], ?_⟩
    simp [readUp, nilVersion, Source.first, split]
  · have exists_v := (source.versionExists_iff v).mpr member
    have unfolded : readUp source v = readUpFrom source v 0 := by
      simp [readUp, exists_v, nilVersion]
    rw [unfolded, readUpFrom]
    cases follows : source.next v with
    | none => exact Or.inl ⟨rfl, v, source.getLast_of_next_none member follows, rfl⟩
    | some next => exact Or.inr ⟨next, 0, source.mem_of_next follows, rfl⟩

/-- There is nothing to do at the newest version. -/
theorem readUp_newest (source : Source) {newest : Nat}
    (last : source.index.getLast? = some newest) :
    readUp source newest = [.error .noChange] := by
  obtain ⟨front, split⟩ := List.getLast?_eq_some_iff.mp last
  have exists_newest : source.versionExists newest = true := by
    rw [source.versionExists_iff, split]
    simp
  have none_behind : source.next newest = none := source.next_of_split split
  have unfolded : readUp source newest = readUpFrom source newest 0 := by
    simp [readUp, exists_newest, nilVersion]
  rw [unfolded, readUpFrom]
  split
  · rfl
  · rename_i next follows
    rw [none_behind] at follows
    cases follows

/-- Once it has started, the list ends with the newest version or goes on with the next one. -/
theorem readUpFrom_cases (source : Source) {version : Nat} (member : version ∈ source.index)
    (count : Nat) :
    (readUpFrom source version (count + 1) = [] ∧ source.index.getLast? = some version) ∨
      ∃ later, later ∈ source.index ∧
        readUpFrom source version (count + 1) =
          .migration (newMigration source later later) ::
            readUpFrom source later (count + 1 + 1) := by
  rw [readUpFrom]
  cases follows : source.next version with
  | none => exact Or.inl ⟨rfl, source.getLast_of_next_none member follows⟩
  | some next => exact Or.inr ⟨next, source.mem_of_next follows, rfl⟩

theorem nodup_bodies_readUp (source : Source) (version : Int) :
    (bodies (readUp source version)).Nodup := by
  unfold readUp
  split_ifs
  · exact List.nodup_nil
  · cases source.first with
    | none => exact List.nodup_nil
    | some first => exact nodup_bodies_cons source first 1 (nodup_bodies_readUpFrom source first 1)
  · exact List.nodup_nil
  · exact nodup_bodies_readUpFrom source _ 0

end CommonGo.Migrate
