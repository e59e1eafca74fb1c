import CommonGo.Cache.Recency
import CommonGo.Cache.Redis

/-!
# The two caches behind one interface

What a cache is for: a map whose entries end after their ttl.  The in-memory cache is that map as
long as it has room for every key.  The Redis cache is that map for the ttls that its client
library sends unchanged, up to the nanosecond on which no call is made.
-/

namespace CommonGo.Cache

open Go

variable {κ ν : Type}

/-! ## A map whose entries end -/

/-- What a `Set` wrote, and when. -/
structure Write (ν : Type) where
  /-- What was written. -/
  value : ν
  /-- When it was written. -/
  time : Int
  /-- How long it is to be kept. -/
  ttl : Int

/-- What a read at a time makes of the last write. -/
def readAt (now : Int) : Option (Write ν) → Except Error ν
  | none => .error .cacheMiss
  | some write => if now ≤ write.time + write.ttl then .ok write.value else .error .cacheMiss

/-- What a call on such a map returns. -/
def Call.answer (written : κ → Option (Write ν)) (call : Call κ ν) : Reply ν :=
  match call.op with
  | .get key => .ofValue (readAt call.time (written key))
  | _ => .done

/-- The key of a call by a user of the cache. -/
def Op.key : Op κ ν → Option κ
  | .set key _ _ => some key
  | .get key => some key
  | .delete key => some key
  | .removeExpired _ => none

variable [DecidableEq κ]

/-- What a call writes. -/
def Call.write (written : κ → Option (Write ν)) (call : Call κ ν) : κ → Option (Write ν) :=
  match call.op with
  | .set key value ttl => Function.update written key (some ⟨value, call.time, ttl⟩)
  | .delete key => Function.update written key none
  | _ => written

/-- The last writes of a history. -/
def written (history : List (Call κ ν)) : κ → Option (Write ν) :=
  history.foldl Call.write fun _ => none

/-- What the calls of a run return. -/
def answers : (κ → Option (Write ν)) → List (Call κ ν) → List (Reply ν)
  | _, [] => []
  | written, call :: calls => call.answer written :: answers (call.write written) calls

/-- What the calls of a run on the in-memory cache return; `none` if one does not. -/
def Memory.answers : Memory κ ν → List (Call κ ν) → Option (List (Reply ν))
  | _, [] => some []
  | m, call :: calls =>
      match m.perform call with
      | none => none
      | some (m, reply) => (Memory.answers m calls).map (reply :: ·)

/-- What the calls of a run on the Redis cache return. -/
def Redis.answers (lingers : Bool) (r : Redis) :
    Server → List (Call Bytes Bytes) → List (Reply Bytes)
  | _, [] => []
  | server, call :: calls =>
      (r.perform lingers server call).2 ::
        Redis.answers lingers r (r.perform lingers server call).1 calls

/-- The distinct keys of a run. -/
def keysUsed (calls : List (Call κ ν)) : List κ := (calls.filterMap fun call => call.op.key).dedup

/-! ## Last writes -/

section Written

variable {history later : List (Call κ ν)} {key : κ}

theorem written_append (history later : List (Call κ ν)) :
    written (history ++ later) = later.foldl Call.write (written history) :=
  List.foldl_append

theorem write_of_untouched {before : κ → Option (Write ν)} {call : Call κ ν}
    (unset : ¬ call.Sets key) (undeleted : ¬ call.Deletes key) :
    call.write before key = before key := by
  obtain ⟨time, op⟩ := call
  cases op with
  | set other value ttl =>
      refine Function.update_of_ne ?_ _ _
      rintro rfl
      exact unset ⟨value, ttl, rfl⟩
  | get other => rfl
  | delete other =>
      refine Function.update_of_ne ?_ _ _
      rintro rfl
      exact undeleted rfl
  | removeExpired order => rfl

theorem write_of_deletes {before : κ → Option (Write ν)} {call : Call κ ν}
    (deletes : call.Deletes key) : call.write before key = none := by
  obtain ⟨time, op⟩ := call
  cases deletes
  exact Function.update_self ..

/-- Without a set in between a last write stays, unless it is deleted. -/
theorem foldl_write_of_unset {before : κ → Option (Write ν)}
    (unset : ∀ call ∈ later, ¬ call.Sets key) :
    ((∃ call ∈ later, call.Deletes key) ∧ later.foldl Call.write before key = none) ∨
      ((∀ call ∈ later, ¬ call.Deletes key) ∧
        later.foldl Call.write before key = before key) := by
  induction later generalizing before with
  | nil => exact Or.inr ⟨nofun, rfl⟩
  | cons call later ih =>
      have first := unset call (by simp)
      specialize @ih (call.write before) fun other member => unset other (by simp [member])
      rw [List.foldl_cons]
      by_cases deletes : call.Deletes key
      · refine Or.inl ⟨⟨call, by simp, deletes⟩, ?_⟩
        rcases ih with ⟨-, empty⟩ | ⟨-, same⟩
        · exact empty
        · exact same.trans (write_of_deletes deletes)
      · rcases ih with ⟨⟨other, member, later_deletes⟩, empty⟩ | ⟨undeleted, same⟩
        · exact Or.inl ⟨⟨other, by simp [member], later_deletes⟩, empty⟩
        · exact Or.inr ⟨by simpa [deletes] using undeleted,
            same.trans (write_of_untouched first deletes)⟩

theorem written_of_unset (unset : ∀ call ∈ history, ¬ call.Sets key) :
    written history key = none :=
  (foldl_write_of_unset unset).elim And.right And.right

/-- The entry of a key is its last write. -/
theorem Stored.written {entry : Entry κ ν} (stored : Stored history entry) :
    ∃ write, written history entry.key = some write ∧ write.value = entry.value ∧
      write.time + write.ttl = entry.expiresAt := by
  obtain ⟨before, time, ttl, later, rfl, untouched, expires⟩ := stored
  refine ⟨⟨entry.value, time, ttl⟩, ?_, rfl, expires.symm⟩
  rw [written_append, List.foldl_cons]
  rcases foldl_write_of_unset fun call member => (untouched call member).1 with
    ⟨⟨call, member, deletes⟩, -⟩ | ⟨-, same⟩
  · exact absurd deletes (untouched call member).2
  · exact same.trans (Function.update_self ..)

end Written

/-! ## The in-memory cache -/

section Room

variable {maxEntries now : Int} {history : List (Call κ ν)} {key : κ}

theorem mem_keysUsed {call : Call κ ν} (member : call ∈ history) (names : call.op.key = some key) :
    key ∈ keysUsed history :=
  List.mem_dedup.mpr (List.mem_filterMap.mpr ⟨call, member, names⟩)

theorem length_keysUsed_le {before later : List (Call κ ν)} :
    (keysUsed before).length ≤ (keysUsed (before ++ later)).length := by
  refine (List.subperm_of_subset (List.nodup_dedup _) fun key member => ?_).length_le
  obtain ⟨call, inBefore, names⟩ := List.mem_filterMap.mp (List.mem_dedup.mp member)
  exact mem_keysUsed (by simp [inBefore]) names

/-- There are no more entries than keys that were used. -/
theorem Accounts.length_le {trace : Trace κ ν} {entries : List (Entry κ ν)}
    (accounts : Accounts maxEntries history now trace entries) :
    entries.length ≤ (keysUsed history).length := by
  have subset : entries.map Entry.key ⊆ keysUsed history := by
    intro key member
    obtain ⟨entry, inEntries, rfl⟩ := List.mem_map.mp member
    obtain ⟨before, time, ttl, later, rfl, -, -⟩ := accounts.stored entry inEntries
    exact mem_keysUsed (List.mem_append_right _ List.mem_cons_self) rfl
  have nodup := accounts.holds.represents.keys_nodup
  simpa using (List.subperm_of_subset nodup subset).length_le

theorem not_evicts {before later : List (Call κ ν)} {trace : Trace κ ν} {call : Call κ ν}
    (ordered : (before ++ later).Pairwise fun earlier later => earlier.time ≤ later.time)
    (passed : ∀ call ∈ before ++ later, call.time ≤ now)
    (few : ((keysUsed (before ++ later)).length : Int) < maxEntries)
    (reached : after maxEntries before = some trace) : ¬ Evicts maxEntries trace call key := by
  intro evicts
  have positive : 1 ≤ maxEntries := by omega
  obtain ⟨again, entries, reached_again, accounts⟩ := after_accounts positive before
    (List.pairwise_append.mp ordered).1 fun call member => passed call (by simp [member])
  cases reached.symm.trans reached_again
  have full := evicts.full
  rw [accounts.holds.represents.entries_eq] at full
  have used := accounts.length_le
  have fewer := @length_keysUsed_le _ _ _ before later
  omega

/-- With room for every key nothing is evicted, so what is gone was not written, or is over. -/
theorem Gone.readAt (gone : Gone maxEntries history now key)
    (ordered : history.Pairwise fun earlier later => earlier.time ≤ later.time)
    (passed : ∀ call ∈ history, call.time ≤ now)
    (few : ((keysUsed history).length : Int) < maxEntries) :
    readAt now (written history key) = .error .cacheMiss := by
  rcases gone with never | ⟨before, time, value, ttl, later, rfl, unset, reason⟩
  · rw [written_of_unset never, Cache.readAt]
  · rw [written_append, List.foldl_cons]
    rcases foldl_write_of_unset unset with ⟨-, empty⟩ | ⟨undeleted, same⟩
    · rw [empty, Cache.readAt]
    · rcases reason with ⟨call, member, deletes⟩ | elapsed |
        ⟨middle, call, rest, trace, rfl, reached, evicts⟩
      · exact absurd deletes (undeleted call member)
      · have last := same.trans (Function.update_self ..)
        rw [last, Cache.readAt, if_neg (by simpa using elapsed)]
      · have split : before ++ ⟨time, .set key value ttl⟩ :: (middle ++ call :: rest) =
            (before ++ ⟨time, .set key value ttl⟩ :: middle) ++ call :: rest := by simp
        rw [split] at ordered passed few
        exact absurd evicts (not_evicts ordered passed few reached)

/-- A read of the in-memory cache returns what the last write says. -/
theorem get_eq_readAt
    (ordered : history.Pairwise fun earlier later => earlier.time ≤ later.time)
    (passed : ∀ call ∈ history, call.time ≤ now)
    (few : ((keysUsed history).length : Int) < maxEntries) {trace : Trace κ ν}
    (reached : after maxEntries history = some trace) (key : κ) :
    (trace.memory.get now key).2 = readAt now (written history key) := by
  have positive : 1 ≤ maxEntries := by omega
  obtain ⟨again, entries, reached_again, accounts⟩ := after_accounts positive history ordered
    passed
  cases reached.symm.trans reached_again
  obtain ⟨next, step, -⟩ := accounts.holds.get now key
  cases read : (trace.memory.get now key).2 with
  | ok value =>
      rw [read] at step
      cases step with
      | @hit front back entry _ _ same live =>
          subst same
          obtain ⟨write, last, value, expires⟩ := (accounts.stored entry (by simp)).written
          rw [last, readAt, expires, if_pos (by simpa [Entry.expired] using live), value]
  | error error =>
      rw [read] at step
      cases step with
      | miss missing => exact ((accounts.gone key missing).readAt ordered passed few).symm
      | @stale front back entry _ _ same expired =>
          subst same
          obtain ⟨write, last, -, expires⟩ := (accounts.stored entry (by simp)).written
          rw [last, readAt, expires, if_neg (by simpa [Entry.expired] using expired)]

/-- Every call on the in-memory cache returns what a call on a map whose entries end returns. -/
theorem perform_eq_answer {call : Call κ ν}
    (ordered : (history ++ [call]).Pairwise fun earlier later => earlier.time ≤ later.time)
    (few : ((keysUsed (history ++ [call])).length : Int) < maxEntries) {trace : Trace κ ν}
    (reached : after maxEntries history = some trace) :
    ∃ m, trace.memory.perform call = some (m, call.answer (written history)) := by
  have positive : 1 ≤ maxEntries := by omega
  obtain ⟨earlier, -, before_call⟩ := List.pairwise_append.mp ordered
  have passed : ∀ other ∈ history, other.time ≤ call.time := fun other member =>
    before_call other member call (List.mem_singleton_self call)
  have fewer := @length_keysUsed_le _ _ _ history [call]
  obtain ⟨again, entries, reached_again, accounts⟩ := after_accounts positive history earlier passed
  cases reached.symm.trans reached_again
  obtain ⟨m, reply, next, performed, step, -⟩ := accounts.holds.perform positive call
  refine ⟨m, performed.trans ?_⟩
  suffices same : reply = call.answer (written history) by rw [same]
  obtain ⟨time, op⟩ := call
  cases op with
  | get key =>
      have read := get_eq_readAt earlier passed (by omega) reached key
      rw [Memory.perform] at performed
      simp only [Option.some.injEq, Prod.mk.injEq] at performed
      rw [← performed.2, Call.answer]
      simp only [read]
  | set key value ttl => cases step <;> rfl
  | delete key => cases step <;> rfl
  | removeExpired order => cases step; rfl

/-- As long as it has room for every key, the in-memory cache is a map whose entries end. -/
theorem Memory.answers_eq {calls : List (Call κ ν)}
    (ordered : (history ++ calls).Pairwise fun earlier later => earlier.time ≤ later.time)
    (few : ((keysUsed (history ++ calls)).length : Int) < maxEntries) {trace : Trace κ ν}
    (reached : after maxEntries history = some trace) :
    trace.memory.answers calls = some (Cache.answers (written history) calls) := by
  -- the calls behind are performed one by one, each at the end of a longer history
  induction calls generalizing history trace with
  | nil => rfl
  | cons call calls ih =>
      have split : history ++ call :: calls = (history ++ [call]) ++ calls := by simp
      rw [split] at ordered few
      have fewer := @length_keysUsed_le _ _ _ (history ++ [call]) calls
      obtain ⟨m, performed⟩ := perform_eq_answer (List.pairwise_append.mp ordered).1 (by omega)
        reached
      have next : after maxEntries (history ++ [call]) =
          some ⟨m, usesAfter trace.uses call.op (call.answer (written history))⟩ := by
        rw [after, List.foldlM_append, ← after, reached]
        simp [Trace.observe, performed]
      have rest := ih ordered few next
      rw [written_append, List.foldl_cons, List.foldl_nil] at rest
      rw [Memory.answers, performed, Cache.answers]
      simp only [rest, Option.map_some]

theorem Memory.answers_newMemory {calls : List (Call κ ν)}
    (ordered : calls.Pairwise fun earlier later => earlier.time ≤ later.time)
    (few : ((keysUsed calls).length : Int) < maxEntries) :
    (newMemory maxEntries).answers calls = some (Cache.answers (fun _ => none) calls) :=
  @Memory.answers_eq κ ν _ maxEntries [] calls ordered few ⟨newMemory maxEntries, []⟩ rfl

end Room

/-! ## The Redis cache -/

theorem sent_eq {ttl : Int} (positive : 0 < ttl) :
    sent ttl = if ttl < millisecond then millisecond else ttl - ttl % millisecond := by
  unfold sent usePrecise formatMs formatSec
  rw [Int.tmod_eq_emod_of_nonneg positive.le, Int.tdiv_eq_ediv_of_nonneg positive.le,
    Int.tdiv_eq_ediv_of_nonneg positive.le]
  simp only [Bool.or_eq_true, bne_iff_ne, millisecond, second]
  split_ifs <;> omega

/-- A positive number of nanoseconds that differs by at most one from what goes over the wire: a
whole number of milliseconds, one more than that, or one less than a millisecond. -/
def Kept (ttl : Int) : Prop :=
  0 < ttl ∧ (ttl % millisecond = 0 ∨ (millisecond < ttl ∧ ttl % millisecond = 1) ∨
    ttl = millisecond - 1)

theorem kept_iff {ttl : Int} (positive : 0 < ttl) :
    Kept ttl ↔ ttl - 1 ≤ sent ttl ∧ sent ttl ≤ ttl + 1 := by
  rw [sent_eq positive, Kept]
  unfold millisecond
  split_ifs <;> omega

/-- The call is not one of a user at an instant at which the write ends. -/
def Write.Clear (write : Write ν) (call : Call κ ν) : Prop :=
  call.op.key ≠ none →
    call.time ≠ write.time + write.ttl ∧ (0 < write.ttl → call.time ≠ write.time + sent write.ttl)

/-- A run as the users of a cache make it: in the order of the times, with no call at an instant at
which an earlier write ends, and with fewer keys than the in-memory cache has entries. -/
structure Sequence (maxEntries : Int) (calls : List (Call Bytes Bytes)) : Prop where
  /-- The calls are made in the order of their times. -/
  ordered : calls.Pairwise fun earlier later => earlier.time ≤ later.time
  /-- No call falls on the instant at which an earlier write ends. -/
  clear : calls.Pairwise fun earlier later => ∀ key value ttl,
    earlier.op = .set key value ttl → (Write.mk value earlier.time ttl).Clear later
  /-- There is always room for one key more. -/
  few : ((keysUsed calls).length : Int) < maxEntries

/-- The item a server holds for a write with a positive ttl. -/
def Write.item (write : Write Bytes) : Item := ⟨write.value, some (write.time + sent write.ttl)⟩

/-- The server holds the last writes under the keys of the cache. -/
def Mirrors (r : Redis) (server : Server) (written : Bytes → Option (Write Bytes)) : Prop :=
  ∀ key, server (r.buildKey key) = (written key).map Write.item

theorem expiry_of_positive (lingers : Bool) (server : Server) (now : Int) (key : Bytes) {ttl : Int}
    (positive : 0 < ttl) :
    server.expiry lingers now key (setOption ttl) = some (now + sent ttl) := by
  unfold setOption sent
  rw [if_pos positive]
  split_ifs <;> rfl

section Run

variable {lingers : Bool} {r : Redis} {server : Server} {last : Bytes → Option (Write Bytes)}

theorem Mirrors.update (mirrors : Mirrors r server last) (key : Bytes)
    (write : Option (Write Bytes)) :
    Mirrors r (Function.update server (r.buildKey key) (write.map Write.item))
      (Function.update last key write) := by
  intro again
  by_cases same : again = key
  · rw [same, Function.update_self, Function.update_self]
  · rw [Function.update_of_ne fun equal => same ((r.buildKey_inj).mp equal),
      Function.update_of_ne same, mirrors again]

/-- Sets with a positive ttl, reads and deletes keep the server in step. -/
theorem Mirrors.perform (mirrors : Mirrors r server last) {call : Call Bytes Bytes}
    (positive : ∀ key value ttl, call.op = .set key value ttl → 0 < ttl) :
    Mirrors r (r.perform lingers server call).1 (call.write last) := by
  obtain ⟨time, op⟩ := call
  cases op with
  | set key value ttl =>
      have expiry := expiry_of_positive lingers server time (r.buildKey key)
        (positive key value ttl rfl)
      simp only [Redis.perform, Redis.set, Server.set, expiry]
      exact mirrors.update key (some ⟨value, time, ttl⟩)
  | get key => exact mirrors
  | delete key => exact mirrors.update key none
  | removeExpired order => exact mirrors

/-- Away from the instants at which it ends, a write is there for both or for neither. -/
theorem live_item {write : Write Bytes} {now : Int} (kept : Kept write.ttl)
    (off : now ≠ write.time + write.ttl) (off_sent : now ≠ write.time + sent write.ttl) :
    write.item.live lingers now = true ↔ now ≤ write.time + write.ttl := by
  have close := (kept_iff kept.1).mp kept
  simp only [Item.live, Write.item, Option.all_some, Bool.or_eq_true, decide_eq_true_eq,
    Bool.and_eq_true, beq_iff_eq]
  omega

theorem Mirrors.get (mirrors : Mirrors r server last) {now : Int} {key : Bytes}
    (kept : ∀ write, last key = some write → Kept write.ttl ∧ now ≠ write.time + write.ttl ∧
      now ≠ write.time + sent write.ttl) :
    r.get lingers server now key = readAt now (last key) := by
  rw [Redis.get, Server.find, mirrors key]
  cases found : last key with
  | none => rfl
  | some write =>
      obtain ⟨exact, off, off_sent⟩ := kept write found
      have live := @live_item lingers write now exact off off_sent
      rw [Option.map_some, Option.filter_some, readAt]
      by_cases there : now ≤ write.time + write.ttl
      · rw [if_pos (live.mpr there), if_pos there]
        rfl
      · rw [if_neg fun now_live => there (live.mp now_live), if_neg there]

/-- Along a run whose ttls are kept, the Redis cache is a map whose entries end. -/
theorem Redis.answers_eq (mirrors : Mirrors r server last) {calls : List (Call Bytes Bytes)}
    (clear_last : ∀ key write, last key = some write →
      Kept write.ttl ∧ ∀ call ∈ calls, write.Clear call)
    (clear : calls.Pairwise fun earlier later => ∀ key value ttl,
      earlier.op = .set key value ttl → (Write.mk value earlier.time ttl).Clear later)
    (kept : ∀ call ∈ calls, ∀ key value ttl, call.op = .set key value ttl → Kept ttl) :
    r.answers lingers server calls = Cache.answers last calls := by
  induction calls generalizing server last with
  | nil => rfl
  | cons call calls ih =>
      rw [List.pairwise_cons] at clear
      have kept_call := kept call (by simp)
      have same : (r.perform lingers server call).2 = call.answer last := by
        obtain ⟨time, op⟩ := call
        cases op with
        | get key =>
            have read : r.get lingers server time key = readAt time (last key) := by
              refine mirrors.get fun write found => ?_
              obtain ⟨exact, away⟩ := clear_last key write found
              obtain ⟨off, off_sent⟩ := away _ List.mem_cons_self (by simp [Op.key])
              exact ⟨exact, off, off_sent exact.1⟩
            simp only [Redis.perform, Call.answer, read]
        | set key value ttl => rfl
        | delete key => rfl
        | removeExpired order => rfl
      have next : Mirrors r (r.perform lingers server call).1 (call.write last) :=
        mirrors.perform fun key value ttl sets => (kept_call key value ttl sets).1
      rw [Redis.answers, Cache.answers, same]
      refine congrArg _ (ih next (fun key write found => ?_) clear.2 fun other member =>
        kept other (by simp [member]))
      -- a last write is the one of this call or an earlier one
      by_cases sets : call.Sets key
      · obtain ⟨value, ttl, sets⟩ := sets
        rw [Call.write, sets] at found
        simp only [Function.update_self, Option.some.injEq] at found
        subst found
        exact ⟨kept_call key value ttl sets, fun other member =>
          clear.1 other member key value ttl sets⟩
      · by_cases deletes : call.Deletes key
        · rw [write_of_deletes deletes] at found
          cases found
        · rw [write_of_untouched sets deletes] at found
          obtain ⟨exact, away⟩ := clear_last key write found
          exact ⟨exact, fun other member => away other (by simp [member])⟩

end Run

/-! ## One for the other -/

/-- With the allowed ttls, the caches return the same from every call of every run. -/
def Interchangeable (lingers : Bool) (r : Redis) (allowed : Int → Prop) : Prop :=
  ∀ maxEntries server calls, (∀ key, server (r.buildKey key) = none) →
    Sequence maxEntries calls →
    (∀ call ∈ calls, ∀ key value ttl, call.op = .set key value ttl → allowed ttl) →
    (Memory.newMemory maxEntries).answers calls = some (r.answers lingers server calls)

/-- With ttls that are kept, both caches are one map whose entries end. -/
theorem interchangeable_kept (lingers : Bool) (r : Redis) : Interchangeable lingers r Kept := by
  intro maxEntries server calls unused run kept
  have mirrors : Mirrors r server fun _ => none := unused
  rw [Redis.answers_eq mirrors nofun run.clear kept]
  exact Memory.answers_newMemory run.ordered run.few

/-- A write and a read of it. -/
def writeAndRead (ttl now : Int) : List (Call Bytes Bytes) :=
  [⟨0, .set [] [] ttl⟩, ⟨now, .get []⟩]

theorem sequence_writeAndRead {ttl now : Int} (later : 0 ≤ now) (off : now ≠ ttl)
    (off_sent : 0 < ttl → now ≠ sent ttl) : Sequence 2 (writeAndRead ttl now) := by
  refine ⟨by simpa [writeAndRead] using later, ?_, by simp [keysUsed, writeAndRead, Op.key]⟩
  simp only [writeAndRead, List.pairwise_cons, List.mem_singleton, forall_eq, List.Pairwise.nil,
    and_true, List.not_mem_nil, false_imp_iff, implies_true]
  rintro key value ttl ⟨⟩ -
  exact ⟨by simpa using off, fun positive => by simpa using off_sent positive⟩

/-- On an empty server the write has an end only if its ttl is positive. -/
theorem expiry_of_empty (lingers : Bool) (now : Int) (key : Bytes) (ttl : Int) :
    Server.expiry lingers (fun _ => none) now key (setOption ttl) =
      if 0 < ttl then some (now + sent ttl) else none := by
  by_cases positive : 0 < ttl
  · rw [expiry_of_positive lingers _ now key positive, if_pos positive]
  · rw [setOption, if_neg positive, if_neg positive]
    split_ifs <;> rfl

theorem answers_writeAndRead (ttl now : Int) :
    answers (fun _ => none) (writeAndRead ttl now) =
      [.done, if now ≤ ttl then .found [] else .failed .cacheMiss] := by
  by_cases there : now ≤ ttl <;>
    simp [writeAndRead, answers, Call.answer, Call.write, readAt, Reply.ofValue, there]

theorem Redis.answers_writeAndRead (lingers : Bool) (r : Redis) {ttl now : Int}
    (off_sent : 0 < ttl → now ≠ sent ttl) :
    r.answers lingers (fun _ => none) (writeAndRead ttl now) =
      [.done, if 0 < ttl → now < sent ttl then .found [] else .failed .cacheMiss] := by
  have live : (Item.mk [] (if 0 < ttl then some (sent ttl) else none)).live lingers now = true ↔
      (0 < ttl → now < sent ttl) := by
    by_cases positive : 0 < ttl
    · simp [Item.live, positive, off_sent positive]
    · simp [Item.live, positive]
  by_cases there : 0 < ttl → now < sent ttl
  · simp [writeAndRead, Redis.answers, perform, get, set, Server.find, Server.set, expiry_of_empty,
      Option.filter_some, live.mpr there, if_pos there, Reply.ofValue]
  · have gone := mt live.mp there
    simp [writeAndRead, Redis.answers, perform, get, set, Server.find, Server.set, expiry_of_empty,
      Option.filter_some, gone, if_neg there, Reply.ofValue]

/-- If the caches agree on the read, then the write is there for both or for neither. -/
theorem live_iff_of_agree {lingers : Bool} {r : Redis} {ttl now : Int} (later : 0 ≤ now)
    (off : now ≠ ttl) (off_sent : 0 < ttl → now ≠ sent ttl)
    (agree : (Memory.newMemory 2).answers (writeAndRead ttl now) =
      some (r.answers lingers (fun _ => none) (writeAndRead ttl now))) :
    now ≤ ttl ↔ (0 < ttl → now < sent ttl) := by
  have run := sequence_writeAndRead later off off_sent
  have same : answers (fun _ => none) (writeAndRead ttl now) =
      r.answers lingers (fun _ => none) (writeAndRead ttl now) :=
    Option.some.inj ((Memory.answers_newMemory run.ordered run.few).symm.trans agree)
  rw [answers_writeAndRead, r.answers_writeAndRead lingers off_sent] at same
  by_cases memory : now ≤ ttl <;> by_cases redis : 0 < ttl → now < sent ttl
  · exact iff_of_true memory redis
  · rw [if_pos memory, if_neg redis] at same
    cases same
  · rw [if_neg memory, if_pos redis] at same
    cases same
  · exact iff_of_false memory redis

/-- The caches are interchangeable with exactly the ttls that are kept. -/
theorem interchangeable_iff (lingers : Bool) (r : Redis) (allowed : Int → Prop) :
    Interchangeable lingers r allowed ↔ ∀ ttl, allowed ttl → Kept ttl := by
  constructor
  · intro interchangeable ttl permitted
    have live : ∀ now, 0 ≤ now → now ≠ ttl → (0 < ttl → now ≠ sent ttl) →
        (now ≤ ttl ↔ (0 < ttl → now < sent ttl)) := by
      intro now later off off_sent
      refine live_iff_of_agree later off off_sent (interchangeable 2 (fun _ => none)
        (writeAndRead ttl now) (fun _ => rfl) (sequence_writeAndRead later off off_sent) ?_)
      intro call member key value other sets
      simp only [writeAndRead, List.mem_cons, List.not_mem_nil, or_false] at member
      rcases member with rfl | rfl
      · cases sets
        exact permitted
      · cases sets
    have positive : 0 < ttl := by
      by_contra expired
      have read := live 1 (by omega) (by omega) (by omega)
      omega
    rw [kept_iff positive]
    -- a read between the two ends tells the caches apart
    have below := live (ttl - 1) (by omega) (by omega)
    have above := live (ttl + 1) (by omega) (by omega)
    constructor <;> by_contra far
    · have read := below (by omega)
      omega
    · have read := above (by omega)
      omega
  · intro kept maxEntries server calls unused run permitted
    exact interchangeable_kept lingers r maxEntries server calls unused run
      fun call member key value ttl sets => kept ttl (permitted call member key value ttl sets)

/-- A value stored without a ttl is gone at once from the in-memory cache and stays in Redis. -/
theorem zero_ttl_tells_apart :
    Sequence 2 (writeAndRead 0 1) ∧
      (Memory.newMemory 2).answers (writeAndRead 0 1) = some [.done, .failed .cacheMiss] ∧
      Redis.answers true ⟨[]⟩ (fun _ => none) (writeAndRead 0 1) = [.done, .found []] :=
  ⟨sequence_writeAndRead (by decide) (by decide) (by decide), by decide, by decide⟩

end CommonGo.Cache
