import CommonGo.Cache.Lru
import CommonGo.Program.Recency
import Mathlib.Data.List.Induction

/-!
# What a read of the cache tells

A history of calls, one at a time and in the order of their times.  A read that returns a value
returns the one set last; a read that misses has one of four reasons, and where the reason is an
eviction, the evicted key was the one used least recently in a full cache.
-/

namespace CommonGo.Cache

open Program

variable {κ ν : Type}

/-! ## Histories -/

/-- The call sets the key. -/
def Call.Sets (key : κ) (call : Call κ ν) : Prop :=
  ∃ value ttl, call.op = .set key value ttl

/-- The call deletes the key. -/
def Call.Deletes (key : κ) (call : Call κ ν) : Prop := call.op = .delete key

/-- An entry is what the last setting of its key made, and the key was not deleted since. -/
def Stored (history : List (Call κ ν)) (entry : Entry κ ν) : Prop :=
  ∃ before time ttl later,
    history = before ++ ⟨time, .set entry.key entry.value ttl⟩ :: later ∧
    (∀ call ∈ later, ¬ call.Sets entry.key ∧ ¬ call.Deletes entry.key) ∧
    entry.expiresAt = time + ttl

/-- A cache and the keys that were set or successfully read, newest first. -/
structure Trace (κ ν : Type) where
  /-- The cache after the calls. -/
  memory : Memory κ ν
  /-- The keys used, newest first. -/
  uses : List κ

/-- The uses after a call with its reply. -/
def usesAfter (uses : List κ) : Op κ ν → Reply ν → List κ
  | .set key _ _, .done => key :: uses
  | .get key, .found _ => key :: uses
  | _, _ => uses

variable [DecidableEq κ]

/-- One call, with its use recorded; `none` when it does not return. -/
def Trace.observe (trace : Trace κ ν) (call : Call κ ν) : Option (Trace κ ν) :=
  (trace.memory.perform call).map fun result =>
    ⟨result.1, usesAfter trace.uses call.op result.2⟩

/-- A new cache after a history of calls. -/
def after (maxEntries : Int) (history : List (Call κ ν)) : Option (Trace κ ν) :=
  history.foldlM Trace.observe ⟨Memory.newMemory maxEntries, []⟩

/-- The call sets a new key in a full cache and thereby evicts a key: the one of all keys held
that was set or successfully read least recently. -/
structure Evicts (maxEntries : Int) (trace : Trace κ ν) (call : Call κ ν) (key : κ) : Prop where
  /-- The call sets a key that is not there. -/
  sets_new : ∃ fresh, call.Sets fresh ∧ fresh ∉ trace.memory.keys
  /-- There is no room. -/
  full : (trace.memory.entries.length : Int) = maxEntries
  /-- The evicted key was there. -/
  held : key ∈ trace.memory.keys
  /-- All other keys have been used since it was. -/
  oldest : ∀ other ∈ trace.memory.keys, other ≠ key → MoreRecent trace.uses other key
  /-- It is not there afterwards. -/
  gone : ∃ next, trace.observe call = some next ∧ key ∉ next.memory.keys

/-- Why a key is not found: it was never set, or since it was set last it was deleted, or its time
is over, or it was evicted. -/
def Gone (maxEntries : Int) (history : List (Call κ ν)) (now : Int) (key : κ) : Prop :=
  (∀ call ∈ history, ¬ call.Sets key) ∨
    ∃ before time value ttl later, history = before ++ ⟨time, .set key value ttl⟩ :: later ∧
      (∀ call ∈ later, ¬ call.Sets key) ∧
      ((∃ call ∈ later, call.Deletes key) ∨ time + ttl < now ∨
        ∃ middle call rest trace, later = middle ++ call :: rest ∧
          after maxEntries (before ++ ⟨time, .set key value ttl⟩ :: middle) = some trace ∧
          Evicts maxEntries trace call key)

section Extend

variable {maxEntries now : Int} {history : List (Call κ ν)} {entry : Entry κ ν} {key : κ}
  {call : Call κ ν}

omit [DecidableEq κ] in
theorem Stored.snoc (stored : Stored history entry) (unset : ¬ call.Sets entry.key)
    (undeleted : ¬ call.Deletes entry.key) : Stored (history ++ [call]) entry := by
  obtain ⟨before, time, ttl, later, rfl, last, expires⟩ := stored
  refine ⟨before, time, ttl, later ++ [call], by simp, ?_, expires⟩
  intro other member
  rcases List.mem_append.mp member with earlier | final
  · exact last other earlier
  · rw [List.mem_singleton.mp final]
    exact ⟨unset, undeleted⟩

omit [DecidableEq κ] in
theorem stored_snoc_set (history : List (Call κ ν)) (time : Int) (key : κ) (value : ν)
    (ttl : Int) :
    Stored (history ++ [⟨time, .set key value ttl⟩]) ⟨key, value, time + ttl⟩ :=
  ⟨history, time, ttl, [], rfl, nofun, rfl⟩

/-- What is gone stays gone until it is set again. -/
theorem Gone.snoc {later : Int} (gone : Gone maxEntries history now key) (unset : ¬ call.Sets key)
    (passes : now ≤ later) : Gone maxEntries (history ++ [call]) later key := by
  have extend : ∀ calls : List (Call κ ν), (∀ other ∈ calls, ¬ other.Sets key) →
      ∀ other ∈ calls ++ [call], ¬ other.Sets key := by
    intro calls none_sets other member
    rcases List.mem_append.mp member with earlier | final
    · exact none_sets other earlier
    · rw [List.mem_singleton.mp final]
      exact unset
  rcases gone with never | ⟨before, time, value, ttl, calls, rfl, last, reason⟩
  · exact Or.inl (extend history never)
  · refine Or.inr ⟨before, time, value, ttl, calls ++ [call], by simp, extend calls last, ?_⟩
    rcases reason with ⟨other, member, deletes⟩ | elapsed |
      ⟨middle, other, rest, trace, split, evicts⟩
    · exact Or.inl ⟨other, List.mem_append_left _ member, deletes⟩
    · exact Or.inr (Or.inl (by omega))
    · exact Or.inr (Or.inr ⟨middle, other, rest ++ [call], trace, by simp [split], evicts⟩)

/-- A stored entry that a call takes away is gone for the reason the call gives. -/
theorem Stored.gone (stored : Stored history entry) (unset : ¬ call.Sets entry.key)
    (reason : call.Deletes entry.key ∨ entry.expiresAt < now ∨
      ∃ trace, after maxEntries history = some trace ∧ Evicts maxEntries trace call entry.key) :
    Gone maxEntries (history ++ [call]) now entry.key := by
  obtain ⟨before, time, ttl, later, rfl, last, expires⟩ := stored
  refine Or.inr ⟨before, time, entry.value, ttl, later ++ [call], by simp, ?_, ?_⟩
  · intro other member
    rcases List.mem_append.mp member with earlier | final
    · exact (last other earlier).1
    · rw [List.mem_singleton.mp final]
      exact unset
  · rcases reason with deletes | elapsed | ⟨trace, reached, evicts⟩
    · exact Or.inl ⟨call, by simp, deletes⟩
    · exact Or.inr (Or.inl (expires ▸ elapsed))
    · exact Or.inr (Or.inr ⟨later, call, [], trace, rfl, reached, evicts⟩)

end Extend

/-! ## The invariant -/

/-- What a history has left: the entries in order of recency, each as it was set last, and a
reason for every key that is not among them. -/
structure Accounts (maxEntries : Int) (history : List (Call κ ν)) (now : Int)
    (trace : Trace κ ν) (entries : List (Entry κ ν)) : Prop where
  /-- The cache holds the entries. -/
  holds : Holds maxEntries trace.memory entries
  /-- They are in the order of their last uses. -/
  recent : (entries.map Entry.key).Pairwise (MoreRecent trace.uses)
  /-- Each is as it was set last. -/
  stored : ∀ entry ∈ entries, Stored history entry
  /-- There is a reason for every other key. -/
  gone : ∀ key, key ∉ entries.map Entry.key → Gone maxEntries history now key

section Step

variable {maxEntries now later : Int} {history : List (Call κ ν)} {trace : Trace κ ν}
  {entries next : List (Entry κ ν)} {call : Call κ ν} {reply : Reply ν} {m : Memory κ ν}

omit [DecidableEq κ] in
theorem not_sets_of_ne {time : Int} {key other : κ} {value : ν} {ttl : Int}
    (differs : other ≠ key) : ¬ (Call.mk time (Op.set key value ttl)).Sets other := by
  rintro ⟨_, _, equal⟩
  cases equal
  exact differs rfl

/-- A call of a key brings it to the front of the others. -/
theorem Accounts.use (accounts : Accounts maxEntries history now trace entries)
    {rest : List (Entry κ ν)} {key : κ} (fewer : rest.Sublist entries)
    (others : ∀ other ∈ rest, other.key ≠ key) :
    (key :: rest.map Entry.key).Pairwise (MoreRecent (key :: trace.uses)) := by
  refine pairwise_moreRecent_cons (accounts.recent.sublist (fewer.map Entry.key)) ?_
  intro member
  obtain ⟨other, inRest, equal⟩ := List.mem_map.mp member
  exact others other inRest equal

/-- A call that sets a key puts its entry in front of some of the others. -/
theorem Accounts.snoc_set (accounts : Accounts maxEntries history now trace entries)
    {rest : List (Entry κ ν)} {time : Int} {key : κ} {value : ν} {ttl : Int}
    (fewer : rest.Sublist entries) (others : ∀ other ∈ rest, other.key ≠ key)
    (holds : Holds maxEntries m (⟨key, value, time + ttl⟩ :: rest)) (waits : now ≤ later)
    (lost : ∀ entry ∈ entries, entry.key ≠ key → entry ∉ rest →
      Gone maxEntries (history ++ [⟨time, .set key value ttl⟩]) later entry.key) :
    Accounts maxEntries (history ++ [⟨time, .set key value ttl⟩]) later ⟨m, key :: trace.uses⟩
      (⟨key, value, time + ttl⟩ :: rest) := by
  refine ⟨holds, accounts.use fewer others, ?_, ?_⟩
  · intro entry member
    rcases List.mem_cons.mp member with rfl | kept
    · exact stored_snoc_set history time key value ttl
    · exact (accounts.stored entry (fewer.subset kept)).snoc
        (not_sets_of_ne (others entry kept)) nofun
  · intro other missing
    rw [List.map_cons, List.mem_cons, not_or] at missing
    by_cases known : other ∈ entries.map Entry.key
    · obtain ⟨entry, member, rfl⟩ := List.mem_map.mp known
      exact lost entry member missing.1 fun kept => missing.2 (List.mem_map_of_mem kept)
    · exact (accounts.gone other known).snoc (not_sets_of_ne missing.1) waits

/-- A call that uses nothing keeps some of the entries. -/
theorem Accounts.snoc_quiet (accounts : Accounts maxEntries history now trace entries)
    (fewer : next.Sublist entries) (unset : ∀ key, ¬ call.Sets key)
    (undeleted : ∀ entry ∈ next, ¬ call.Deletes entry.key) (holds : Holds maxEntries m next)
    (waits : now ≤ later)
    (lost : ∀ entry ∈ entries, entry ∉ next →
      call.Deletes entry.key ∨ entry.expiresAt < later) :
    Accounts maxEntries (history ++ [call]) later ⟨m, trace.uses⟩ next := by
  refine ⟨holds, accounts.recent.sublist (fewer.map Entry.key), ?_, ?_⟩
  · intro entry member
    exact (accounts.stored entry (fewer.subset member)).snoc (unset _) (undeleted entry member)
  · intro key missing
    by_cases known : key ∈ entries.map Entry.key
    · obtain ⟨entry, member, rfl⟩ := List.mem_map.mp known
      have dropped := lost entry member fun kept => missing (List.mem_map_of_mem kept)
      exact (accounts.stored entry member).gone (unset _)
        (dropped.imp_right fun elapsed => Or.inl elapsed)
    · exact (accounts.gone key known).snoc (unset key) waits

/-- The entry that a set of a new key takes from a full cache is evicted. -/
theorem Accounts.evicts {front : List (Entry κ ν)} {last : Entry κ ν} {time : Int} {key : κ}
    {value : ν} {ttl : Int}
    (accounts : Accounts maxEntries history now trace (front ++ [last]))
    (missing : key ∉ (front ++ [last]).map Entry.key)
    (full : ((front ++ [last]).length : Int) = maxEntries)
    (performed : trace.memory.perform ⟨time, .set key value ttl⟩ = some (m, .done))
    (holds : Holds maxEntries m (⟨key, value, time + ttl⟩ :: front)) :
    Evicts maxEntries trace ⟨time, .set key value ttl⟩ last.key := by
  have represents := accounts.holds.represents
  have distinct := represents.keys_nodup
  have keys : trace.memory.keys = front.map Entry.key ++ [last.key] := by
    rw [represents.keys_eq, List.map_append]
    rfl
  refine ⟨⟨key, ⟨value, ttl, rfl⟩, represents.keys_eq ▸ missing⟩, ?_, ?_, ?_, ?_⟩
  · rw [represents.entries_eq]
    exact full
  · simp [keys]
  · intro other member differs
    have recent := accounts.recent
    rw [List.map_append, List.map_cons, List.map_nil] at recent
    rw [keys] at member
    exact moreRecent_last recent member differs
  · refine ⟨⟨m, key :: trace.uses⟩, by simp [Trace.observe, performed, usesAfter], ?_⟩
    rw [holds.represents.keys_eq, List.map_cons, List.mem_cons, not_or]
    constructor
    · intro equal
      have same : last.key = key := equal
      exact missing (by simp [← same])
    · intro member
      rw [List.map_append, List.nodup_append] at distinct
      exact distinct.2.2 _ member _ (by simp) rfl

/-- Every call keeps the account. -/
theorem Accounts.step (accounts : Accounts maxEntries history now trace entries)
    (reached : after maxEntries history = some trace)
    (performed : trace.memory.perform call = some (m, reply))
    (steps : Lru.Step maxEntries entries call reply next) (holds : Holds maxEntries m next)
    (ordered : now ≤ call.time) (passes : call.time ≤ later) :
    Accounts maxEntries (history ++ [call]) later ⟨m, usesAfter trace.uses call.op reply⟩ next := by
  have distinct := accounts.holds.represents.keys_nodup
  have waits : now ≤ later := Int.le_trans ordered passes
  cases steps with
  | @overwrite front back entry time key value ttl same =>
      subst same
      refine accounts.snoc_set (by simp) (fun _ => key_ne_of_split distinct) holds waits ?_
      intro other member differs dropped
      have rest : other = entry ∨ other ∈ front ++ back := by
        simpa [or_left_comm] using member
      rcases rest with rfl | kept
      · exact absurd rfl differs
      · exact absurd kept dropped
  | insert missing room =>
      refine accounts.snoc_set (List.Sublist.refl _) ?_ holds waits ?_
      · rintro other member rfl
        exact missing (List.mem_map_of_mem member)
      · intro other member _ dropped
        exact absurd member dropped
  | @evict front last time key value ttl missing full =>
      refine accounts.snoc_set (List.sublist_append_left _ _) ?_ holds waits ?_
      · rintro other member rfl
        exact missing (List.mem_map_of_mem (List.mem_append_left _ member))
      · intro other member differs dropped
        have evicted : other = last := by
          rcases List.mem_append.mp member with kept | final
          · exact absurd kept dropped
          · exact List.mem_singleton.mp final
        subst evicted
        exact (accounts.stored other member).gone (not_sets_of_ne differs)
          (Or.inr (Or.inr ⟨trace, reached, accounts.evicts missing full performed holds⟩))
  | miss missing =>
      exact accounts.snoc_quiet (List.Sublist.refl _) nofun nofun holds waits
        fun entry member dropped => absurd member dropped
  | stale same expired =>
      exact accounts.snoc_quiet (List.Sublist.refl _) nofun nofun holds waits
        fun entry member dropped => absurd member dropped
  | @hit front back entry time key same live =>
      subst same
      have members : ∀ other, other ∈ entry :: (front ++ back) ↔ other ∈ front ++ entry :: back :=
        fun other => List.perm_middle.symm.mem_iff
      refine ⟨holds, accounts.use (by simp) fun _ => key_ne_of_split distinct, ?_, ?_⟩
      · intro other member
        exact (accounts.stored other ((members other).mp member)).snoc nofun nofun
      · intro key missing
        refine (accounts.gone key fun known => missing ?_).snoc nofun waits
        obtain ⟨other, member, rfl⟩ := List.mem_map.mp known
        exact List.mem_map_of_mem ((members other).mpr member)
  | absent missing =>
      refine accounts.snoc_quiet (List.Sublist.refl _) nofun ?_ holds waits
        fun entry member dropped => absurd member dropped
      rintro entry member ⟨⟩
      exact missing (List.mem_map_of_mem member)
  | @delete front back entry time key same =>
      subst same
      refine accounts.snoc_quiet (by simp) nofun ?_ holds waits ?_
      · intro other member deletes
        exact key_ne_of_split distinct member (Op.delete.inj deletes).symm
      · intro other member dropped
        have removed : other = entry := by
          have rest : other = entry ∨ other ∈ front ++ back := by
            simpa [or_left_comm] using member
          exact rest.resolve_right dropped
        subst removed
        exact Or.inl rfl
  | @purge _ time order =>
      refine accounts.snoc_quiet List.filter_sublist nofun nofun holds waits ?_
      intro entry member dropped
      have expired : entry.expired time = true := by
        by_contra live
        exact dropped (List.mem_filter.mpr ⟨member, by simpa using live⟩)
      exact Or.inr (Int.lt_of_lt_of_le (of_decide_eq_true expired) passes)

end Step

/-- Every history of calls in the order of their times returns, and is accounted for. -/
theorem after_accounts {maxEntries : Int} (positive : 1 ≤ maxEntries) (history : List (Call κ ν))
    (ordered : history.Pairwise fun earlier later => earlier.time ≤ later.time) {now : Int}
    (passed : ∀ call ∈ history, call.time ≤ now) :
    ∃ trace entries, after maxEntries history = some trace ∧
      Accounts maxEntries history now trace entries := by
  induction history using List.reverseRecOn generalizing now with
  | nil =>
      refine ⟨_, [], rfl, holds_newMemory positive, List.Pairwise.nil, nofun, ?_⟩
      exact fun key _ => Or.inl nofun
  | append_singleton history call ih =>
      rw [List.pairwise_append] at ordered
      have earlier : ∀ other ∈ history, other.time ≤ call.time := fun other member =>
        ordered.2.2 other member call (List.mem_singleton_self call)
      obtain ⟨trace, entries, reached, accounts⟩ := ih ordered.1 earlier
      obtain ⟨m, reply, next, performed, steps, holds⟩ := accounts.holds.perform positive call
      refine ⟨_, next, ?_, accounts.step reached performed steps holds (Int.le_refl _)
        (passed call (by simp))⟩
      rw [after, List.foldlM_append, ← after, reached]
      simp [Trace.observe, performed]

/-- The cache is an LRU cache with expiry.  After every history of calls one at a time, a read
that returns a value returns what the last set of the key stored, not deleted since and not past
its time; and a read that misses has its reason: the key was never set, or since its last set it
was deleted, or its time is over, or the set of a new key evicted it as the least recently used
key of a full cache. -/
theorem get_lru (maxEntries : Int) (positive : 1 ≤ maxEntries) (history : List (Call κ ν))
    (ordered : history.Pairwise fun earlier later => earlier.time ≤ later.time) (now : Int)
    (passed : ∀ call ∈ history, call.time ≤ now) (key : κ) :
    ∃ trace, after maxEntries history = some trace ∧
      (∀ value, (trace.memory.get now key).2 = .ok value →
        ∃ before time ttl later, history = before ++ ⟨time, .set key value ttl⟩ :: later ∧
          (∀ call ∈ later, ¬ call.Sets key ∧ ¬ call.Deletes key) ∧ now ≤ time + ttl) ∧
      ((trace.memory.get now key).2 = .error .cacheMiss → Gone maxEntries history now key) := by
  obtain ⟨trace, entries, reached, accounts⟩ := after_accounts positive history ordered passed
  obtain ⟨next, step, -⟩ := accounts.holds.get now key
  refine ⟨trace, reached, ?_, ?_⟩
  · intro value found
    rw [found] at step
    cases step with
    | @hit front back entry _ _ same live =>
        subst same
        obtain ⟨before, time, ttl, later, split, last, expires⟩ :=
          accounts.stored entry (by simp)
        refine ⟨before, time, ttl, later, split, last, ?_⟩
        rw [← expires]
        simpa [Entry.expired] using live
  · intro missed
    rw [missed] at step
    cases step with
    | miss missing => exact accounts.gone key missing
    | @stale front back entry _ _ same expired =>
        subst same
        obtain ⟨before, time, ttl, later, split, last, expires⟩ :=
          accounts.stored entry (by simp)
        refine Or.inr ⟨before, time, entry.value, ttl, later, split,
          fun call member => (last call member).1, Or.inr (Or.inl ?_)⟩
        rw [← expires]
        exact of_decide_eq_true expired

/-- Key 1 is read before key 3 needs room, so key 2 is the one to go. -/
def refreshedHistory : List (Call Nat Nat) :=
  [⟨0, .set 1 10 60⟩, ⟨1, .set 2 20 60⟩, ⟨2, .get 1⟩, ⟨3, .set 3 30 60⟩]

theorem get_lru_sample :
    (after 2 refreshedHistory).map (fun trace => Reply.ofValue (trace.memory.get 4 2).2) =
        some (.failed .cacheMiss) ∧
      Gone 2 refreshedHistory 4 2 := by
  have missed : (after 2 refreshedHistory).map
      (fun trace => Reply.ofValue (trace.memory.get 4 2).2) = some (.failed .cacheMiss) := by
    decide
  obtain ⟨trace, reached, -, reason⟩ :=
    get_lru 2 (by decide) refreshedHistory (by decide) 4 (by decide) 2
  refine ⟨missed, reason ?_⟩
  rw [reached, Option.map_some, Option.some.injEq] at missed
  cases read : (trace.memory.get 4 2).2 with
  | ok value =>
      rw [read] at missed
      cases missed
  | error error =>
      rw [read] at missed
      cases missed
      rfl

end CommonGo.Cache
