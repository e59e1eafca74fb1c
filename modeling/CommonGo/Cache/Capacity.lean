import CommonGo.Cache.Locking
import CommonGo.Cache.Lru
import CommonGo.Cache.Redis

/-!
# The cache and its capacity

With room for at least one entry, the index and the list of a cache keep describing each other, and
every call returns.  The capacity is not checked when a cache is made.  Without room for one entry
nothing is ever stored, and the first `Set` holds the lock for ever.
-/

namespace CommonGo.Cache

open Program

variable {ι κ ν : Type} [DecidableEq κ]

/-! ## Integrity -/

/-- A cache and what the calls to it have returned. -/
structure Session (κ ν : Type) where
  /-- The cache after the calls. -/
  memory : Memory κ ν
  /-- What they returned, in their order. -/
  replies : List (Reply ν)

/-- One call; `none` when it does not return. -/
def Session.call (session : Session κ ν) (call : Call κ ν) : Option (Session κ ν) :=
  (session.memory.perform call).map fun result => ⟨result.1, session.replies ++ [result.2]⟩

/-- The error of an element that does not hold an entry. -/
def Reply.Unexpected (reply : Reply ν) : Prop := ∃ message, reply = .failed (.invalidValue message)

/-- The index and the list describe the same entries. -/
structure Intact (maxEntries : Int) (m : Memory κ ν) : Prop where
  /-- No two entries have the same key. -/
  distinct : m.keys.Nodup
  /-- Every element holds an entry. -/
  held : ∀ elem ∈ m.evictList, ∃ entry, m.heap elem = .entry entry
  /-- The index has the keys of the entries. -/
  exactly : ∀ key, key ∈ m.items ↔ key ∈ m.keys
  /-- A key leads to the element that holds it. -/
  leads : ∀ key elem, m.items.lookup key = some elem →
    elem ∈ m.evictList ∧ ∃ entry, m.heap elem = .entry entry ∧ entry.key = key
  /-- There are no more elements than the capacity allows. -/
  bounded : (m.evictList.length : Int) ≤ maxEntries

theorem Holds.intact {capacity : Int} {m : Memory κ ν} {entries : List (Entry κ ν)}
    (holds : Holds capacity m entries) : Intact capacity m where
  distinct := by
    rw [holds.represents.keys_eq]
    exact holds.represents.keys_nodup
  held elem member := by
    obtain ⟨entry, at_elem, _⟩ := holds.represents.lookup_of_mem member
    exact ⟨entry, at_elem⟩
  exactly key := by
    rw [holds.represents.keys_eq, ← not_iff_not, ← holds.represents.lookup_eq_none_iff,
      AList.lookup_eq_none]
  leads key elem := (holds.represents.indexed key elem).mp
  bounded := by
    rw [holds.represents.length_eq]
    exact holds.bounded

omit [DecidableEq κ] in
/-- No step of a recency list returns the error of a foreign element. -/
theorem Lru.Step.not_unexpected {capacity : Int} {entries after : List (Entry κ ν)}
    {call : Call κ ν} {reply : Reply ν} (step : Lru.Step capacity entries call reply after) :
    ¬ reply.Unexpected := by
  rintro ⟨message, rfl⟩
  cases step

/-- The cache of a session holds a recency list, and no call has met a foreign element. -/
structure Session.Sound (maxEntries : Int) (session : Session κ ν) : Prop where
  /-- The cache represents a recency list within its capacity. -/
  holds : ∃ entries, Holds maxEntries session.memory entries
  /-- No call failed because of a value of another type. -/
  expected : ∀ reply ∈ session.replies, ¬ reply.Unexpected

theorem Session.Sound.call {maxEntries : Int} {session : Session κ ν} (positive : 1 ≤ maxEntries)
    (call : Call κ ν) (sound : session.Sound maxEntries) :
    ∃ next, session.call call = some next ∧ next.Sound maxEntries := by
  obtain ⟨⟨entries, holds⟩, expected⟩ := sound
  obtain ⟨m, reply, after, performed, step, kept⟩ := holds.perform positive call
  refine ⟨⟨m, session.replies ++ [reply]⟩, by simp [Session.call, performed], ⟨after, kept⟩, ?_⟩
  exact List.forall_mem_append.mpr ⟨expected, by simpa using step.not_unexpected⟩

/-- With room for one entry, every run of calls returns, leaves the index and the list intact and
never meets an element that holds no entry. -/
theorem memory_intact (maxEntries : Int) (positive : 1 ≤ maxEntries) (calls : List (Call κ ν)) :
    ∃ session, runFrom Session.call ⟨Memory.newMemory maxEntries, []⟩ calls = some session ∧
      Intact maxEntries session.memory ∧ ∀ reply ∈ session.replies, ¬ reply.Unexpected := by
  have initial : (⟨Memory.newMemory maxEntries, []⟩ : Session κ ν).Sound maxEntries :=
    ⟨⟨[], holds_newMemory positive⟩, by nofun⟩
  obtain ⟨session, ran, ⟨entries, holds⟩, expected⟩ :=
    exists_runFrom (Session.Sound.call positive) initial calls
  exact ⟨session, ran, holds.intact, expected⟩

theorem memory_intact_sample :
    ∃ session, runFrom Session.call ⟨Memory.newMemory 1, []⟩
        [⟨0, .set 1 10 60⟩, ⟨1, .set 2 20 60⟩, ⟨2, .get 1⟩, ⟨3, .delete 2⟩] = some session ∧
      Intact 1 session.memory ∧ ∀ reply ∈ session.replies, ¬ (reply : Reply Nat).Unexpected :=
  memory_intact 1 (by decide) _

/-! ## The eviction loop -/

namespace Memory

variable {m : Memory κ ν}

/-- A turn of the eviction loop takes an element away while there is one. -/
theorem length_evictOldest (nonempty : m.evictList ≠ []) :
    m.evictOldest.1.evictList.length + 1 = m.evictList.length := by
  obtain ⟨last, found⟩ := Option.ne_none_iff_exists'.mp (mt List.getLast?_eq_none_iff.mp nonempty)
  have member := List.mem_of_getLast? found
  have removed : (m.removeElement last).1.evictList = m.evictList.erase last := by
    simp only [removeElement]
    split <;> rfl
  have positive := List.length_pos_of_mem member
  rw [evictOldest, found, removed, List.length_erase_of_mem member]
  omega

/-- If the eviction loop ends at all, it ends after one turn for each element. -/
theorem evictLoop_isSome_iff (m : Memory κ ν) :
    (∃ turns, (evictLoop turns m).isSome) ↔ (evictLoop (m.evictList.length + 1) m).isSome := by
  refine ⟨?_, fun ends => ⟨_, ends⟩⟩
  rintro ⟨turns, ends⟩
  induction turns generalizing m with
  | zero => cases ends
  | succ turns ih =>
      by_cases room : (m.evictList.length : Int) < m.maxSize
      · rw [evictLoop, if_pos room]
        rfl
      · rcases turned : m.evictOldest with ⟨next, error | _⟩
        · rw [evictLoop, if_neg room, turned]
          rfl
        · rw [evictLoop, if_neg room, turned] at ends
          by_cases empty : m.evictList = []
          · have same : m.evictOldest = (m, .ok ()) := by simp [evictOldest, empty]
            rw [turned] at same
            cases same
            exact ih m ends
          · have fewer := length_evictOldest empty
            rw [turned] at fewer
            rw [evictLoop, if_neg room, turned, ← fewer]
            exact ih next ends

end Memory

/-! ## Making a cache -/

/-- The errors of `New`. -/
inductive NewError where
  /-- `ErrInvalidCacheMode`, wrapped with a message. -/
  | invalidCacheMode (message : String)
  deriving DecidableEq, Repr

/-- `Options`, as far as `New` reads them. -/
structure Options where
  /-- Which cache is made. -/
  mode : String
  /-- The capacity of the in-memory cache. -/
  maxEntries : Int
  /-- What `Redis` puts before its keys. -/
  redisKeyPrefix : Go.Bytes
  /-- Whether there is a `RedisClient`. -/
  redisClient : Bool

/-- The caches there are. -/
inductive Backend (κ ν : Type) where
  | memory (memory : Memory κ ν)
  | redis (redis : Redis)

/-- `New`; no cache at all is the mode `none`. -/
def new (opts : Options) : Except NewError (Option (Backend κ ν)) :=
  match opts.mode with
  | "memory" => .ok (some (.memory (Memory.newMemory opts.maxEntries)))
  | "redis" =>
      if opts.redisClient then .ok (some (.redis ⟨opts.redisKeyPrefix⟩))
      else .error (.invalidCacheMode "redis client required for redis cache mode")
  | "none" => .ok none
  | "" => .ok none
  | mode => .error (.invalidCacheMode ("unknown cache mode: " ++ mode))

/-- An in-memory cache with this capacity, as `NewMemory` or `New` makes it. -/
inductive Made (maxEntries : Int) : Memory κ ν → Prop
  | newMemory : Made maxEntries (Memory.newMemory maxEntries)
  | new {opts : Options} {m : Memory κ ν} : opts.maxEntries = maxEntries →
      new opts = .ok (some (.memory m)) → Made maxEntries m

omit [DecidableEq κ] in
/-- `New` does not look at the capacity. -/
theorem Made.eq_newMemory {maxEntries : Int} {m : Memory κ ν} (made : Made maxEntries m) :
    m = Memory.newMemory maxEntries := by
  cases made with
  | newMemory => rfl
  | @new opts _ size made =>
      unfold Cache.new at made
      split at made
      · cases made
        rw [size]
      · split_ifs at made
        cases made
      · cases made
      · cases made
      · cases made

/-! ## Termination -/

section Run

variable [DecidableEq ι] {maxEntries : Int} {m : Memory κ ν}
  {state : Clients ι (Call κ ν) (Memory κ ν)} {actions : List (Action ι (Call κ ν))}

/-- With room for one entry, all clients find a recency list. -/
theorem exists_holds (positive : 1 ≤ maxEntries)
    (ran : (newClients maxEntries).run bodies actions = some state) :
    ∃ entries, Holds maxEntries state.shared entries := by
  refine Clients.run_shared (fun m => ∃ entries, Holds maxEntries m entries) ?_
    ⟨[], holds_newMemory positive⟩ ran
  rintro call m next ⟨entries, holds⟩ performed
  obtain ⟨m', reply, after, returned, -, kept⟩ := holds.perform positive call
  have same : some m' = some next := by
    rw [← performed]
    simp [bodies, returned]
  cases same
  exact ⟨after, kept⟩

/-- Without room, the cache stays as it was made. -/
theorem shared_eq_newMemory (full : maxEntries ≤ 0)
    (ran : (newClients maxEntries).run bodies actions = some state) :
    state.shared = Memory.newMemory maxEntries := by
  refine Clients.run_shared (fun m => m = Memory.newMemory maxEntries) ?_ rfl ran
  rintro ⟨time, op⟩ m next rfl performed
  refine Memory.perform_unchanged ?_ performed
  cases op with
  | set key value ttl =>
      have endless : (Memory.newMemory maxEntries).set time key value ttl = none :=
        Memory.set_eq_none rfl rfl full
      simp [bodies, Memory.perform, endless] at performed
  | get key => rfl
  | delete key => rfl
  | removeExpired order => rfl

/-- The eviction loop ends, and so does `Set`, exactly with room for one entry. -/
theorem set_isSome_iff (ran : (newClients maxEntries).run bodies actions = some state)
    (time : Int) (key : κ) (value : ν) (ttl : Int) :
    ((∃ turns, (Memory.evictLoop turns state.shared).isSome) ↔ 1 ≤ maxEntries) ∧
      ((state.shared.set time key value ttl).isSome ↔ 1 ≤ maxEntries) := by
  by_cases positive : 1 ≤ maxEntries
  · obtain ⟨entries, holds⟩ := exists_holds positive ran
    obtain ⟨m', after, returned, -⟩ := holds.set positive time key value ttl
    refine ⟨iff_of_true ?_ positive, iff_of_true (by rw [returned]; rfl) positive⟩
    rw [Memory.evictLoop_isSome_iff]
    by_cases room : (entries.length : Int) < maxEntries
    · rw [Holds.evictLoop_of_room _ (by rwa [holds.represents.length_eq, holds.size])]
      rfl
    · obtain ⟨front, last, emptied, -, ended, -⟩ :=
        holds.evictLoop_of_full positive (Int.le_antisymm holds.bounded (Int.not_lt.mp room))
      rw [ended]
      rfl
  · have full : maxEntries ≤ 0 := by omega
    rw [shared_eq_newMemory full ran, Memory.set_eq_none rfl rfl full]
    refine ⟨iff_of_false ?_ positive, iff_of_false (by nofun) positive⟩
    rintro ⟨turns, ends⟩
    rw [Memory.evictLoop_eq_none rfl full] at ends
    cases ends

/-- Without room, a client inside `Set` stops everybody. -/
theorem step_eq_none (full : maxEntries ≤ 0)
    (ran : (newClients maxEntries).run bodies actions = some state) (client : ι) {time : Int}
    {key : κ} {value : ν} {ttl : Int}
    (entered : state.phase client = .entered ⟨time, .set key value ttl⟩)
    (action : Action ι (Call κ ν)) : state.step bodies action = none := by
  have agrees := (Clients.start_agrees (Memory.newMemory maxEntries)).run ran
  have endless : (Memory.newMemory maxEntries).set time key value ttl = none :=
    Memory.set_eq_none rfl rfl full
  have stuck : bodies.perform ⟨time, .set key value ttl⟩ state.shared = none := by
    rw [shared_eq_newMemory full ran]
    simp [bodies, Memory.perform, endless]
  exact agrees.step_eq_none entered rfl stuck

/-- In every state that clients of a cache reach, the eviction loop ends and a `Set` returns exactly
if the capacity is at least one, and a client inside `Set` gives back the lock exactly then. -/
theorem set_returns_iff (made : Made maxEntries m)
    (ran : (Clients.start m).run bodies actions = some state) (client : ι) (time : Int) (key : κ)
    (value : ν) (ttl : Int) :
    ((∃ turns, (Memory.evictLoop turns state.shared).isSome) ↔ 1 ≤ maxEntries) ∧
      ((state.shared.set time key value ttl).isSome ↔ 1 ≤ maxEntries) ∧
      (state.phase client = .entered ⟨time, .set key value ttl⟩ →
        ((∃ next, state.run bodies [.perform client, .leave client] = some next ∧
          next.mutex = .free) ↔ 1 ≤ maxEntries)) := by
  cases made.eq_newMemory
  obtain ⟨loop, returns⟩ := set_isSome_iff ran time key value ttl
  refine ⟨loop, returns, fun entered => ?_⟩
  constructor
  · rintro ⟨next, left, -⟩
    by_contra small
    have stopped := step_eq_none (by omega) ran client entered (.perform client)
    simp [Clients.run, stopped] at left
  · intro positive
    have agrees := (Clients.start_agrees (Memory.newMemory maxEntries)).run ran
    obtain ⟨result, returned⟩ := Option.isSome_iff_exists.mp (returns.mpr positive)
    have performed : bodies.perform ⟨time, .set key value ttl⟩ state.shared = some result.1 := by
      simp [bodies, Memory.perform, returned]
    exact ⟨_, agrees.run_leave entered rfl performed, rfl⟩

end Run

/-- The only entry is set, and a client is inside the `Set` that has to evict it. -/
def overfilling : List (Action Bool (Call Nat Nat)) :=
  [.enter false ⟨0, .set 1 10 60⟩, .perform false, .leave false, .enter true ⟨1, .set 2 20 60⟩]

theorem set_returns_iff_full :
    ∃ state : Clients Bool (Call Nat Nat) (Memory Nat Nat),
      (Clients.start (Memory.newMemory 1)).run bodies overfilling = some state ∧
      state.shared.keys = [1] ∧
      state.phase true = .entered ⟨1, .set 2 20 60⟩ ∧
      ∃ next, state.run bodies [.perform true, .leave true] = some next ∧ next.mutex = .free := by
  refine ⟨_, rfl, rfl, rfl, ?_⟩
  exact ((@set_returns_iff Bool Nat Nat _ _ 1 _ _ overfilling .newMemory rfl true 1 2 20 60).2.2
    rfl).mpr le_rfl

/-- The first `Set` of a cache that `New` makes with a capacity of zero never returns, and nobody
gets the lock again. -/
theorem set_holds_lock :
    ∃ (m : Memory Nat Nat) (state : Clients Bool (Call Nat Nat) (Memory Nat Nat)),
      new ⟨"memory", 0, [], false⟩ = .ok (some (.memory m)) ∧
      (Clients.start m).run bodies [.enter true ⟨0, .set 1 10 60⟩] = some state ∧
      (∀ turns, Memory.evictLoop turns state.shared = none) ∧
      ∀ action, state.step bodies action = none := by
  have ran : (newClients 0).run bodies [.enter true ⟨0, .set 1 10 60⟩] =
      some ⟨.writer true, (Memory.newMemory 0 : Memory Nat Nat),
        Function.update (fun _ => .outside) true (.entered ⟨0, .set 1 10 60⟩)⟩ := rfl
  exact ⟨Memory.newMemory 0, _, rfl, ran, Memory.evictLoop_eq_none rfl le_rfl,
    step_eq_none le_rfl ran true rfl⟩

end CommonGo.Cache
