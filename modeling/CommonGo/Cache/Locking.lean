import CommonGo.Cache.Memory
import CommonGo.Program.RWMutex

/-!
# The cache under concurrent clients

Every operation takes the lock of the cache, performs its body and releases the lock.  `Get` takes
it for reading, but a `Get` that finds its key moves the element to the front of the list that all
clients share.
-/

namespace CommonGo.Cache

open Program

variable {ι κ ν : Type}

/-- `mu.RLock` in `Get`, `mu.Lock` in `Set`, `Delete` and `removeExpired`. -/
def Op.mode : Op κ ν → Mode
  | .get _ => .read
  | .set _ _ _ => .write
  | .delete _ => .write
  | .removeExpired _ => .write

variable [DecidableEq κ]

/-- Whether the body of a call changes `evictList` or `items`.  A hit is counted, also one on the
front element: `MoveToFront` is called for it, although it then leaves the list as it is. -/
def Memory.changes (m : Memory κ ν) (call : Call κ ν) : Bool :=
  match call.op with
  -- Only a set of a new key in an empty cache without room changes nothing, for ever.
  | .set key _ _ => (m.items.lookup key).isSome || !m.evictList.isEmpty || decide (0 < m.maxSize)
  | .get key => (m.get call.time key).2.isOk
  | .delete key => (m.items.lookup key).isSome
  | .removeExpired _ => m.items.entries.any fun item =>
      match m.toMemoryEntry item.2 with
      | .ok entry => entry.expired call.time
      | .error _ => false

namespace Memory

variable {m : Memory κ ν} {call : Call κ ν} {time : Int} {key : κ}

/-- A read that finds nothing leaves the cache as it was. -/
theorem get_unchanged (misses : (m.get time key).2.isOk = false) : (m.get time key).1 = m := by
  revert misses
  unfold get
  split
  · intro _
    rfl
  · split
    · intro _
      rfl
    · split
      · intro _
        rfl
      · nofun

/-- In an empty cache without room, no number of turns ends the eviction loop. -/
theorem evictLoop_eq_none (empty : m.evictList = []) (full : m.maxSize ≤ 0) (turns : Nat) :
    evictLoop turns m = none := by
  induction turns with
  | zero => rfl
  | succ turns ih => simp [evictLoop, evictOldest, empty, full, ih]

/-- A set of a new key in an empty cache without room does not return. -/
theorem set_eq_none {value : ν} {ttl : Int} (missing : m.items.lookup key = none)
    (empty : m.evictList = []) (full : m.maxSize ≤ 0) : m.set time key value ttl = none := by
  simp [set, missing, evictLoop_eq_none empty full]

/-- The loop of `removeExpired` passes over entries that have not expired. -/
theorem foldl_removeIfExpired_eq {items : List (Sigma fun _ : κ => Nat)}
    (live : ∀ item ∈ items, ∀ entry, m.toMemoryEntry item.2 = .ok entry →
      entry.expired time = false) :
    items.foldl (removeIfExpired time) m = m := by
  induction items with
  | nil => rfl
  | cons item items ih =>
      have stays : removeIfExpired time m item = m := by
        unfold removeIfExpired
        split
        · rfl
        · cases held : m.toMemoryEntry item.2 with
          | error error => rfl
          | ok entry => simp [live item (List.mem_cons_self ..) entry held]
      rw [List.foldl_cons, stays]
      exact ih fun other member => live other (List.mem_cons_of_mem _ member)

/-- A body that is not said to change anything does not. -/
theorem perform_unchanged {next : Memory κ ν} (unchanged : m.changes call = false)
    (performed : (m.perform call).map Prod.fst = some next) : next = m := by
  obtain ⟨now, op⟩ := call
  cases op with
  | set key value ttl =>
      have idle : (m.items.lookup key = none ∧ m.evictList = []) ∧ m.maxSize ≤ 0 := by
        simpa [changes] using unchanged
      simp [perform, set_eq_none idle.1.1 idle.1.2 idle.2] at performed
  | get key =>
      cases performed
      exact get_unchanged unchanged
  | delete key =>
      have missing : m.items.lookup key = none := by simpa [changes] using unchanged
      simpa [perform, delete, missing, eq_comm] using performed
  | removeExpired order =>
      cases performed
      refine foldl_removeIfExpired_eq ?_
      intro item member entry held
      have stays := List.any_eq_false.mp unchanged item ((order.perm _).mem_iff.mp member)
      simpa [held] using stays

end Memory

/-- The operations as bodies guarded by the lock of the cache. -/
def bodies : Bodies (Call κ ν) (Memory κ ν) where
  mode call := call.op.mode
  perform call m := (m.perform call).map Prod.fst
  changes call m := m.changes call
  unchanged := Memory.perform_unchanged

/-! ## Exclusion -/

/-- A new cache with nobody inside. -/
def newClients (maxEntries : Int) : Clients ι (Call κ ν) (Memory κ ν) :=
  .start (Memory.newMemory maxEntries)

/-- A `Get` comes in to other clients only if it finds nothing and none of them has found, or is
about to find, its own key. -/
def ReadsApart (state : Clients ι (Call κ ν) (Memory κ ν)) : Action ι (Call κ ν) → Prop
  | .enter _ ⟨time, .get key⟩ => ∀ other, state.phase other ≠ .outside →
      (state.shared.get time key).2.isOk = false ∧
        (state.phase other).changing bodies state.shared = false
  | _ => True

/-- Only a `Get` can come in to others. -/
theorem apart_iff_readsApart (state : Clients ι (Call κ ν) (Memory κ ν))
    (action : Action ι (Call κ ν)) : state.Apart bodies action ↔ ReadsApart state action := by
  cases action with
  | enter client call =>
      obtain ⟨time, op⟩ := call
      cases op with
      | get key => exact ⟨fun apart => apart rfl, fun apart _ => apart⟩
      | set key value ttl => exact iff_of_true nofun trivial
      | delete key => exact iff_of_true nofun trivial
      | removeExpired order => exact iff_of_true nofun trivial
  | perform client => exact Iff.rfl
  | leave client => exact Iff.rfl

/-- In a run of any number of clients, whoever is inside a body that changes `evictList` or `items`
is alone in every state, exactly if every `Get` that comes in to others stays apart from them. -/
theorem exclusive_iff_readsApart [DecidableEq ι] (maxEntries : Int)
    (actions : List (Action ι (Call κ ν))) (last : Clients ι (Call κ ν) (Memory κ ν))
    (ran : (newClients maxEntries).run bodies actions = some last) :
    (∀ front middle, front <+: actions → (newClients maxEntries).run bodies front = some middle →
        middle.Exclusive bodies) ↔
      ∀ front action middle, front ++ [action] <+: actions →
        (newClients maxEntries).run bodies front = some middle → ReadsApart middle action := by
  refine ((Clients.start_exclusive _).run_iff (Clients.start_agrees _) ran).trans ?_
  constructor
  · intro apart front action middle initial passed
    exact (apart_iff_readsApart middle action).mp (apart front action middle initial passed)
  · intro apart front action middle initial passed
    exact (apart_iff_readsApart middle action).mpr (apart front action middle initial passed)

/-- Two clients look for a key that is not there, at the same time. -/
def twoMisses : List (Action Bool (Call Nat Nat)) :=
  [.enter true ⟨0, .get 1⟩, .enter false ⟨1, .get 1⟩, .perform true, .perform false]

theorem exclusive_iff_readsApart_sample :
    ((newClients 2).run bodies twoMisses).isSome = true ∧
      ∀ front middle, front <+: twoMisses → (newClients 2).run bodies front = some middle →
        middle.Exclusive bodies := by
  refine ⟨rfl, (exclusive_iff_readsApart 2 twoMisses _ rfl).mpr ?_⟩
  intro front action middle initial passed
  simp only [twoMisses] at initial
  rcases front with _ | ⟨first, _ | ⟨second, _ | ⟨third, _ | ⟨fourth, rest⟩⟩⟩⟩
  · obtain rfl : action = .enter true ⟨0, .get 1⟩ := by simpa using initial
    cases passed
    exact fun other inside => absurd rfl inside
  · obtain ⟨rfl, rfl⟩ : first = .enter true ⟨0, .get 1⟩ ∧ action = .enter false ⟨1, .get 1⟩ := by
      simpa using initial
    cases passed
    exact fun other _ => ⟨rfl, by cases other <;> rfl⟩
  · obtain ⟨-, -, rfl⟩ : _ ∧ _ ∧ action = .perform true := by simpa using initial
    trivial
  · obtain ⟨-, -, -, rfl⟩ : _ ∧ _ ∧ _ ∧ action = .perform false := by simpa using initial
    trivial
  · simp at initial

/-- Two entries, and two clients that read the older one at the same time. -/
def twoReaders : List (Action Bool (Call Nat Nat)) :=
  [.enter true ⟨0, .set 1 10 60⟩, .perform true, .leave true,
    .enter true ⟨1, .set 2 20 60⟩, .perform true, .leave true,
    .enter true ⟨2, .get 1⟩, .enter false ⟨2, .get 1⟩]

/-- Both readers are inside `Get`, each about to move the same element of the list. -/
theorem readers_change_together :
    ∃ last, (newClients 2).run bodies twoReaders = some last ∧
      (∀ client, (last.phase client).changing bodies last.shared = true) ∧
      (last.shared.get 2 1).1.evictList ≠ last.shared.evictList ∧
      ¬ last.Exclusive bodies := by
  refine ⟨_, rfl, ?_, ?_, ?_⟩
  · decide
  · decide
  · intro exclusive
    cases exclusive true (by decide) false (by decide)

end CommonGo.Cache
