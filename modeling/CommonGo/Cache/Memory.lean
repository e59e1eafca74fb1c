import Mathlib.Data.List.AList

/-!
# The in-memory cache

`cache.Memory` keeps its entries in a doubly linked list, most recently used first, and an index
from keys to list elements.  Elements are pointers: the index and the list hold addresses, and a
heap says what an element holds, so that overwriting an entry in place, moving it and removing it
are the separate effects they are in the source.
-/

namespace CommonGo.Cache

/-- The errors of package `cache`. -/
inductive Error where
  /-- `ErrCacheMiss`. -/
  | cacheMiss
  /-- `ErrInvalidValue`, wrapped with a message. -/
  | invalidValue (message : String)
  deriving DecidableEq, Repr

/-- `memoryEntry`. -/
structure Entry (κ ν : Type) where
  /-- The key it is stored under. -/
  key : κ
  /-- What is stored. -/
  value : ν
  /-- The time from which on it counts as expired. -/
  expiresAt : Int
  deriving DecidableEq, Repr

/-- `now.After(entry.expiresAt)`. -/
def Entry.expired {κ ν : Type} (entry : Entry κ ν) (now : Int) : Bool :=
  entry.expiresAt < now

/-- What a list element holds, a value of type `any`: a `*memoryEntry` or something else. -/
inductive Held (κ ν : Type) where
  | entry (entry : Entry κ ν)
  | other
  deriving DecidableEq, Repr

/-- The entry of an element that holds one. -/
def Held.asEntry {κ ν : Type} : Held κ ν → Option (Entry κ ν)
  | .entry stored => some stored
  | .other => none

/-- `Memory`, with the heap its list elements live in and the next free address. -/
structure Memory (κ ν : Type) where
  /-- Which element holds the entry of a key. -/
  items : AList fun _ : κ => Nat
  /-- The elements, front first. -/
  evictList : List Nat
  /-- The capacity. -/
  maxSize : Int
  /-- What an element holds. -/
  heap : Nat → Held κ ν
  /-- The address of the next element. -/
  fresh : Nat

variable {κ ν : Type}

namespace Memory

/-- `NewMemory`. -/
def newMemory (maxEntries : Int) : Memory κ ν where
  items := ∅
  evictList := []
  maxSize := maxEntries
  heap := fun _ => .other
  fresh := 0

/-- `toMemoryEntry`. -/
def toMemoryEntry (m : Memory κ ν) (elem : Nat) : Except Error (Entry κ ν) :=
  match m.heap elem with
  | .entry entry => .ok entry
  | .other => .error (.invalidValue "unexpected element type in cache list")

/-- `evictList.MoveToFront`, which does nothing for an element that is not in the list. -/
def moveToFront (m : Memory κ ν) (elem : Nat) : Memory κ ν :=
  if elem ∈ m.evictList then { m with evictList := elem :: m.evictList.erase elem } else m

/-- The entries, most recently used first. -/
def entries (m : Memory κ ν) : List (Entry κ ν) :=
  m.evictList.filterMap fun elem => (m.heap elem).asEntry

/-- The keys held. -/
def keys (m : Memory κ ν) : List κ := m.entries.map Entry.key

variable [DecidableEq κ]

/-- `Memory.removeElement`. -/
def removeElement (m : Memory κ ν) (elem : Nat) : Memory κ ν × Except Error Unit :=
  let m := { m with evictList := m.evictList.erase elem }
  match m.toMemoryEntry elem with
  | .error error => (m, .error error)
  | .ok entry => ({ m with items := m.items.erase entry.key }, .ok ())

/-- `Memory.evictOldest`. -/
def evictOldest (m : Memory κ ν) : Memory κ ν × Except Error Unit :=
  match m.evictList.getLast? with
  | none => (m, .ok ())
  | some elem => m.removeElement elem

/-- The eviction loop of `Set`, for at most `turns` turns; `none` if that is not enough. -/
def evictLoop : Nat → Memory κ ν → Option (Memory κ ν × Except Error Unit)
  | 0, _ => none
  | turns + 1, m =>
      if (m.evictList.length : Int) < m.maxSize then some (m, .ok ())
      else
        match m.evictOldest with
        | (m, .error error) => some (m, .error error)
        | (m, .ok _) => evictLoop turns m

/-- `Memory.Get` at a time. -/
def get (m : Memory κ ν) (now : Int) (key : κ) : Memory κ ν × Except Error ν :=
  match m.items.lookup key with
  | none => (m, .error .cacheMiss)
  | some elem =>
      match m.toMemoryEntry elem with
      | .error error => (m, .error error)
      | .ok entry =>
          if entry.expired now then (m, .error .cacheMiss)
          else (m.moveToFront elem, .ok entry.value)

/-- `Memory.Set` at a time; `none` when its eviction loop does not end.  A turn of the loop takes
an element away, and an empty list stays empty for ever, so one turn for each element and one more
decide. -/
def set (m : Memory κ ν) (now : Int) (key : κ) (value : ν) (ttl : Int) :
    Option (Memory κ ν × Except Error Unit) :=
  match m.items.lookup key with
  | some elem =>
      let m := m.moveToFront elem
      match m.toMemoryEntry elem with
      | .error error => some (m, .error error)
      | .ok entry =>
          let entry := { entry with value := value, expiresAt := now + ttl }
          some ({ m with heap := Function.update m.heap elem (.entry entry) }, .ok ())
  | none =>
      match evictLoop (m.evictList.length + 1) m with
      | none => none
      | some (m, .error error) => some (m, .error error)
      | some (m, .ok _) =>
          let entry := { key := key, value := value, expiresAt := now + ttl }
          some ({ m with
            items := m.items.insert key m.fresh
            evictList := m.fresh :: m.evictList
            heap := Function.update m.heap m.fresh (.entry entry)
            fresh := m.fresh + 1 }, .ok ())

/-- `Memory.Delete`. -/
def delete (m : Memory κ ν) (key : κ) : Memory κ ν × Except Error Unit :=
  match m.items.lookup key with
  | none => (m, .ok ())
  | some elem => m.removeElement elem

/-- The body of the loop of `removeExpired`, for one entry of the index: a key that is no longer
there is not visited, and errors are logged only. -/
def removeIfExpired (now : Int) (m : Memory κ ν) (item : Sigma fun _ : κ => Nat) : Memory κ ν :=
  if (m.items.lookup item.1).isNone then m
  else
    match m.toMemoryEntry item.2 with
    | .error _ => m
    | .ok entry => if entry.expired now then (m.removeElement item.2).1 else m

end Memory

/-- The order in which a loop over a map visits it: any one that visits everything once. -/
structure Order (κ : Type) where
  /-- The order of the entries. -/
  arrange : List (Sigma fun _ : κ => Nat) → List (Sigma fun _ : κ => Nat)
  /-- None is left out, and none is visited twice. -/
  perm : ∀ items, (arrange items).Perm items

/-- `Memory.removeExpired` at a time, with the order its loop takes. -/
def Memory.removeExpired [DecidableEq κ] (m : Memory κ ν) (now : Int) (order : Order κ) :
    Memory κ ν :=
  (order.arrange m.items.entries).foldl (Memory.removeIfExpired now) m

/-! ## Calls -/

/-- The operations on a cache. -/
inductive Op (κ ν : Type) where
  | set (key : κ) (value : ν) (ttl : Int)
  | get (key : κ)
  | delete (key : κ)
  | removeExpired (order : Order κ)

/-- An operation and when it reads the clock. -/
structure Call (κ ν : Type) where
  /-- What the clock says. -/
  time : Int
  /-- What is called. -/
  op : Op κ ν

/-- What an operation returns. -/
inductive Reply (ν : Type) where
  | found (value : ν)
  | done
  | failed (error : Error)
  deriving DecidableEq, Repr

/-- The reply for the error result of `Set` and `Delete`. -/
def Reply.ofResult : Except Error Unit → Reply ν
  | .ok _ => .done
  | .error error => .failed error

/-- The reply for the result of `Get`. -/
def Reply.ofValue : Except Error ν → Reply ν
  | .ok value => .found value
  | .error error => .failed error

/-- One call; `none` when it does not return. -/
def Memory.perform [DecidableEq κ] (m : Memory κ ν) (call : Call κ ν) :
    Option (Memory κ ν × Reply ν) :=
  match call.op with
  | .set key value ttl => (m.set call.time key value ttl).map fun r => (r.1, .ofResult r.2)
  | .get key => some ((m.get call.time key).1, .ofValue (m.get call.time key).2)
  | .delete key => some ((m.delete key).1, .ofResult (m.delete key).2)
  | .removeExpired order => some (m.removeExpired call.time order, .done)

end CommonGo.Cache
