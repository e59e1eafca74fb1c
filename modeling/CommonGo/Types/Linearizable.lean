import CommonGo.Program.Atomicity
import CommonGo.Types.Map

/-!
# Every call of the map takes effect at once

The methods of `Map` are written out step by step, as procedures over single accesses to the Go map
that the lock guards.  Steps of any number of clients interleave, loops over the map included.
Whatever the interleaving, the calls that have returned returned what the map as a sequential object
returns when they are made one after another.
-/

namespace CommonGo.Types

open Go Program

variable {ι κ ν : Type}

/-! ## Calls of every method -/

/-- A call of a method. -/
inductive Request (κ ν : Type) where
  | change (op : Op κ ν)
  | get (key : κ)
  | has (key : κ)
  | len
  | keys (order : Order κ)
  | values (order : Order κ)
  /-- `Range` with a callback, which returns false to stop. -/
  | range (fn : κ → ν → Bool) (order : Order κ)

/-- What a method returns. -/
inductive Answer (κ ν : Type) where
  | changed (reply : Reply ν)
  | found (value : Option ν)
  | present (present : Bool)
  | length (length : Nat)
  | keys (keys : List κ)
  | values (values : List ν)
  /-- The entries that the callback of `Range` was given. -/
  | visited (entries : List (Item κ ν))

/-! ## The map as a sequential object -/

/-- The entries that a callback is given before it says to stop, and the one at which it does. -/
def visits (fn : κ → ν → Bool) : List (Item κ ν) → List (Item κ ν)
  | [] => []
  | entry :: rest => if fn entry.1 entry.2 then entry :: visits fn rest else [entry]

variable [BEq κ] [PartialEquivBEq κ]

namespace Map

/-- A call that is made alone. -/
def answer (m : Map κ ν) : Request κ ν → Answer κ ν × Map κ ν
  | .change op => (.changed (m.perform op).2, (m.perform op).1)
  | .get key => (.found (m.contents.lookup key), m)
  | .has key => (.present (m.contents.lookup key).isSome, m)
  | .len => (.length m.len, m)
  | .keys order => (.keys ((m.contents.visited order).map Prod.fst), m)
  | .values order => (.values ((m.contents.visited order).map Prod.snd), m)
  | .range fn order => (.visited (visits fn (m.contents.visited order)), m)

/-- Calls that are made one after another. -/
def answers (m : Map κ ν) (calls : List (ι × Request κ ν)) :
    List (Completed ι (Request κ ν) (Answer κ ν)) × Map κ ν :=
  calls.foldl (fun (completed, m) (client, call) =>
    (completed ++ [⟨client, call, (m.answer call).1⟩], (m.answer call).2)) ([], m)

end Map

/-! ## The methods step by step -/

/-- An access to the Go map that leaves it as it is. -/
inductive Look (κ : Type) where
  | lookup (key : κ)
  | len
  /-- The places that a loop is to visit. -/
  | range (order : Order κ)
  /-- The entry at the next place of a loop. -/
  | entry (place : Nat)

/-- What an access that leaves the map as it is gives back. -/
@[reducible] def Look.Seen (ν : Type) : Look κ → Type
  | lookup _ => Option ν
  | len => Nat
  | range _ => List Nat
  | entry _ => Option (Item κ ν)

/-- An access in write mode. -/
inductive Access (κ ν : Type) where
  | look (op : Look κ)
  /-- The entries that the loop of `DeleteFunc` visits.  Nobody else is inside, and the loop deletes
  an entry only when it visits it. -/
  | range (order : Order κ)
  | assign (key : κ) (value : ν)
  | delete (key : κ)
  /-- The reference to the map. -/
  | data
  /-- A new map in its place. -/
  | make

/-- What an access in write mode gives back. -/
@[reducible] def Access.Done : Access κ ν → Type
  | look op => op.Seen ν
  | range _ => List (Item κ ν)
  | assign _ _ => Unit
  | delete _ => Unit
  | data => Nat
  | make => Unit

/-- An access that leaves the map as it is. -/
def Look.perform : (op : Look κ) → Map κ ν → op.Seen ν
  | lookup key, m => m.contents.lookup key
  | len, m => m.len
  | range order, m => order.arrange m.contents.keys
  | entry place, m => m.contents.entries[place]?

/-- An access in write mode, with the map after it. -/
def Access.perform : Handler (Access κ ν) Access.Done (Map κ ν)
  | look op, m => (op.perform m, m)
  | range order, m => (m.contents.visited order, m)
  | assign key value, m => ((), m.set key value)
  | delete key, m => ((), m.store (m.contents.erase key))
  | data, m => (m.data, m)
  | make, m => ((), m.clear.1)

/-- Code that holds the lock in read mode. -/
abbrev Reading (κ ν α : Type) := Procedure (Look κ) (Look.Seen ν) α

/-- Code that holds the lock in write mode. -/
abbrev Writing (κ ν α : Type) := Procedure (Access κ ν) Access.Done α

namespace Reading

/-- `m.data[key]`. -/
def lookup (key : κ) : Reading κ ν (Option ν) := Procedure.perform (Look.lookup key)

/-- `len(m.data)`. -/
def len : Reading κ ν Nat := Procedure.perform Look.len

/-- The start of a loop. -/
def range (order : Order κ) : Reading κ ν (List Nat) := Procedure.perform (Look.range order)

/-- The next turn of a loop. -/
def entry (place : Nat) : Reading κ ν (Option (Item κ ν)) := Procedure.perform (Look.entry place)

end Reading

namespace Writing

/-- `m.data[key]`. -/
def lookup (key : κ) : Writing κ ν (Option ν) := Procedure.perform (Access.look (.lookup key))

/-- The entries of a loop. -/
def range (order : Order κ) : Writing κ ν (List (Item κ ν)) :=
  Procedure.perform (Access.range order)

/-- `m.data[key] = value`. -/
def assign (key : κ) (value : ν) : Writing κ ν Unit := Procedure.perform (Access.assign key value)

/-- `delete(m.data, key)`. -/
def delete (key : κ) : Writing κ ν Unit := Procedure.perform (Access.delete key)

/-- The value of `m.data`. -/
def data : Writing κ ν Nat := Procedure.perform Access.data

/-- `m.data = make(map[K]V)`. -/
def make : Writing κ ν Unit := Procedure.perform Access.make

end Writing

namespace Method

/-- `Map.Set`. -/
def set (key : κ) (value : ν) : Writing κ ν (Reply ν) := do
  Writing.assign key value
  return .done

/-- `Map.Get`. -/
def get (key : κ) : Reading κ ν (Option ν) := Reading.lookup key

/-- `Map.Delete`. -/
def delete (key : κ) : Writing κ ν (Reply ν) := do
  match ← Writing.lookup key with
  | some value =>
      Writing.delete key
      return .deleted (some value)
  | none => return .deleted none

/-- `Map.Clear`. -/
def clear : Writing κ ν (Reply ν) := do
  let old ← Writing.data
  Writing.make
  return .cleared old

/-- `Map.Len`. -/
def len : Reading κ ν Nat := Reading.len

/-- `Map.Has`. -/
def has (key : κ) : Reading κ ν Bool := do
  let found ← Reading.lookup key
  return found.isSome

/-- The loop of `Range`, with the entries that were visited.  `Keys` and `Values` have the same loop
without a callback to stop it. -/
def loop (fn : κ → ν → Bool) : List Nat → List (Item κ ν) → Reading κ ν (List (Item κ ν))
  | [], seen => .done seen
  | place :: rest, seen => do
      match ← Reading.entry place with
      | some entry =>
          if fn entry.1 entry.2 then loop fn rest (seen ++ [entry])
          else return seen ++ [entry]
      | none => loop fn rest seen

/-- `Map.Range`. -/
def range (fn : κ → ν → Bool) (order : Order κ) : Reading κ ν (List (Item κ ν)) := do
  loop fn (← Reading.range order) []

/-- `Map.Keys`. -/
def keys (order : Order κ) : Reading κ ν (List κ) := do
  let seen ← range (fun _ (_ : ν) => true) order
  return seen.map Prod.fst

/-- `Map.Values`. -/
def values (order : Order κ) : Reading κ ν (List ν) := do
  let seen ← range (fun _ _ => true) order
  return seen.map Prod.snd

/-- The loop of `DeleteFunc`. -/
def purge (fn : κ → ν → Bool) : List (Item κ ν) → Nat → Writing κ ν Nat
  | [], deleted => .done deleted
  | entry :: rest, deleted => do
      if fn entry.1 entry.2 then
        Writing.delete entry.1
        purge fn rest (deleted + 1)
      else purge fn rest deleted

/-- `Map.DeleteFunc`. -/
def deleteFunc (fn : κ → ν → Bool) (order : Order κ) : Writing κ ν (Reply ν) := do
  let deleted ← purge fn (← Writing.range order) 0
  return .count deleted

/-- The body of a call that changes the map. -/
def change : Op κ ν → Writing κ ν (Reply ν)
  | .set key value => set key value
  | .delete key => delete key
  | .clear => clear
  | .deleteFunc fn order => deleteFunc fn order

end Method

/-- The code of every method, with the mode in which it takes the lock. -/
def methods : Methods (Request κ ν) (Answer κ ν) (Map κ ν) (Look κ) (Look.Seen ν) (Access κ ν)
    Access.Done where
  look := Look.perform
  change := Access.perform
  body
    | .change op => .writing (Method.change op >>= fun reply => return .changed reply)
    | .get key => .reading (Method.get key >>= fun value => return .found value)
    | .has key => .reading (Method.has key >>= fun present => return .present present)
    | .len => .reading (Method.len >>= fun length => return .length length)
    | .keys order => .reading (Method.keys order >>= fun keys => return .keys keys)
    | .values order => .reading (Method.values order >>= fun values => return .values values)
    | .range fn order => .reading (Method.range fn order >>= fun seen => return .visited seen)

/-! ## A call that is alone -/

namespace Method

/-- The reading accesses, as a handler. -/
abbrev reader : Handler (Look κ) (Look.Seen ν) (Map κ ν) := fun op m => (op.perform m, m)

omit [PartialEquivBEq κ] in
theorem run_loop (fn : κ → ν → Bool) (places : List Nat) (seen : List (Item κ ν)) (m : Map κ ν) :
    (loop fn places seen).run reader m =
      (seen ++ visits fn (places.filterMap (m.contents.entries[·]?)), m) := by
  induction places generalizing seen with
  | nil => simp [loop, visits]
  | cons place rest ih =>
      rw [loop, Reading.entry, Procedure.perform_bind, Procedure.run_call, List.filterMap_cons]
      simp only [Look.perform]
      cases found : m.contents.entries[place]? with
      | none => exact ih seen
      | some entry =>
          simp only [visits]
          split
          · rw [ih, List.append_assoc]
            rfl
          · rfl

omit [PartialEquivBEq κ] in
theorem run_range (fn : κ → ν → Bool) (order : Order κ) (m : Map κ ν) :
    (range fn order).run reader m = (visits fn (m.contents.visited order), m) :=
  run_loop fn _ [] m

theorem run_purge (fn : κ → ν → Bool) (entries : List (Item κ ν)) (deleted : Nat) (m : Map κ ν) :
    (purge fn entries deleted).run Access.perform m =
      ((entries.foldl (Map.visit fn) (m, deleted)).2,
        (entries.foldl (Map.visit fn) (m, deleted)).1) := by
  induction entries generalizing deleted m with
  | nil => rfl
  | cons entry rest ih =>
      rw [purge, List.foldl_cons, Map.visit]
      split
      · exact ih (deleted + 1) _
      · exact ih deleted m

theorem run_change (op : Op κ ν) (m : Map κ ν) :
    (change op).run Access.perform m = ((m.perform op).2, (m.perform op).1) := by
  cases op with
  | set key value => rfl
  | delete key =>
      rw [change, delete, Writing.lookup, Procedure.perform_bind, Procedure.run_call]
      simp only [Access.perform, Look.perform, Map.perform, Map.delete]
      cases m.contents.lookup key <;> rfl
  | clear => rfl
  | deleteFunc fn order =>
      rw [change, deleteFunc, Writing.range, Procedure.perform_bind, Procedure.run_call,
        Procedure.run_bind, run_purge]
      rfl

end Method

omit [BEq κ] [PartialEquivBEq κ] in
/-- Without a callback to stop it, a loop visits every entry. -/
theorem visits_true (entries : List (Item κ ν)) : visits (fun _ _ => true) entries = entries := by
  induction entries with
  | nil => rfl
  | cons entry rest ih => rw [visits, if_pos rfl, ih]

theorem perform_methods (call : Request κ ν) (m : Map κ ν) :
    methods.perform call m = m.answer call := by
  cases call with
  | change op =>
      change (Method.change op >>= _).run Access.perform m = _
      rw [Procedure.run_bind, Method.run_change]
      rfl
  | get key => rfl
  | has key => rfl
  | len => rfl
  | keys order =>
      change (Method.keys order >>= _).run Method.reader m = _
      rw [Procedure.run_bind, Method.keys, Procedure.run_bind, Method.run_range, visits_true]
      rfl
  | values order =>
      change (Method.values order >>= _).run Method.reader m = _
      rw [Procedure.run_bind, Method.values, Procedure.run_bind, Method.run_range, visits_true]
      rfl
  | range fn order =>
      change (Method.range fn order >>= _).run Method.reader m = _
      rw [Procedure.run_bind, Method.run_range]
      rfl

/-! ## Runs -/

/-- Clients of one map, none of which has called yet. -/
abbrev newCallers : Callers ι (Request κ ν) (Answer κ ν) (Map κ ν) (Look κ) (Look.Seen ν)
    (Access κ ν) Access.Done :=
  Callers.start Map.newMap

variable [DecidableEq ι]

/-- After every interleaving of steps of clients, the calls that have returned returned what they
return one after another, and once no client is in a call the map is what they leave. -/
theorem linearizable {moves : List (Move ι (Request κ ν))}
    {state : Callers ι (Request κ ν) (Answer κ ν) (Map κ ν) (Look κ) (Look.Seen ν) (Access κ ν)
      Access.Done}
    (ran : runFrom (Callers.step methods) newCallers moves = some state) :
    (Map.newMap.answers (state.completed.map Completed.origin)).1 = state.completed ∧
      ((∀ client, (state.stage client).call = none) →
        (Map.newMap.answers (state.completed.map Completed.origin)).2 = state.shared) := by
  obtain ⟨base, explains⟩ := Callers.exists_explains ran
  have sequence := explains.sequence
  rw [Methods.sequence] at sequence
  simp only [perform_methods] at sequence
  rw [Map.answers, sequence]
  refine ⟨rfl, fun idle => explains.settled ?_⟩
  intro client call within
  rw [idle client] at within
  cases within

/-- One client stores a value; then it lists the keys while another looks the value up. -/
def readersTogether : List (Move Bool (Request Nat Nat)) :=
  [.lock true (.change (.set 1 10)), .work true, .work true, .unlock true,
    .lock true (.keys inPlace), .lock false (.get 1), .work true, .work false, .work true,
    .work false, .unlock false, .work true, .unlock true]

theorem linearizable_readersTogether :
    ∃ state, runFrom (Callers.step methods) newCallers readersTogether = some state ∧
      (Map.newMap.answers (state.completed.map Completed.origin)).1 = state.completed ∧
      (Map.newMap.answers (state.completed.map Completed.origin)).2 = state.shared := by
  refine ⟨_, rfl, ?_⟩
  have both := @linearizable Bool Nat Nat _ _ _ readersTogether _ rfl
  refine ⟨both.1, both.2 ?_⟩
  intro client
  cases client <;> rfl

end CommonGo.Types
