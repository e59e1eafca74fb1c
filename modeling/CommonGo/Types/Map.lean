import CommonGo.Go.Table

/-!
# A map with a lock

`Map` guards a Go map with a lock.  Go maps are references: the guard holds the address of its
map, and `Clear` gives that address away and takes a new map.  Every call holds the lock from start
to end, so a run of any number of clients is a list of calls.

The type of the keys is any comparable one, and a key need not equal itself.
-/

namespace CommonGo.Types

open Go

/-- A key with its value. -/
abbrev Item (κ ν : Type) := κ × ν

/-- The contents of a Go map. -/
abbrev Contents (κ ν : Type) [BEq κ] := Table κ ν

/-- The order in which a loop visits the entries of a map. -/
abbrev Order (κ : Type) := Table.Order κ

/-- A loop that takes the entries as they come. -/
def inPlace {κ : Type} : Order κ := ⟨fun keys => List.range keys.length, fun _ => List.Perm.refl _⟩

/-- `Map`, with the heap its maps live in and the next free address. -/
structure Map (κ ν : Type) [BEq κ] where
  /-- The address of the map that is in use. -/
  data : Nat
  /-- The maps, by their addresses. -/
  heap : Nat → Contents κ ν
  /-- The address that `make` gives out next. -/
  fresh : Nat

variable {κ ν : Type} [BEq κ]

namespace Map

/-- `NewMap`. -/
def newMap : Map κ ν where
  data := 0
  heap := fun _ => .empty
  fresh := 1

/-- What the map holds. -/
def contents (m : Map κ ν) : Contents κ ν := m.heap m.data

/-- The map at the same address with other contents. -/
def store (m : Map κ ν) (contents : Contents κ ν) : Map κ ν :=
  { m with heap := Function.update m.heap m.data contents }

/-- `Map.Len`. -/
def len (m : Map κ ν) : Nat := m.contents.entries.length

/-- `Map.Clear`: the address of the old map, and a new one in its place. -/
def clear (m : Map κ ν) : Map κ ν × Nat :=
  ({ data := m.fresh
     heap := Function.update m.heap m.fresh .empty
     fresh := m.fresh + 1 }, m.data)

/-- `Map.Delete`; the value counts only if it was there. -/
def delete (m : Map κ ν) (key : κ) : Map κ ν × Option ν :=
  match m.contents.lookup key with
  | none => (m, none)
  | some value => (m.store (m.contents.erase key), some value)

/-- The body of the loop of `DeleteFunc`, with the number of deleted entries. -/
def visit (fn : κ → ν → Bool) (state : Map κ ν × Nat) (entry : Item κ ν) : Map κ ν × Nat :=
  if fn entry.1 entry.2 then (state.1.store (state.1.contents.erase entry.1), state.2 + 1)
  else state

/-- `Map.DeleteFunc`, with the order its loop takes.  The loop deletes no entry but the one that it
visits, so that it comes to all that were there. -/
def deleteFunc (m : Map κ ν) (fn : κ → ν → Bool) (order : Order κ) : Map κ ν × Nat :=
  (m.contents.visited order).foldl (visit fn) (m, 0)

/-- `Map.Set`. -/
def set [PartialEquivBEq κ] (m : Map κ ν) (key : κ) (value : ν) : Map κ ν :=
  m.store (m.contents.insert key value)

end Map

/-! ## Calls -/

/-- A call that may change the map. -/
inductive Op (κ ν : Type) where
  | set (key : κ) (value : ν)
  | delete (key : κ)
  | clear
  | deleteFunc (fn : κ → ν → Bool) (order : Order κ)

/-- What a call returns. -/
inductive Reply (ν : Type) where
  | done
  | deleted (value : Option ν)
  | cleared (old : Nat)
  | count (deleted : Nat)

/-- The map after a call, and what the call returns. -/
def Map.perform [PartialEquivBEq κ] (m : Map κ ν) : Op κ ν → Map κ ν × Reply ν
  | .set key value => (m.set key value, .done)
  | .delete key => ((m.delete key).1, .deleted (m.delete key).2)
  | .clear => (m.clear.1, .cleared m.clear.2)
  | .deleteFunc fn order => ((m.deleteFunc fn order).1, .count (m.deleteFunc fn order).2)

/-! ## The loop of `DeleteFunc` -/

namespace Map

@[simp] theorem contents_store (m : Map κ ν) (contents : Contents κ ν) :
    (m.store contents).contents = contents := Function.update_self ..

@[simp] theorem store_store (m : Map κ ν) (first second : Contents κ ν) :
    (m.store first).store second = m.store second := by
  simp [store]

@[simp] theorem store_contents (m : Map κ ν) : m.store m.contents = m := by
  simp [store, contents]

/-- Deleting erases, and returns what was there. -/
theorem delete_eq (m : Map κ ν) (key : κ) :
    m.delete key = (m.store (m.contents.erase key), m.contents.lookup key) := by
  unfold delete
  cases found : m.contents.lookup key with
  | none => rw [Table.erase_of_lookup_eq_none found, store_contents]
  | some value => rfl

/-- The loop deletes an entry if it visits an entry with this key and the predicate holds of it. -/
def dropped (fn : κ → ν → Bool) (entries : List (Item κ ν)) (entry : Item κ ν) : Bool :=
  entries.any fun other => fn other.1 other.2 && entry.1 == other.1

/-- After the loop has visited some entries, those it was to delete are gone, and every entry of
which the predicate holds was counted. -/
theorem foldl_visit (fn : κ → ν → Bool) (entries : List (Item κ ν)) (m : Map κ ν) (count : Nat) :
    entries.foldl (visit fn) (m, count) =
      (m.store (m.contents.filter fun entry => !dropped fn entries entry),
        count + (entries.filter fun entry => fn entry.1 entry.2).length) := by
  induction entries generalizing m count with
  | nil =>
      have all : (m.contents.filter fun entry => !dropped fn [] entry) = m.contents :=
        Table.ext (by simp [Table.filter, dropped])
      rw [all, store_contents]
      rfl
  | cons entry rest ih =>
      rw [List.foldl_cons, visit]
      cases holds : fn entry.1 entry.2 with
      | false =>
          rw [if_neg Bool.false_ne_true, ih, List.filter_cons_of_neg (by simp [holds])]
          simp [dropped, holds]
      | true =>
          have left : ((m.contents.erase entry.1).filter fun other => !dropped fn rest other) =
              m.contents.filter fun other => !dropped fn (entry :: rest) other := by
            ext1
            simp only [Table.filter, Table.erase, List.filter_filter, dropped, List.any_cons, holds,
              Bool.true_and, Bool.not_or]
            exact List.filter_congr fun other _ => Bool.and_comm _ _
          rw [if_pos rfl, ih, contents_store, store_store, left,
            List.filter_cons_of_pos (by simp [holds]), List.length_cons]
          exact congrArg (Prod.mk _) (by omega)

/-- `DeleteFunc` counts the entries that satisfy the predicate and removes those of them whose keys
equal themselves, in whatever order its loop visits them. -/
theorem deleteFunc_eq [PartialEquivBEq κ] (m : Map κ ν) (fn : κ → ν → Bool) (order : Order κ) :
    m.deleteFunc fn order =
      (m.store (m.contents.filter fun entry => !(fn entry.1 entry.2 && entry.1 == entry.1)),
        (m.contents.entries.filter fun entry => fn entry.1 entry.2).length) := by
  have visits := m.contents.visited_perm order
  have left : (m.contents.filter fun entry => !dropped fn (m.contents.visited order) entry) =
      m.contents.filter fun entry => !(fn entry.1 entry.2 && entry.1 == entry.1) := by
    ext1
    refine List.filter_congr fun entry member => congrArg not ?_
    rw [Bool.eq_iff_iff, dropped, List.any_eq_true]
    constructor
    · rintro ⟨other, inVisits, drops⟩
      obtain ⟨holds, same⟩ := Bool.and_eq_true_iff.mp drops
      obtain rfl := Table.eq_of_beq member (visits.mem_iff.mp inVisits) same
      exact drops
    · intro drops
      exact ⟨entry, visits.mem_iff.mpr member, drops⟩
  have count := (visits.filter fun entry => fn entry.1 entry.2).length_eq
  rw [deleteFunc, foldl_visit, left, count, Nat.zero_add]

end Map

end CommonGo.Types
