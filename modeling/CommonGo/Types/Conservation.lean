import CommonGo.Types.Map
import Mathlib.Algebra.Ring.Nat

/-!
# What is stored in the map is accounted for

A run of calls by any number of clients.  What was stored is overwritten, returned by `Delete`, left
in a map that `Clear` gave away, counted by `DeleteFunc`, or still there.  To tell equal values
apart the same run is made with a stamp on every value; the code does not look at values, so
forgetting the stamps gives the run itself.

`DeleteFunc` also counts entries that it cannot remove, those under keys that do not equal
themselves.  The account is right exactly if it never meets one.
-/

namespace CommonGo.Types

open Go
open scoped List

variable {ι κ ν : Type} [BEq κ]

/-! ## Runs -/

/-- A call with what the map held before and after it. -/
structure Event (ι κ ν : Type) [BEq κ] where
  /-- Who calls. -/
  client : ι
  /-- The call. -/
  op : Op κ ν
  /-- What the map holds when the call gets the lock. -/
  before : Contents κ ν
  /-- What the call returns. -/
  reply : Reply ν
  /-- What the map holds when the call gives the lock back. -/
  after : Contents κ ν

/-- The event of a call. -/
def Map.event [PartialEquivBEq κ] (m : Map κ ν) (client : ι) (op : Op κ ν) : Event ι κ ν :=
  ⟨client, op, m.contents, (m.perform op).2, (m.perform op).1.contents⟩

/-- A run of calls of clients, in the order in which they get the lock. -/
def run [PartialEquivBEq κ] : Map κ ν → List (ι × Op κ ν) → Map κ ν × List (Event ι κ ν)
  | m, [] => (m, [])
  | m, (client, op) :: calls =>
      ((run (m.perform op).1 calls).1, m.event client op :: (run (m.perform op).1 calls).2)

/-- What a call stores. -/
def Op.stored : Op κ ν → List ν
  | .set _ value => [value]
  | _ => []

/-- What the calls of a run store, one value for each `Set`. -/
def stored (calls : List (ι × Op κ ν)) : List ν := calls.flatMap fun call => call.2.stored

/-! ## Stamps -/

/-- A value with the number of the call that stored it. -/
abbrev Stamped (ν : Type) := ν × Nat

/-- The same call with a stamp on the value; predicates do not see it. -/
def Op.stamp (number : Nat) : Op κ ν → Op κ (Stamped ν)
  | .set key value => .set key (value, number)
  | .delete key => .delete key
  | .clear => .clear
  | .deleteFunc fn order => .deleteFunc (fun key value => fn key value.1) order

/-- The calls of a run, each stamped with its place. -/
def stampFrom : Nat → List (ι × Op κ ν) → List (ι × Op κ (Stamped ν))
  | _, [] => []
  | number, (client, op) :: calls => (client, op.stamp number) :: stampFrom (number + 1) calls

/-- The stamps of what a map holds. -/
def Contents.stamps (contents : Contents κ (Stamped ν)) : List Nat := contents.values.map Prod.snd

/-- What a call takes out of the map: the value that a `Set` overwrites, the one that a `Delete`
returns, those in the map that a `Clear` returned, as the heap has it, and those that are gone after
a `DeleteFunc`. -/
def Event.released (heap : Nat → Contents κ (Stamped ν)) (event : Event ι κ (Stamped ν)) :
    List (Stamped ν) :=
  match event.op, event.reply with
  | .set key _, _ => (event.before.lookup key).toList
  | .delete _, .deleted value => value.toList
  | .clear, .cleared old => (heap old).values
  | .deleteFunc _ _, _ =>
      event.before.values.filter fun value => value.2 ∉ Contents.stamps event.after
  | _, _ => []

/-- What is accounted for at the end of a run. -/
def accounted (result : Map κ (Stamped ν) × List (Event ι κ (Stamped ν))) : List (Stamped ν) :=
  result.2.flatMap (Event.released result.1.heap) ++ result.1.contents.values

/-! ## One call -/

section Step

variable [PartialEquivBEq κ]

omit [PartialEquivBEq κ] in
/-- What is gone after a test of the entries is what did not pass it. -/
theorem gone_filter {contents : Contents κ (Stamped ν)} (distinct : contents.stamps.Nodup)
    (test : Item κ (Stamped ν) → Bool) :
    (contents.values.filter fun value => value.2 ∉ Contents.stamps (contents.filter test)) =
      (contents.entries.filter fun entry => !test entry).map Prod.snd := by
  rw [Table.values, List.filter_map]
  refine congrArg (List.map Prod.snd) (List.filter_congr fun entry member => ?_)
  have stamps : ∀ other ∈ contents.entries, other.2.2 = entry.2.2 → other = entry := by
    rw [Contents.stamps, Table.values, List.map_map] at distinct
    exact fun other within same => List.inj_on_of_nodup_map distinct within member same
  cases passes : test entry with
  | true =>
      have kept : entry.2.2 ∈ Contents.stamps (contents.filter test) :=
        List.mem_map_of_mem (List.mem_map_of_mem (List.mem_filter.mpr ⟨member, passes⟩))
      simp [kept]
  | false =>
      have gone : entry.2.2 ∉ Contents.stamps (contents.filter test) := by
        intro there
        obtain ⟨value, inValues, same⟩ := List.mem_map.mp there
        obtain ⟨other, inFilter, rfl⟩ := List.mem_map.mp inValues
        obtain ⟨inEntries, passed⟩ := List.mem_filter.mp inFilter
        rw [stamps other inEntries same, passes] at passed
        cases passed
      simp [gone]

theorem released_deleteFunc (m : Map κ (Stamped ν)) (client : ι) (fn : κ → Stamped ν → Bool)
    (order : Order κ) (heap : Nat → Contents κ (Stamped ν)) (distinct : m.contents.stamps.Nodup) :
    (m.event client (.deleteFunc fn order)).released heap =
      (m.contents.entries.filter fun entry =>
        fn entry.1 entry.2 && entry.1 == entry.1).map Prod.snd := by
  simp only [Map.event, Map.perform, Map.deleteFunc_eq, Map.contents_store, Event.released,
    gone_filter distinct, Bool.not_not]

/-- A call hands on what it does not keep. -/
theorem released_perm {m : Map κ (Stamped ν)} (distinct : m.contents.stamps.Nodup) (client : ι)
    (op : Op κ (Stamped ν)) {heap : Nat → Contents κ (Stamped ν)}
    (kept : op = .clear → heap m.data = m.contents) :
    ((m.event client op).released heap ++ (m.perform op).1.contents.values).Perm
      (op.stored ++ m.contents.values) := by
  cases op with
  | set key value =>
      simp only [Map.event, Map.perform, Map.set, Map.contents_store, Event.released, Op.stored,
        List.singleton_append]
      exact List.perm_middle.trans ((m.contents.values_perm key).cons _)
  | delete key =>
      simp only [Map.event, Map.perform, Map.delete_eq, Map.contents_store, Event.released,
        Op.stored, List.nil_append]
      exact m.contents.values_perm key
  | clear =>
      have empty : m.clear.1.contents = .empty := Function.update_self ..
      simp only [Map.event, Map.perform, Event.released, empty, Op.stored, List.nil_append]
      rw [show m.clear.2 = m.data from rfl, kept rfl]
      exact List.Perm.of_eq (List.append_nil _)
  | deleteFunc fn order =>
      rw [released_deleteFunc _ _ _ _ _ distinct]
      simp only [Map.perform, Map.deleteFunc_eq, Map.contents_store, Op.stored, List.nil_append]
      have split := List.filter_append_perm
        (fun entry : Item κ (Stamped ν) => fn entry.1 entry.2 && entry.1 == entry.1)
        m.contents.entries
      rw [Table.values, Table.values, ← List.map_append]
      exact split.map Prod.snd

end Step

/-! ## Maps that were given away -/

namespace Map

/-- An address that was used and is no longer that of the map. -/
def Detached (m : Map κ ν) (address : Nat) : Prop := address < m.fresh ∧ address ≠ m.data

variable {m : Map κ ν} {address : Nat}

theorem detached_clear (inUse : m.data < m.fresh) : m.clear.1.Detached m.data :=
  ⟨Nat.lt_succ_of_lt inUse, Nat.ne_of_lt inUse⟩

variable [PartialEquivBEq κ]

/-- A call is a store at the address of the map, or takes a new map. -/
theorem perform_cases (m : Map κ ν) (op : Op κ ν) :
    (∃ contents, (m.perform op).1 = m.store contents) ∨ (m.perform op).1 = m.clear.1 := by
  cases op with
  | set key value => exact Or.inl ⟨_, rfl⟩
  | delete key => exact Or.inl ⟨_, congrArg Prod.fst (m.delete_eq key)⟩
  | clear => exact Or.inr rfl
  | deleteFunc fn order => exact Or.inl ⟨_, congrArg Prod.fst (m.deleteFunc_eq fn order)⟩

theorem lt_fresh_perform (inUse : m.data < m.fresh) (op : Op κ ν) :
    (m.perform op).1.data < (m.perform op).1.fresh := by
  rcases m.perform_cases op with ⟨contents, stores⟩ | clears
  · rw [stores]
    exact inUse
  · rw [clears]
    exact Nat.lt_succ_self m.fresh

theorem Detached.perform (detached : m.Detached address) (op : Op κ ν) :
    (m.perform op).1.Detached address ∧ (m.perform op).1.heap address = m.heap address := by
  rcases m.perform_cases op with ⟨contents, stores⟩ | clears
  · rw [stores]
    exact ⟨detached, Function.update_of_ne detached.2 ..⟩
  · rw [clears]
    exact ⟨⟨Nat.lt_succ_of_lt detached.1, Nat.ne_of_lt detached.1⟩,
      Function.update_of_ne (Nat.ne_of_lt detached.1) ..⟩

/-- No later call changes a map that was given away. -/
theorem Detached.run (detached : m.Detached address) (calls : List (ι × Op κ ν)) :
    (run m calls).1.heap address = m.heap address := by
  induction calls generalizing m with
  | nil => rfl
  | cons call calls ih =>
      obtain ⟨still, same⟩ := detached.perform call.2
      exact (ih still).trans same

end Map

section Run

variable [PartialEquivBEq κ]

/-- A map that a call gives away is at the end what it was. -/
theorem heap_of_clear {m : Map κ ν} (inUse : m.data < m.fresh) (calls : List (ι × Op κ ν))
    {op : Op κ ν} (clears : op = .clear) :
    (run (m.perform op).1 calls).1.heap m.data = m.contents := by
  subst clears
  refine ((Map.detached_clear inUse).run calls).trans ?_
  exact Function.update_of_ne (Nat.ne_of_lt inUse) ..

/-- What a map holds was stored by different calls, all of them earlier than some place. -/
structure Stored (number : Nat) (contents : Contents κ (Stamped ν)) : Prop where
  /-- No stamp comes twice. -/
  distinct : contents.stamps.Nodup
  /-- All stamps are those of earlier calls. -/
  earlier : ∀ stamp ∈ contents.stamps, stamp < number

omit [PartialEquivBEq κ] in
theorem stored_empty (number : Nat) : Stored number (.empty : Contents κ (Stamped ν)) :=
  ⟨List.nodup_nil, fun _ member => absurd member List.not_mem_nil⟩

omit [BEq κ] [PartialEquivBEq κ] in
/-- A stamped call stores at most one value, with its own stamp. -/
theorem map_snd_stored_stamp (op : Op κ ν) (number : Nat) :
    (op.stamp number).stored.map Prod.snd = [] ∨
      (op.stamp number).stored.map Prod.snd = [number] := by
  cases op with
  | set key value => exact Or.inr rfl
  | delete key => exact Or.inl rfl
  | clear => exact Or.inl rfl
  | deleteFunc fn order => exact Or.inl rfl

/-- A call stamps what it stores with its place. -/
theorem Stored.perform {m : Map κ (Stamped ν)} {number : Nat} (held : Stored number m.contents)
    (op : Op κ ν) : Stored (number + 1) (m.perform (op.stamp number)).1.contents := by
  have step := (@released_perm Unit _ _ _ _ m held.distinct () (op.stamp number)
    (fun _ => m.contents) fun _ => rfl).map Prod.snd
  rw [List.map_append, List.map_append] at step
  have nodup : ((op.stamp number).stored.map Prod.snd ++ m.contents.stamps).Nodup := by
    rcases map_snd_stored_stamp op number with none | one
    · rw [none]
      exact held.distinct
    · rw [one]
      refine List.nodup_cons.mpr ⟨fun again => ?_, held.distinct⟩
      exact Nat.lt_irrefl number (held.earlier number again)
  refine ⟨(List.nodup_append.mp (step.nodup_iff.mpr nodup)).2.1, fun stamp member => ?_⟩
  rcases List.mem_append.mp (step.subset (List.mem_append_right _ member)) with new | old
  · rcases map_snd_stored_stamp op number with none | one
    · rw [none] at new
      cases new
    · rw [one, List.mem_singleton] at new
      omega
  · exact Nat.lt_succ_of_lt (held.earlier stamp old)

/-- Along a run, what is accounted for is what was there and what was stored. -/
theorem accounted_perm {m : Map κ (Stamped ν)} (inUse : m.data < m.fresh) {number : Nat}
    (held : Stored number m.contents) (calls : List (ι × Op κ ν)) :
    (accounted (run m (stampFrom number calls))).Perm
      (stored (stampFrom number calls) ++ m.contents.values) := by
  induction calls generalizing m number with
  | nil => exact List.Perm.refl _
  | cons call calls ih =>
      obtain ⟨client, op⟩ := call
      have rest := ih (m.lt_fresh_perform inUse (op.stamp number)) (held.perform op)
      have step := released_perm held.distinct client (op.stamp number)
        (heap_of_clear inUse (stampFrom (number + 1) calls))
      let result := run (m.perform (op.stamp number)).1 (stampFrom (number + 1) calls)
      let event := m.event client (op.stamp number)
      let after := (m.perform (op.stamp number)).1.contents.values
      calc accounted (run m (stampFrom number ((client, op) :: calls)))
          = event.released result.1.heap ++ accounted result := by
            rw [accounted, stampFrom, run, List.flatMap_cons, List.append_assoc, accounted]
        _ ~ event.released result.1.heap ++ (stored (stampFrom (number + 1) calls) ++ after) :=
            rest.append_left _
        _ ~ stored (stampFrom (number + 1) calls) ++ (event.released result.1.heap ++ after) :=
            List.perm_append_comm_assoc ..
        _ ~ stored (stampFrom (number + 1) calls) ++
              ((op.stamp number).stored ++ m.contents.values) := step.append_left _
        _ ~ (op.stamp number).stored ++
              (stored (stampFrom (number + 1) calls) ++ m.contents.values) :=
            List.perm_append_comm_assoc ..
        _ = stored (stampFrom number ((client, op) :: calls)) ++ m.contents.values := by
            rw [stored, stored, stampFrom, List.flatMap_cons, List.append_assoc]

/-- What the map holds before a call was stored by an earlier one. -/
theorem stamp_lt {m : Map κ (Stamped ν)} {calls : List (ι × Op κ ν)} {number : Nat}
    (held : Stored number m.contents) {event : Event ι κ (Stamped ν)} {place : Nat}
    (happens : (event, place) ∈ (run m (stampFrom number calls)).2.zipIdx number) :
    ∀ stamp ∈ Contents.stamps event.before, stamp < place := by
  induction calls generalizing m number with
  | nil => cases happens
  | cons call calls ih =>
      obtain ⟨client, op⟩ := call
      rw [stampFrom, run, List.zipIdx_cons, List.mem_cons] at happens
      rcases happens with first | later
      · cases first
        exact held.earlier
      · exact ih (held.perform op) later

end Run

/-! ## Forgetting the stamps -/

/-- The call without its stamp. -/
def Op.forget : Op κ (Stamped ν) → Op κ ν
  | .set key value => .set key value.1
  | .delete key => .delete key
  | .clear => .clear
  | .deleteFunc fn order => .deleteFunc (fun key value => fn key (value, 0)) order

/-- The reply without stamps. -/
def Reply.forget : Reply (Stamped ν) → Reply ν
  | .done => .done
  | .deleted value => .deleted (value.map Prod.fst)
  | .cleared old => .cleared old
  | .count number => .count number

/-- The event without stamps. -/
def Event.forget (event : Event ι κ (Stamped ν)) : Event ι κ ν :=
  ⟨event.client, event.op.forget, event.before.map Prod.fst, event.reply.forget,
    event.after.map Prod.fst⟩

/-- The map without stamps. -/
def Map.forget (m : Map κ (Stamped ν)) : Map κ ν :=
  ⟨m.data, fun address => (m.heap address).map Prod.fst, m.fresh⟩

omit [BEq κ] in
@[simp] theorem Op.forget_stamp (number : Nat) (op : Op κ ν) : (op.stamp number).forget = op := by
  cases op <;> rfl

@[simp] theorem Map.contents_forget (m : Map κ (Stamped ν)) :
    m.forget.contents = m.contents.map Prod.fst := rfl

theorem Map.forget_store (m : Map κ (Stamped ν)) (contents : Contents κ (Stamped ν)) :
    (m.store contents).forget = m.forget.store (contents.map Prod.fst) := by
  simp only [forget, store, Map.mk.injEq, true_and, and_true]
  funext address
  by_cases same : address = m.data
  · rw [same, Function.update_self, Function.update_self]
  · rw [Function.update_of_ne same, Function.update_of_ne same]

section Forget

variable [PartialEquivBEq κ]

/-- A call does the same with and without stamps. -/
theorem Map.perform_forget (m : Map κ (Stamped ν)) (op : Op κ ν) (number : Nat) :
    m.forget.perform op =
      ((m.perform (op.stamp number)).1.forget, (m.perform (op.stamp number)).2.forget) := by
  cases op with
  | set key value =>
      simp only [perform, Op.stamp, set, forget_store, Table.map_insert, contents_forget,
        Reply.forget]
  | delete key =>
      simp only [perform, Op.stamp, delete_eq, forget_store, Table.map_erase, contents_forget,
        Table.lookup_map, Reply.forget]
  | clear =>
      simp only [perform, Op.stamp, clear, Reply.forget, Prod.mk.injEq, forget, Map.mk.injEq,
        true_and, and_true]
      funext address
      by_cases same : address = m.fresh
      · rw [same, Function.update_self, Function.update_self]
        rfl
      · rw [Function.update_of_ne same, Function.update_of_ne same]
  | deleteFunc fn order =>
      have left := m.contents.map_filter Prod.fst fun entry =>
        !(fn entry.1 entry.2 && entry.1 == entry.1)
      have gone :
          ((m.contents.map Prod.fst).entries.filter fun entry => fn entry.1 entry.2).length =
            (m.contents.entries.filter fun entry => fn entry.1 entry.2.1).length := by
        simp [Table.map, List.filter_map, Function.comp_def]
      simp only [perform, Op.stamp, deleteFunc_eq, forget_store, contents_forget, ← left, gone,
        Reply.forget]

/-- The run is the stamped run without its stamps. -/
theorem run_forget (m : Map κ (Stamped ν)) (calls : List (ι × Op κ ν)) (number : Nat) :
    run m.forget calls =
      ((run m (stampFrom number calls)).1.forget,
        (run m (stampFrom number calls)).2.map Event.forget) := by
  induction calls generalizing m number with
  | nil => rfl
  | cons call calls ih =>
      obtain ⟨client, op⟩ := call
      have step := m.perform_forget op number
      have event : m.forget.event client op = (m.event client (op.stamp number)).forget := by
        simp only [Map.event, Event.forget, step, Op.forget_stamp, Map.contents_forget]
      rw [run, event, step, ih _ (number + 1), stampFrom, run, List.map_cons]

end Forget

/-! ## Order of the stamps -/

section Stamps

omit [BEq κ]

theorem le_of_mem_stored {calls : List (ι × Op κ ν)} {number : Nat} {value : Stamped ν}
    (member : value ∈ stored (stampFrom number calls)) : number ≤ value.2 := by
  induction calls generalizing number with
  | nil => cases member
  | cons call calls ih =>
      obtain ⟨client, op⟩ := call
      rw [stampFrom, stored, List.flatMap_cons, List.mem_append] at member
      rcases member with first | later
      · cases op with
        | set key value =>
            rw [List.mem_singleton.mp first]
        | delete key => cases first
        | clear => cases first
        | deleteFunc fn order => cases first
      · exact Nat.le_of_succ_le (ih later)

/-- Every `Set` has a stamp of its own. -/
theorem nodup_stamps (calls : List (ι × Op κ ν)) (number : Nat) :
    ((stored (stampFrom number calls)).map Prod.snd).Nodup := by
  induction calls generalizing number with
  | nil => exact List.nodup_nil
  | cons call calls ih =>
      obtain ⟨client, op⟩ := call
      rw [stampFrom, stored, List.flatMap_cons]
      cases op with
      | set key value =>
          refine List.nodup_cons.mpr ⟨fun again => ?_, ih (number + 1)⟩
          obtain ⟨stamped, member, same⟩ := List.mem_map.mp again
          have later := le_of_mem_stored member
          change stamped.2 = number at same
          omega
      | delete key => exact ih (number + 1)
      | clear => exact ih (number + 1)
      | deleteFunc fn order => exact ih (number + 1)

end Stamps

/-! ## Numbers -/

/-- The number of `Set` calls. -/
def setCalls (calls : List (ι × Op κ ν)) : Nat := (stored calls).length

/-- One if the call is a `Set` of a key that is there. -/
def Event.overwrites (event : Event ι κ ν) : Nat :=
  match event.op with
  | .set key _ => (event.before.lookup key).toList.length
  | _ => 0

/-- One if the call is a `Delete` that finds its key. -/
def Event.deletes (event : Event ι κ ν) : Nat :=
  match event.reply with
  | .deleted (some _) => 1
  | _ => 0

/-- The size of the map that a `Clear` returns. -/
def Event.clearedSize (heap : Nat → Contents κ ν) (event : Event ι κ ν) : Nat :=
  match event.reply with
  | .cleared old => (heap old).entries.length
  | _ => 0

/-- The number that a `DeleteFunc` returns. -/
def Event.deletedCount (event : Event ι κ ν) : Nat :=
  match event.reply with
  | .count number => number
  | _ => 0

/-- The number of entries that a `DeleteFunc` counts and does not remove. -/
def Event.miscounted (event : Event ι κ ν) : Nat :=
  match event.op with
  | .deleteFunc fn _ => (event.before.stuck.filter fun entry => fn entry.1 entry.2).length
  | _ => 0

section Count

/-- What is counted is what is taken out and what is counted and left. -/
theorem length_add_length_filter {α : Type} (counted sound : α → Bool) (list : List α) :
    list.length + ((list.filter fun x => !sound x).filter counted).length =
      (list.filter counted).length + (list.filter fun x => !(counted x && sound x)).length := by
  induction list with
  | nil => rfl
  | cons x rest ih =>
      cases counts : counted x <;> cases sane : sound x <;>
        simp [counts, sane] at ih ⊢ <;> omega

theorem len_eq (m : Map κ ν) : m.len = m.contents.values.length := by
  rw [Map.len, Table.values, List.length_map]

variable [PartialEquivBEq κ]

/-- What a call stores is made up for by the numbers it returns and the new length, but for what it
counts and does not remove. -/
theorem length_perform (m : Map κ ν) (client : ι) (op : Op κ ν) {heap : Nat → Contents κ ν}
    (kept : op = .clear → heap m.data = m.contents) :
    op.stored.length + m.len + (m.event client op).miscounted =
      (m.event client op).overwrites + (m.event client op).deletes +
        (m.event client op).clearedSize heap + (m.event client op).deletedCount +
          (m.perform op).1.len := by
  cases op with
  | set key value =>
      have split := (m.contents.values_perm key).length_eq
      have new : (m.set key value).len = (m.contents.erase key).values.length + 1 := by
        rw [len_eq, Map.set, Map.contents_store]
        rfl
      rw [List.length_append] at split
      simp only [Map.event, Map.perform, Op.stored, Event.miscounted, Event.overwrites,
        Event.deletes, Event.clearedSize, Event.deletedCount, len_eq m, new, List.length_singleton]
      omega
  | delete key =>
      have split := (m.contents.values_perm key).length_eq
      have deletes : (m.event client (.delete key)).deletes =
          (m.contents.lookup key).toList.length := by
        simp only [Map.event, Map.perform, Map.delete_eq, Event.deletes]
        cases m.contents.lookup key <;> rfl
      rw [List.length_append] at split
      rw [deletes]
      simp only [Map.event, Map.perform, Map.delete_eq, Op.stored, Event.miscounted,
        Event.overwrites, Event.clearedSize, Event.deletedCount, len_eq, Map.contents_store,
        List.length_nil]
      omega
  | clear =>
      have empty : m.clear.1.contents = .empty := Function.update_self ..
      have returned : heap m.clear.2 = m.contents := kept rfl
      simp [Map.event, Map.perform, Op.stored, Event.miscounted, Event.overwrites, Event.deletes,
        Event.clearedSize, Event.deletedCount, Map.len, empty, returned, Table.empty]
  | deleteFunc fn order =>
      have counted := length_add_length_filter (fun entry : Item κ ν => fn entry.1 entry.2)
        (fun entry => entry.1 == entry.1) m.contents.entries
      simp only [Map.event, Map.perform, Map.deleteFunc_eq, Op.stored, Event.miscounted,
        Event.overwrites, Event.deletes, Event.clearedSize, Event.deletedCount, Map.len,
        Map.contents_store, List.length_nil, Nat.zero_add]
      exact counted

/-- The numbers of a run, with what was counted and not removed. -/
theorem counts_run {m : Map κ ν} (inUse : m.data < m.fresh) (calls : List (ι × Op κ ν)) :
    setCalls calls + m.len + ((run m calls).2.map Event.miscounted).sum =
      ((run m calls).2.map Event.overwrites).sum + ((run m calls).2.map Event.deletes).sum +
        ((run m calls).2.map (Event.clearedSize (run m calls).1.heap)).sum +
          ((run m calls).2.map Event.deletedCount).sum + (run m calls).1.len := by
  induction calls generalizing m with
  | nil => simp [setCalls, stored, run]
  | cons call calls ih =>
      obtain ⟨client, op⟩ := call
      have first := length_perform m client op (heap_of_clear inUse calls)
      have rest := ih (m.lt_fresh_perform inUse op)
      have calls_eq : setCalls ((client, op) :: calls) = op.stored.length + setCalls calls := by
        rw [setCalls, stored, List.flatMap_cons, List.length_append]
        rfl
      simp only [run, List.map_cons, List.sum_cons, calls_eq]
      omega

end Count

/-! ## Entries that cannot be deleted -/

/-- The entries under keys that do not equal themselves, after a call; only `Clear` takes them
away. -/
def stuckAfter (stuck : List (Item κ ν)) : Op κ ν → List (Item κ ν)
  | .set key value => if key == key then stuck else (key, value) :: stuck
  | .delete _ => stuck
  | .clear => []
  | .deleteFunc _ _ => stuck

/-- The call is no `DeleteFunc` with a predicate that holds of one of these entries. -/
def Op.spares (stuck : List (Item κ ν)) : Op κ ν → Bool
  | .deleteFunc fn _ => stuck.all fun entry => !fn entry.1 entry.2
  | _ => true

/-- No predicate of a `DeleteFunc` holds of an entry that was stored under a key that does not equal
itself and has not been cleared away since.  The list has the entries of this kind so far. -/
def neverStuck : List (Item κ ν) → List (ι × Op κ ν) → Bool
  | _, [] => true
  | stuck, (_, op) :: calls => op.spares stuck && neverStuck (stuckAfter stuck op) calls

/-- If every key equals itself, no entry is of this kind. -/
theorem neverStuck_of_refl [ReflBEq κ] (calls : List (ι × Op κ ν)) :
    neverStuck [] calls = true := by
  induction calls with
  | nil => rfl
  | cons call calls ih =>
      obtain ⟨client, op⟩ := call
      have same : stuckAfter [] op = [] := by
        cases op with
        | set key value => simp [stuckAfter]
        | delete key => rfl
        | clear => rfl
        | deleteFunc fn order => rfl
      have spares : op.spares [] = true := by cases op <;> rfl
      rw [neverStuck, spares, same, ih]
      rfl

section Stuck

variable [PartialEquivBEq κ]

theorem stuck_perform (m : Map κ ν) (op : Op κ ν) :
    (m.perform op).1.contents.stuck = stuckAfter m.contents.stuck op := by
  cases op with
  | set key value =>
      simp only [Map.perform, Map.set, Map.contents_store, Table.stuck_insert, stuckAfter]
  | delete key =>
      simp only [Map.perform, Map.delete_eq, Map.contents_store, Table.stuck_erase, stuckAfter]
  | clear =>
      have empty : m.clear.1.contents = .empty := Function.update_self ..
      simp only [Map.perform, empty, stuckAfter]
      rfl
  | deleteFunc fn order =>
      simp only [Map.perform, Map.deleteFunc_eq, Map.contents_store, stuckAfter, Table.stuck,
        Table.filter, List.filter_filter]
      refine List.filter_congr fun entry _ => ?_
      cases entry.1 == entry.1 <;> simp

theorem miscounted_eq_zero_iff (m : Map κ ν) (client : ι) (op : Op κ ν) :
    (m.event client op).miscounted = 0 ↔ op.spares m.contents.stuck = true := by
  cases op with
  | set key value => exact ⟨fun _ => rfl, fun _ => rfl⟩
  | delete key => exact ⟨fun _ => rfl, fun _ => rfl⟩
  | clear => exact ⟨fun _ => rfl, fun _ => rfl⟩
  | deleteFunc fn order => simp [Map.event, Event.miscounted, Op.spares]

/-- Everything that is counted is removed exactly if no predicate meets an entry it cannot. -/
theorem sum_miscounted_eq_zero_iff (m : Map κ ν) (calls : List (ι × Op κ ν)) :
    ((run m calls).2.map Event.miscounted).sum = 0 ↔
      neverStuck m.contents.stuck calls = true := by
  induction calls generalizing m with
  | nil => exact ⟨fun _ => rfl, fun _ => rfl⟩
  | cons call calls ih =>
      obtain ⟨client, op⟩ := call
      have rest := ih (m.perform op).1
      rw [stuck_perform] at rest
      rw [run, List.map_cons, List.sum_cons, Nat.add_eq_zero_iff, neverStuck, Bool.and_eq_true_iff,
        miscounted_eq_zero_iff, rest]

end Stuck

/-! ## The account of a run -/

/-- The account of a run of calls on a new map.  `traced` is the run with stamped values, and
`result` the run itself. -/
structure Conserves (calls : List (ι × Op κ ν))
    (traced : Map κ (Stamped ν) × List (Event ι κ (Stamped ν)))
    (result : Map κ ν × List (Event ι κ ν)) : Prop where
  /-- The stamps change nothing. -/
  forget : result = (traced.1.forget, traced.2.map Event.forget)
  /-- What the calls took out and what is left is what was stored, each once. -/
  once : (accounted traced).Perm (stored (stampFrom 0 calls))
  /-- No two stored values have the same stamp. -/
  distinct : ((stored (stampFrom 0 calls)).map Prod.snd).Nodup
  /-- What a call finds, and so what it takes out, was stored by an earlier call. -/
  earlier : ∀ event place, (event, place) ∈ traced.2.zipIdx →
    ∀ stamp ∈ Contents.stamps event.before, stamp < place
  /-- The numbers that the calls return add up. -/
  counts : setCalls calls =
    (result.2.map Event.overwrites).sum + (result.2.map Event.deletes).sum +
      (result.2.map (Event.clearedSize result.1.heap)).sum +
        (result.2.map Event.deletedCount).sum + result.1.len
  /-- `DeleteFunc` removes and counts exactly the entries that satisfy its predicate. -/
  purges : ∀ event ∈ result.2, ∀ fn order, event.op = .deleteFunc fn order →
    event.after = event.before.filter (fun entry => !fn entry.1 entry.2) ∧
      event.reply = .count (event.before.entries.filter fun entry => fn entry.1 entry.2).length

section Account

variable [PartialEquivBEq κ]

/-- A `DeleteFunc` that counts nothing in vain removes all that satisfies its predicate. -/
theorem purges_event {m : Map κ ν} {client : ι} {fn : κ → ν → Bool} {order : Order κ}
    (sound : (m.event client (.deleteFunc fn order)).miscounted = 0) :
    (m.event client (.deleteFunc fn order)).after =
      m.contents.filter fun entry => !fn entry.1 entry.2 := by
  rw [miscounted_eq_zero_iff, Op.spares, List.all_eq_true] at sound
  simp only [Map.event, Map.perform, Map.deleteFunc_eq, Map.contents_store]
  ext1
  refine List.filter_congr fun entry member => congrArg not ?_
  cases same : entry.1 == entry.1 with
  | true => rw [Bool.and_true]
  | false =>
      have spared := sound entry (List.mem_filter.mpr ⟨member, by simp [same]⟩)
      rw [Bool.not_eq_true'] at spared
      rw [spared]
      rfl

theorem purges_run {m : Map κ ν} {calls : List (ι × Op κ ν)}
    (sound : ((run m calls).2.map Event.miscounted).sum = 0) {event : Event ι κ ν}
    (happens : event ∈ (run m calls).2) {fn : κ → ν → Bool} {order : Order κ}
    (purge : event.op = .deleteFunc fn order) :
    event.after = event.before.filter (fun entry => !fn entry.1 entry.2) ∧
      event.reply =
        .count (event.before.entries.filter fun entry => fn entry.1 entry.2).length := by
  induction calls generalizing m with
  | nil => cases happens
  | cons call calls ih =>
      obtain ⟨client, op⟩ := call
      rw [run, List.map_cons, List.sum_cons, Nat.add_eq_zero_iff] at sound
      rw [run, List.mem_cons] at happens
      rcases happens with rfl | later
      · have same : op = .deleteFunc fn order := purge
        subst same
        refine ⟨purges_event sound.1, ?_⟩
        simp only [Map.event, Map.perform, Map.deleteFunc_eq]
      · exact ih sound.2 later

/-- For any interleaving of calls of any number of clients, every stored value is accounted for
exactly once, if and only if no `DeleteFunc` meets an entry that it cannot delete. -/
theorem conserves_iff (calls : List (ι × Op κ ν)) :
    Conserves calls (run Map.newMap (stampFrom 0 calls)) (run Map.newMap calls) ↔
      neverStuck [] calls = true := by
  have numbers := counts_run (m := (Map.newMap : Map κ ν)) Nat.one_pos calls
  have empty : (Map.newMap : Map κ ν).len = 0 := rfl
  have sound := sum_miscounted_eq_zero_iff (Map.newMap : Map κ ν) calls
  rw [empty, Nat.add_zero] at numbers
  refine Iff.trans ⟨fun account => ?_, fun zero => ?_⟩ sound
  · have counts := account.counts
    omega
  · refine ⟨run_forget Map.newMap calls 0, ?_, nodup_stamps calls 0, ?_, ?_, ?_⟩
    · have account := accounted_perm (m := (Map.newMap : Map κ (Stamped ν))) Nat.one_pos
        (stored_empty 0) calls
      exact account.trans (List.Perm.of_eq (List.append_nil _))
    · exact fun event place happens => stamp_lt (stored_empty 0) happens
    · omega
    · exact fun event happens fn order purge => purges_run zero happens purge

end Account

/-! ## A key that is not a number -/

/-- A key of a floating-point type: NaN, which is not equal to itself, or a number. -/
inductive FloatKey where
  | nan
  | number (value : Int)

namespace FloatKey

/-- `==` of floating-point numbers. -/
def beq : FloatKey → FloatKey → Bool
  | number first, number second => first == second
  | _, _ => false

instance : BEq FloatKey := ⟨beq⟩

instance : PartialEquivBEq FloatKey where
  symm {first second} same := by
    cases first with
    | nan => cases same
    | number first =>
        cases second with
        | nan => cases same
        | number second => exact BEq.symm (α := Int) same
  trans {first second third} same other := by
    cases first with
    | nan => cases same
    | number first =>
        cases second with
        | nan => cases same
        | number second =>
            cases third with
            | nan => cases other
            | number third => exact BEq.trans (α := Int) same other

end FloatKey

/-- One entry is stored under NaN and one under a number, and `DeleteFunc` is to take the second. -/
def nanKept : List (Unit × Op FloatKey Nat) :=
  [((), .set .nan 1), ((), .set (.number 2) 3),
    ((), .deleteFunc (fun _ value => value == 3) inPlace)]

theorem conserves_iff_nanKept :
    Conserves nanKept (run Map.newMap (stampFrom 0 nanKept)) (run Map.newMap nanKept) :=
  (conserves_iff nanKept).mpr rfl

/-- An entry is stored under NaN, and `DeleteFunc` is to take everything. -/
def nanPurged : List (Unit × Op FloatKey Nat) :=
  [((), .set .nan 1), ((), .deleteFunc (fun _ _ => true) inPlace)]

/-- One entry was stored, one is counted as deleted, and one is still there. -/
theorem nanPurged_counted_twice :
    setCalls nanPurged = 1 ∧ ((run Map.newMap nanPurged).2.map Event.deletedCount).sum = 1 ∧
      (run Map.newMap nanPurged).1.len = 1 ∧
      ¬ Conserves nanPurged (run Map.newMap (stampFrom 0 nanPurged))
        (run Map.newMap nanPurged) := by
  refine ⟨rfl, rfl, rfl, fun account => ?_⟩
  have counts := account.counts
  revert counts
  decide

end CommonGo.Types
