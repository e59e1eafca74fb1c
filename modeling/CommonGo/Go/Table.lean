import Mathlib.Data.List.Pairwise
import Mathlib.Data.List.Perm.Lattice

/-!
# Maps of Go

What a Go map holds.  Keys are compared with `==`, which is symmetric and transitive; it need not be
reflexive, and NaN is not equal to itself.  An entry under such a key is never found again: it
cannot be looked up, overwritten or deleted, but loops visit it.
-/

namespace Go

variable {κ ν ω : Type} [BEq κ]

/-- The entries of a map, no two of which have equal keys. -/
structure Table (κ ν : Type) [BEq κ] where
  /-- Keys with their values. -/
  entries : List (κ × ν)
  /-- No key is equal to that of another entry. -/
  distinct : entries.Pairwise fun first second => (first.1 == second.1) = false

namespace Table

@[ext] theorem ext {first second : Table κ ν} (same : first.entries = second.entries) :
    first = second := by
  cases first
  cases second
  cases same
  rfl

/-- A new map. -/
def empty : Table κ ν := ⟨[], List.Pairwise.nil⟩

/-- The keys of the entries. -/
def keys (table : Table κ ν) : List κ := table.entries.map Prod.fst

/-- The values of the entries. -/
def values (table : Table κ ν) : List ν := table.entries.map Prod.snd

/-- The value under a key. -/
def lookup (table : Table κ ν) (key : κ) : Option ν :=
  (table.entries.find? fun entry => entry.1 == key).map Prod.snd

/-- The entries that pass a test. -/
def filter (table : Table κ ν) (test : κ × ν → Bool) : Table κ ν :=
  ⟨table.entries.filter test, table.distinct.sublist List.filter_sublist⟩

/-- The map without a key, as `delete` leaves it. -/
def erase (table : Table κ ν) (key : κ) : Table κ ν := table.filter fun entry => !(entry.1 == key)

/-- The map with other values under its keys. -/
def map (table : Table κ ν) (f : ν → ω) : Table κ ω :=
  ⟨table.entries.map fun entry => (entry.1, f entry.2),
    List.pairwise_map.mpr table.distinct⟩

/-- A key that is not found has nothing to erase. -/
theorem erase_of_lookup_eq_none {table : Table κ ν} {key : κ} (missing : table.lookup key = none) :
    table.erase key = table := by
  rw [lookup, Option.map_eq_none_iff, List.find?_eq_none] at missing
  ext1
  refine List.filter_eq_self.mpr fun entry member => ?_
  simpa using missing entry member

/-! ## Loops -/

/-- The order in which a loop visits the entries of a map with these keys, by their places: any one
that visits each of them once. -/
structure Order (κ : Type) where
  /-- The places in the order of the loop. -/
  arrange : List κ → List Nat
  /-- Every place comes once. -/
  perm : ∀ keys, (arrange keys).Perm (List.range keys.length)

/-- The entries in the order of a loop. -/
def visited (table : Table κ ν) (order : Order κ) : List (κ × ν) :=
  (order.arrange table.keys).filterMap (table.entries[·]?)

omit [BEq κ] in
theorem filterMap_range_getElem? (entries : List (κ × ν)) :
    (List.range entries.length).filterMap (entries[·]?) = entries := by
  induction entries with
  | nil => rfl
  | cons entry rest ih =>
      rw [List.length_cons, List.range_succ_eq_map, List.filterMap_cons, List.filterMap_map]
      exact congrArg (List.cons entry) ih

/-- A loop visits every entry once. -/
theorem visited_perm (table : Table κ ν) (order : Order κ) :
    (table.visited order).Perm table.entries := by
  have places := order.perm table.keys
  rw [keys, List.length_map, ← keys] at places
  have all := places.filterMap (table.entries[·]?)
  rwa [filterMap_range_getElem?] at all

/-! ## Other values -/

section Map

variable (table : Table κ ν) (f : ν → ω)

@[simp] theorem keys_map : (table.map f).keys = table.keys := by
  simp [keys, map]

theorem lookup_map (key : κ) : (table.map f).lookup key = (table.lookup key).map f := by
  simp only [lookup, map, List.find?_map, Option.map_map]
  rfl

theorem map_filter (test : κ × ω → Bool) :
    (table.filter fun entry => test (entry.1, f entry.2)).map f = (table.map f).filter test := by
  ext1
  simp only [filter, map, List.filter_map]
  rfl

theorem map_erase (key : κ) : (table.erase key).map f = (table.map f).erase key :=
  table.map_filter f fun entry => !(entry.1 == key)

end Map

/-! ## Keys that equal themselves, and others -/

variable [PartialEquivBEq κ]

/-- The map after an assignment. -/
def insert (table : Table κ ν) (key : κ) (value : ν) : Table κ ν where
  entries := (key, value) :: (table.erase key).entries
  distinct := by
    refine List.pairwise_cons.mpr ⟨fun entry member => ?_, (table.erase key).distinct⟩
    have other := (List.mem_filter.mp member).2
    rw [BEq.comm]
    simpa using other

theorem map_insert (table : Table κ ν) (f : ν → ω) (key : κ) (value : ν) :
    (table.insert key value).map f = (table.map f).insert key (f value) := by
  have erased := congrArg entries (table.map_erase f key)
  ext1
  exact congrArg (List.cons (key, f value)) erased

instance : Std.Symm fun first second : κ × ν => (first.1 == second.1) = false where
  symm first second other := by
    rw [BEq.comm]
    exact other

/-- Entries with equal keys are the same one. -/
theorem eq_of_beq {table : Table κ ν} {first second : κ × ν} (firstIn : first ∈ table.entries)
    (secondIn : second ∈ table.entries) (same : (first.1 == second.1) = true) :
    first = second := by
  by_contra different
  have other := table.distinct.forall firstIn secondIn different
  rw [same] at other
  cases other

/-- Keys that are equal to another one are equal to themselves. -/
theorem beq_self_of_beq {first second : κ} (same : (first == second) = true) :
    (first == first) = true :=
  BEq.trans same (BEq.symm same)

/-- At most one entry has a key, and it is the one that is found. -/
theorem filter_beq (table : Table κ ν) (key : κ) :
    table.entries.filter (fun entry => entry.1 == key) =
      (table.entries.find? fun entry => entry.1 == key).toList := by
  obtain ⟨entries, distinct⟩ := table
  induction entries with
  | nil => rfl
  | cons entry rest ih =>
      obtain ⟨others, distinct⟩ := List.pairwise_cons.mp distinct
      cases here : entry.1 == key with
      | false =>
          rw [List.filter_cons_of_neg (by simp [here]), List.find?_cons_of_neg (by simp [here])]
          exact ih distinct
      | true =>
          have behind : rest.filter (fun entry => entry.1 == key) = [] := by
            refine List.filter_eq_nil_iff.mpr fun other member same => ?_
            have equal := BEq.trans here (BEq.symm same)
            rw [others other member] at equal
            cases equal
          simp [here, behind]

/-- A key takes the value under it away, and no other one. -/
theorem values_perm (table : Table κ ν) (key : κ) :
    ((table.lookup key).toList ++ (table.erase key).values).Perm table.values := by
  have split := List.filter_append_perm (fun entry : κ × ν => entry.1 == key) table.entries
  have found : (table.lookup key).toList =
      (table.entries.filter fun entry => entry.1 == key).map Prod.snd := by
    rw [filter_beq, lookup]
    cases table.entries.find? fun entry => entry.1 == key <;> rfl
  rw [found, values, values, ← List.map_append]
  exact split.map Prod.snd

/-! ## Entries that cannot be deleted -/

/-- The entries under keys that do not equal themselves. -/
def stuck (table : Table κ ν) : List (κ × ν) :=
  table.entries.filter fun entry => !(entry.1 == entry.1)

theorem stuck_erase (table : Table κ ν) (key : κ) : (table.erase key).stuck = table.stuck := by
  rw [stuck, erase, filter, List.filter_filter, stuck]
  refine List.filter_congr fun entry _ => ?_
  cases same : entry.1 == key with
  | false => simp
  | true => simp [beq_self_of_beq same]

/-- An assignment to a key that does not equal itself always makes a new entry. -/
theorem stuck_insert (table : Table κ ν) (key : κ) (value : ν) :
    (table.insert key value).stuck =
      if key == key then table.stuck else (key, value) :: table.stuck := by
  have rest := table.stuck_erase key
  rw [stuck, insert, List.filter_cons, ← stuck, rest]
  cases key == key <;> rfl

end Table

end Go
