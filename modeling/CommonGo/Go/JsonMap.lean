import CommonGo.Go.JsonValues
import Mathlib.Data.List.Dedup

/-!
# Maps of strings in JSON

`encoding/json` writes a map as an object with its keys in order, and reads an object into a map.
A map whose keys are valid UTF-8 comes back with the same keys.
-/

namespace Go.Json

/-- A map of strings, given a list that has all its keys. -/
def ofMap (names : List Bytes) (map : Bytes → Option Bytes) : Json :=
  .object ((names.dedup.mergeSort (· ≤ ·)).filterMap fun name =>
    (map name).map fun text => (name, .string text))

/-- A member of an object; the value of a key that comes again is replaced. -/
def readPair (map : Bytes → Option Bytes) (field : Bytes × Json) : Option (Bytes → Option Bytes) :=
  match field.2 with
  | .string text => some (Function.update map field.1 (some text))
  | .null => some (Function.update map field.1 (some []))
  | _ => none

/-- What a value is as a `map[string]string`. -/
def map? : Json → Option (Bytes → Option Bytes)
  | object fields => fields.foldlM readPair fun _ => none
  | null => some fun _ => none
  | _ => none

variable {names : List Bytes} {map : Bytes → Option Bytes}

/-- Members that agree with a map are read as that map on their keys. -/
theorem foldlM_readPair (keys : List Bytes) (start : Bytes → Option Bytes) :
    (keys.filterMap fun name => (map name).map fun text => (name, Json.string text)).foldlM
        readPair start =
      some fun name => if name ∈ keys then (map name).or (start name) else start name := by
  induction keys generalizing start with
  | nil => simp
  | cons key keys ih =>
      cases found : map key with
      | none =>
          rw [List.filterMap_cons_none (by rw [found]; rfl), ih]
          congr 1
          funext name
          by_cases same : name = key
          · subst same
            simp [found]
          · simp [same]
      | some text =>
          rw [List.filterMap_cons_some (by rw [found]; rfl), List.foldlM_cons]
          simp only [readPair, Option.bind_eq_bind, Option.bind_some, ih]
          congr 1
          funext name
          by_cases same : name = key
          · subst same
            simp [found]
          · simp [same]

theorem arrived_ofMap (valid : ∀ name ∈ names, validString name = true) :
    (ofMap names map).arrived = ofMap names fun name => (map name).map jsonString := by
  rw [ofMap, arrived, ofMap, List.map_filterMap]
  congr 1
  refine List.filterMap_congr fun name member => ?_
  have key := jsonString_eq_self (valid name (List.mem_dedup.mp (List.mem_mergeSort.mp member)))
  cases map name <;> simp [key, arrived]

theorem fits_ofMap (levels : Nat) : (ofMap names map).Fits (levels + 1) := by
  rw [ofMap, Fits]
  intro field member
  obtain ⟨name, _, is⟩ := List.mem_filterMap.mp member
  obtain ⟨text, _, rfl⟩ := Option.map_eq_some_iff.mp is
  cases levels <;> trivial

/-- A map is read as it was written, if the list has all its keys. -/
theorem map?_ofMap (all : ∀ name, (map name).isSome → name ∈ names) :
    (ofMap names map).map? = some map := by
  rw [ofMap, map?, foldlM_readPair]
  congr 1
  funext name
  cases found : map name with
  | none => simp
  | some text =>
      have member : name ∈ names := all name (by rw [found]; rfl)
      simp [member]

end Go.Json
