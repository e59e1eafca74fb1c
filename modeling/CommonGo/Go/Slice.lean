import Mathlib.Data.List.Infix
import Mathlib.Logic.Function.Basic

/-!
# Slices of Go

A slice is a window on a backing array: which array, how many elements, how many there is room for.
`append` writes behind the window where there is room, and else moves to a new array.  So a slice
can change what another one reads, and this file says exactly when.
-/

namespace Go

variable {α : Type}

/-! ## Overwriting a list -/

/-- A list with some of its elements, or some past its end, replaced. -/
def overwrite (list : List α) (start : Nat) (new : List α) : List α :=
  list.take start ++ (new ++ list.drop (start + new.length))

theorem length_overwrite {list : List α} {start : Nat} (inside : start ≤ list.length)
    (new : List α) :
    (overwrite list start new).length = max list.length (start + new.length) := by
  simp only [overwrite, List.length_append, List.length_take, List.length_drop]
  omega

theorem take_overwrite {list : List α} {start : Nat} (inside : start ≤ list.length)
    (new : List α) :
    (overwrite list start new).take (start + new.length) = list.take start ++ new := by
  have front : (list.take start ++ new).length = start + new.length := by
    rw [List.length_append, List.length_take, Nat.min_eq_left inside]
  rw [overwrite, ← List.append_assoc, ← front, List.take_left]

/-- New elements leave the first ones of a list as they are exactly when they agree with those
that they replace. -/
theorem take_append_drop_iff {list : List α} {count : Nat} (inside : count ≤ list.length)
    (new : List α) :
    (new ++ list.drop new.length).take count = list.take count ↔
      (list.take count).take new.length <+: new := by
  rcases Nat.le_total count new.length with short | long
  · rw [List.take_append_of_le_length short, List.take_take, Nat.min_eq_right short,
      List.prefix_iff_eq_take, List.length_take, Nat.min_eq_left inside]
    exact eq_comm
  · have replaced : (list.take new.length).length = new.length := by
      rw [List.length_take]
      omega
    have split : list.take count =
        list.take new.length ++ (list.drop new.length).take (count - new.length) := by
      rw [← List.take_add, Nat.add_sub_of_le long]
    have same : (new ++ list.drop new.length).take count = list.take count ↔
        new = list.take new.length := by
      rw [split, List.take_append, List.take_of_length_le long, List.append_cancel_right_eq]
    rw [same, List.take_take, Nat.min_eq_left long]
    constructor
    · intro equal
      rw [← equal]
    · intro initial
      exact (initial.eq_of_length replaced).symm

/-- What a write keeps of the first elements of a list. -/
theorem take_overwrite_iff {list : List α} {start count : Nat} (inside : start ≤ list.length)
    (read : count ≤ list.length) (new : List α) :
    (overwrite list start new).take count = list.take count ↔
      ((list.take count).drop start).take new.length <+: new := by
  have front : (list.take start).length = start := by rw [List.length_take, Nat.min_eq_left inside]
  have rest : list.drop (start + new.length) = (list.drop start).drop new.length := by
    rw [List.drop_drop]
  rcases Nat.le_total count start with before | behind
  · have untouched : (overwrite list start new).take count = list.take count := by
      rw [overwrite, List.take_append_of_le_length (by omega), List.take_take,
        Nat.min_eq_left before]
    have nothing : (list.take count).drop start = [] := by
      rw [List.drop_eq_nil_iff, List.length_take]
      omega
    simp [untouched, nothing]
  · have window : (list.take count).drop start = (list.drop start).take (count - start) := by
      rw [List.drop_take]
    have split : list.take count = list.take start ++ (list.drop start).take (count - start) := by
      rw [← List.take_add, Nat.add_sub_of_le behind]
    have room : count - start ≤ (list.drop start).length := by
      rw [List.length_drop]
      omega
    have written : (overwrite list start new).take count =
        list.take start ++ (new ++ (list.drop start).drop new.length).take (count - start) := by
      rw [overwrite, rest, List.take_append, front, List.take_of_length_le (by omega)]
    rw [window, ← take_append_drop_iff room new, written, split, List.append_cancel_left_eq]

/-! ## Slices -/

/-- A slice header. -/
structure Slice where
  /-- The address of the backing array. -/
  array : Nat
  /-- How many elements the slice shows. -/
  length : Nat
  /-- How many elements the array has room for. -/
  capacity : Nat
  deriving DecidableEq, Repr

/-- The nil slice. -/
def Slice.nil : Slice := ⟨0, 0, 0⟩

/-- The backing arrays, each with what has been written in it. -/
structure Heap (α : Type) where
  /-- What has been written in the array at an address. -/
  arrays : Nat → List α
  /-- The address of the next array. -/
  allocated : Nat

/-- No array but the empty one of the nil slice. -/
def Heap.empty : Heap α := ⟨fun _ => [], 1⟩

/-- How `append` chooses the capacity of a new array. -/
structure Growth where
  /-- The new capacity, from the old one and the length that is needed. -/
  grow : Nat → Nat → Nat
  /-- There is room for that length. -/
  fits : ∀ capacity needed, needed ≤ grow capacity needed

/-- Twice the old capacity, or what is needed if that is more. -/
def Growth.least : Growth where
  grow capacity needed := max needed (2 * capacity)
  fits _ _ := Nat.le_max_left _ _

namespace Heap

/-- What a slice shows. -/
def read (heap : Heap α) (slice : Slice) : List α := (heap.arrays slice.array).take slice.length

/-- Some elements of an array are replaced. -/
def write (heap : Heap α) (array start : Nat) (new : List α) : Heap α where
  arrays := Function.update heap.arrays array (overwrite (heap.arrays array) start new)
  allocated := heap.allocated

/-- A new array. -/
def allocate (heap : Heap α) (elements : List α) : Heap α where
  arrays := Function.update heap.arrays heap.allocated elements
  allocated := heap.allocated + 1

end Heap

namespace Slice

/-- There is room for some more elements. -/
def Room (slice : Slice) (new : List α) : Prop := slice.length + new.length ≤ slice.capacity

instance (slice : Slice) (new : List α) : Decidable (slice.Room new) :=
  inferInstanceAs (Decidable (_ ≤ _))

/-- `append`. -/
def append (growth : Growth) (heap : Heap α) (slice : Slice) (new : List α) : Heap α × Slice :=
  if slice.Room new then
    (heap.write slice.array slice.length new,
      ⟨slice.array, slice.length + new.length, slice.capacity⟩)
  else
    (heap.allocate (heap.read slice ++ new),
      ⟨heap.allocated, slice.length + new.length,
        growth.grow slice.capacity (slice.length + new.length)⟩)

/-- The slice is one of an allocated array, and its elements have been written. -/
structure Valid (heap : Heap α) (slice : Slice) : Prop where
  /-- The array is allocated. -/
  array_lt : slice.array < heap.allocated
  /-- The elements of the slice have been written. -/
  written : slice.length ≤ (heap.arrays slice.array).length

variable {growth : Growth} {heap : Heap α} {slice other : Slice} {new : List α}

theorem valid_nil : Valid (Heap.empty : Heap α) nil := ⟨Nat.one_pos, Nat.le_refl 0⟩

@[simp] theorem read_nil : (Heap.empty : Heap α).read nil = [] := rfl

theorem Valid.length_read (valid : Valid heap slice) : (heap.read slice).length = slice.length := by
  rw [Heap.read, List.length_take, Nat.min_eq_left valid.written]

theorem append_of_room (room : slice.Room new) :
    slice.append growth heap new = (heap.write slice.array slice.length new,
      ⟨slice.array, slice.length + new.length, slice.capacity⟩) :=
  if_pos room

theorem append_of_full (full : ¬ slice.Room new) :
    slice.append growth heap new = (heap.allocate (heap.read slice ++ new),
      ⟨heap.allocated, slice.length + new.length,
        growth.grow slice.capacity (slice.length + new.length)⟩) :=
  if_neg full

/-- The slice that `append` returns is valid. -/
theorem Valid.appended (valid : Valid heap slice) (growth : Growth) (new : List α) :
    Valid (slice.append growth heap new).1 (slice.append growth heap new).2 := by
  by_cases room : slice.Room new
  · rw [append_of_room room]
    refine ⟨valid.array_lt, ?_⟩
    simp only [Heap.write, Function.update_self, length_overwrite valid.written]
    exact Nat.le_max_right _ _
  · rw [append_of_full room]
    refine ⟨Nat.lt_succ_self _, ?_⟩
    simp only [Heap.allocate, Function.update_self, List.length_append, valid.length_read]
    exact Nat.le_refl _

/-- A slice stays valid when another one, or it itself, is appended to. -/
theorem Valid.kept (valid : Valid heap slice) (stays : Valid heap other) (growth : Growth)
    (new : List α) : Valid (slice.append growth heap new).1 other := by
  by_cases room : slice.Room new
  · rw [append_of_room room]
    refine ⟨stays.array_lt, ?_⟩
    by_cases shared : other.array = slice.array
    · have written := stays.written
      rw [shared] at written
      simp only [Heap.write, shared, Function.update_self, length_overwrite valid.written]
      exact Nat.le_trans written (Nat.le_max_left _ _)
    · simp only [Heap.write, Function.update_of_ne shared]
      exact stays.written
  · rw [append_of_full room]
    refine ⟨Nat.lt_succ_of_lt stays.array_lt, ?_⟩
    simp only [Heap.allocate, Function.update_of_ne (Nat.ne_of_lt stays.array_lt)]
    exact stays.written

/-- The slice that `append` returns shows the old elements and the new ones. -/
theorem Valid.read_appended (valid : Valid heap slice) (growth : Growth) (new : List α) :
    (slice.append growth heap new).1.read (slice.append growth heap new).2 =
      heap.read slice ++ new := by
  by_cases room : slice.Room new
  · rw [append_of_room room]
    simp only [Heap.read, Heap.write, Function.update_self, take_overwrite valid.written]
  · rw [append_of_full room]
    have whole : (heap.read slice ++ new).length = slice.length + new.length := by
      rw [List.length_append, valid.length_read]
    simp only [Heap.read, Heap.allocate, Function.update_self]
    rw [← Heap.read, List.take_of_length_le (Nat.le_of_eq whole)]

/-- An append leaves another slice alone: it moves to a new array, or the other slice is of
another array, or it shows the new elements in their places already. -/
def Spares (heap : Heap α) (slice : Slice) (new : List α) (other : Slice) : Prop :=
  slice.Room new → other.array = slice.array →
    ((heap.read other).drop slice.length).take new.length <+: new

instance [DecidableEq α] : Decidable (Spares heap slice new other) :=
  inferInstanceAs (Decidable (_ → _ → _))

/-- What another slice shows changes exactly when it is not spared. -/
theorem Valid.read_append_iff (valid : Valid heap slice) (stays : Valid heap other) :
    (slice.append growth heap new).1.read other = heap.read other ↔
      Spares heap slice new other := by
  by_cases room : slice.Room new
  · rw [append_of_room room]
    by_cases shared : other.array = slice.array
    · have read := stays.written
      rw [shared] at read
      have same := take_overwrite_iff valid.written read new
      simp only [Spares, Heap.read, Heap.write, shared, Function.update_self, room, forall_const]
      exact same
    · simp [Spares, Heap.read, Heap.write, shared]
  · rw [append_of_full room]
    simp [Spares, Heap.read, Heap.allocate, Nat.ne_of_lt stays.array_lt, room]

end Slice

end Go
