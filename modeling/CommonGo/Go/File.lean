import CommonGo.Go.Slice
import CommonGo.Go.Utf8

/-!
# Files of Go

A file that is open for writing is its content and the position of the next write.  `io.Copy` writes
what it reads, chunk by chunk, until the end of the reader or the first error.
-/

namespace Go

theorem overwrite_overwrite {α : Type} {list : List α} {start : Nat} (inside : start ≤ list.length)
    (new more : List α) :
    overwrite (overwrite list start new) (start + new.length) more =
      overwrite list start (new ++ more) := by
  have front : (list.take start ++ new).length = start + new.length := by
    rw [List.length_append, List.length_take, Nat.min_eq_left inside]
  have behind : (overwrite list start new).drop (start + new.length + more.length) =
      list.drop (start + new.length + more.length) := by
    rw [overwrite, ← List.append_assoc, ← front, List.drop_append, List.drop_drop]
    simp
  rw [overwrite, take_overwrite inside, behind, overwrite, List.length_append, ← Nat.add_assoc]
  simp only [List.append_assoc]

namespace File

variable {ε : Type}

/-! ## Opening and writing -/

/-- Flags of `os.OpenFile` that say what is in a file that is opened for writing. -/
structure Flags where
  /-- `os.O_CREATE`. -/
  create : Bool
  /-- `os.O_TRUNC`. -/
  truncate : Bool
  deriving DecidableEq, Repr

/-- The content with which `os.OpenFile` opens a file that has this content, or is absent. -/
def opened (flags : Flags) : Option Bytes → Option Bytes
  | some content => some (if flags.truncate then [] else content)
  | none => if flags.create then some [] else none

/-- A file that is open for writing; no write starts behind its end. -/
structure Descriptor where
  /-- The bytes of the file. -/
  content : Bytes
  /-- Where the next write starts. -/
  offset : Nat
  /-- It starts within the file or at its end. -/
  inside : offset ≤ content.length

/-- A descriptor is at the start of its file first. -/
def Descriptor.start (content : Bytes) : Descriptor := ⟨content, 0, Nat.zero_le _⟩

/-- Bytes that reach the file. -/
def Descriptor.put (file : Descriptor) (data : Bytes) : Descriptor where
  content := overwrite file.content file.offset data
  offset := file.offset + data.length
  inside := by
    rw [length_overwrite file.inside]
    exact le_max_right _ _

/-- `File.Write`: all of the bytes are written, or some of them and there is an error. -/
def Descriptor.write (file : Descriptor) (data : Bytes) (fault : Option (Nat × ε)) :
    Descriptor × Option ε :=
  match fault with
  | none => (file.put data, none)
  | some (count, err) => (file.put (data.take count), some err)

@[simp] theorem Descriptor.put_nil (file : Descriptor) : file.put [] = file := by
  obtain ⟨content, offset, inside⟩ := file
  simp [put, overwrite]

theorem Descriptor.put_put (file : Descriptor) (data more : Bytes) :
    (file.put data).put more = file.put (data ++ more) := by
  simp only [put, overwrite_overwrite file.inside, List.length_append, Nat.add_assoc]

/-- A write puts a first part of its bytes in the file, and without an error all of them. -/
theorem Descriptor.write_spec (file : Descriptor) (data : Bytes) (fault : Option (Nat × ε)) :
    ∃ written, written <+: data ∧ (file.write data fault).1 = file.put written ∧
      ((file.write data fault).2 = none → written = data) := by
  cases fault with
  | none => exact ⟨data, List.prefix_refl _, rfl, fun _ => rfl⟩
  | some fault => exact ⟨data.take fault.1, List.take_prefix _ _, rfl, by simp [write]⟩

/-! ## Copying -/

/-- How a reader ends. -/
inductive Ending (ε : Type) where
  | eof
  | failed (err : ε)
  deriving DecidableEq, Repr

/-- What a reader delivers: chunks, of which any may be empty, and with the last one its end. -/
structure Reads (ε : Type) where
  /-- What the reads before the last one return. -/
  chunks : List Bytes
  /-- What comes together with the end. -/
  last : Bytes
  /-- How the reader ends. -/
  ending : Ending ε

/-- All that a reader delivers. -/
def Reads.content (reads : Reads ε) : Bytes := reads.chunks.flatten ++ reads.last

/-- The error that `io.Copy` returns for the end of a reader. -/
def Ending.err : Ending ε → Option ε
  | .eof => none
  | .failed err => some err

section Copy

variable (faults : Nat → Option (Nat × ε))

/-- The loop of `io.Copy`, with the number of writes made so far: an empty chunk is not written, and
the first error ends the loop. -/
def copyChunks : List Bytes → Nat → Descriptor → Descriptor × Option ε
  | [], _, file => (file, none)
  | chunk :: chunks, writes, file =>
      if chunk.length > 0 then
        match file.write chunk (faults writes) with
        | (file, some err) => (file, some err)
        | (file, none) => copyChunks chunks (writes + 1) file
      else copyChunks chunks writes file

/-- `io.Copy`. -/
def copy (file : Descriptor) (reads : Reads ε) : Descriptor × Option ε :=
  match copyChunks faults (reads.chunks ++ [reads.last]) 0 file with
  | (file, some err) => (file, some err)
  | (file, none) => (file, reads.ending.err)

/-- The error of copying does not depend on what the file holds. -/
theorem copyChunks_err (chunks : List Bytes) (writes : Nat) (file other : Descriptor) :
    (copyChunks faults chunks writes file).2 = (copyChunks faults chunks writes other).2 := by
  induction chunks generalizing writes file other with
  | nil => rfl
  | cons chunk chunks ih =>
      rw [copyChunks, copyChunks]
      split_ifs
      · cases faults writes with
        | some fault => rfl
        | none => exact ih (writes + 1) (file.put chunk) (other.put chunk)
      · exact ih writes file other

/-- The chunks are put in the file one after the other, and without an error all of them. -/
theorem copyChunks_spec (chunks : List Bytes) (writes : Nat) (file : Descriptor) :
    ∃ written, written <+: chunks.flatten ∧
      (copyChunks faults chunks writes file).1 = file.put written ∧
      ((copyChunks faults chunks writes file).2 = none → written = chunks.flatten) := by
  induction chunks generalizing writes file with
  | nil => exact ⟨[], List.nil_prefix, by simp [copyChunks], fun _ => rfl⟩
  | cons chunk chunks ih =>
      rw [copyChunks]
      split_ifs with something
      · obtain ⟨written, initial, after, whole⟩ := file.write_spec chunk (faults writes)
        cases outcome : file.write chunk (faults writes) with
        | mk next err =>
            rw [outcome] at after whole
            cases err with
            | some err =>
                exact ⟨written, initial.trans (List.prefix_append _ _), after, by simp⟩
            | none =>
                obtain ⟨more, later, last, all⟩ := ih (writes + 1) next
                obtain rfl := whole rfl
                refine ⟨written ++ more, ?_, ?_, fun returned => ?_⟩
                · exact (List.prefix_append_right_inj written).mpr later
                · rw [← Descriptor.put_put, ← after]
                  exact last
                · rw [all returned, List.flatten_cons]
      · obtain rfl : chunk = [] := List.length_eq_zero_iff.mp (by omega)
        exact ih writes file

/-- `io.Copy` puts a first part of what it reads in the file, and without an error all of it. -/
theorem copy_spec (file : Descriptor) (reads : Reads ε) :
    ∃ written, written <+: reads.content ∧ (copy faults file reads).1 = file.put written ∧
      ((copy faults file reads).2 = none → written = reads.content ∧ reads.ending = .eof) := by
  obtain ⟨written, initial, after, whole⟩ :=
    copyChunks_spec faults (reads.chunks ++ [reads.last]) 0 file
  have content : (reads.chunks ++ [reads.last]).flatten = reads.content := by
    simp [Reads.content]
  rw [content] at initial whole
  refine ⟨written, initial, ?_⟩
  rw [copy]
  cases outcome : copyChunks faults (reads.chunks ++ [reads.last]) 0 file with
  | mk last err =>
      rw [outcome] at after whole
      cases err with
      | some err => exact ⟨after, by simp⟩
      | none =>
          refine ⟨after, fun returned => ⟨whole rfl, ?_⟩⟩
          cases ended : reads.ending with
          | eof => rfl
          | failed err => simp [ended, Ending.err] at returned

end Copy

/-- What is left behind new bytes at the start of a file. -/
theorem Descriptor.content_put_start (content data : Bytes) :
    ((Descriptor.start content).put data).content = data ++ content.drop data.length := by
  simp [put, start, overwrite]

end File

end Go
