import CommonGo.Go.File

/-!
# Several writers of one file

Each writer has a position of its own, starts at the beginning of the file and writes one piece
after the other.  Whatever the order of their writes, every byte of the file is one that some writer
put in its place, or it is behind all of them and as it was.
-/

namespace Go

variable {α ι : Type}

theorem getElem?_overwrite {list : List α} {start : Nat} (inside : start ≤ list.length)
    (new : List α) (index : Nat) :
    (overwrite list start new)[index]? =
      if start ≤ index ∧ index < start + new.length then new[index - start]? else list[index]? := by
  have front : (list.take start).length = start := by
    rw [List.length_take, Nat.min_eq_left inside]
  rw [overwrite]
  by_cases before : index < start
  · rw [if_neg (by omega), List.getElem?_append_left (by omega), List.getElem?_take_of_lt before]
  · rw [List.getElem?_append_right (by omega), front]
    by_cases covered : index < start + new.length
    · rw [if_pos ⟨by omega, covered⟩, List.getElem?_append_left (by omega)]
    · rw [if_neg (by omega), List.getElem?_append_right (by omega), List.getElem?_drop]
      congr 1
      omega

/-- What a file holds after its writers have written these pieces over what was there before. -/
def Blends (writes : ι → Prop) (written : ι → List α) (prior content : List α) : Prop :=
  ∀ index,
    (∃ i, writes i ∧ index < (written i).length ∧ content[index]? = (written i)[index]?) ∨
      (∀ i, writes i → (written i).length ≤ index) ∧ content[index]? = prior[index]?

namespace Blends

variable {writes : ι → Prop} {written : ι → List α} {prior content : List α} {i : ι}

theorem start (prior : List α) : Blends writes (fun _ => []) prior prior :=
  fun _ => Or.inr ⟨fun _ _ => Nat.zero_le _, rfl⟩

variable (blends : Blends writes written prior content)
include blends

/-- No writer is behind the end of the file. -/
theorem length_le (here : writes i) : (written i).length ≤ content.length := by
  by_contra short
  rcases blends content.length with ⟨j, _, longer, same⟩ | ⟨behind, _⟩
  · rw [List.getElem?_eq_none (Nat.le_refl _), eq_comm, List.getElem?_eq_none_iff] at same
    omega
  · have := behind i here
    omega

variable [DecidableEq ι]

/-- A writer goes on where it is. -/
theorem write (here : writes i) (piece : List α) :
    Blends writes (Function.update written i (written i ++ piece)) prior
      (overwrite content (written i).length piece) := by
  have inside := blends.length_le here
  intro index
  rw [getElem?_overwrite inside]
  by_cases now : (written i).length ≤ index ∧ index < (written i).length + piece.length
  · rw [if_pos now]
    refine Or.inl ⟨i, here, ?_, ?_⟩
    · rw [Function.update_self, List.length_append]
      exact now.2
    · rw [Function.update_self, List.getElem?_append_right now.1]
  · rw [if_neg now]
    rcases blends index with ⟨j, there, longer, same⟩ | ⟨behind, same⟩
    · refine Or.inl ⟨j, there, ?_⟩
      by_cases itself : j = i
      · subst itself
        rw [Function.update_self, List.length_append, List.getElem?_append_left longer]
        exact ⟨by omega, same⟩
      · rw [Function.update_of_ne itself]
        exact ⟨longer, same⟩
    · refine Or.inr ⟨fun j there => ?_, same⟩
      by_cases itself : j = i
      · subst itself
        have := behind j there
        rw [Function.update_self, List.length_append]
        omega
      · rw [Function.update_of_ne itself]
        exact behind j there

/-- A writer of another file. -/
theorem elsewhere (away : ¬ writes i) (other : List α) :
    Blends writes (Function.update written i other) prior content := by
  intro index
  have apart : ∀ j, writes j → Function.update written i other j = written j := by
    intro j there
    refine Function.update_of_ne ?_ _ _
    rintro rfl
    exact away there
  rcases blends index with ⟨j, there, longer, same⟩ | ⟨behind, same⟩
  · exact Or.inl ⟨j, there, by rw [apart j there]; exact ⟨longer, same⟩⟩
  · exact Or.inr ⟨fun j there => by rw [apart j there]; exact behind j there, same⟩

omit [DecidableEq ι]

/-- The only writer of a file has its bytes in front of what is left. -/
theorem sole (here : writes i) (only : ∀ j, writes j → j = i) :
    content = written i ++ prior.drop (written i).length := by
  apply List.ext_getElem?
  intro index
  rcases blends index with ⟨j, there, longer, same⟩ | ⟨behind, same⟩
  · obtain rfl := only j there
    rw [same, List.getElem?_append_left longer]
  · have after := behind i here
    rw [same, List.getElem?_append_right after, List.getElem?_drop]
    congr 1
    omega

end Blends

end Go
