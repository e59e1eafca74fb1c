import Mathlib.Data.List.Basic

/-!
# Recency

Things are used one after another, and the uses are listed newest first.  Something was used more
recently than another thing when its latest use stands nearer to the front.  A list kept in that
order stays so when what is used is brought to the front and when anything is taken out.
-/

namespace CommonGo.Program

variable {α : Type} [DecidableEq α]

/-- In a list of uses, newest first, `x` was used more recently than `y`. -/
def MoreRecent (uses : List α) (x y : α) : Prop := uses.idxOf x < uses.idxOf y

theorem moreRecent_cons_self (uses : List α) {x y : α} (other : y ≠ x) :
    MoreRecent (x :: uses) x y := by
  rw [MoreRecent, List.idxOf_cons_self, List.idxOf_cons_ne uses (Ne.symm other)]
  exact Nat.succ_pos _

theorem MoreRecent.cons {uses : List α} {x y used : α} (recent : MoreRecent uses x y)
    (left : x ≠ used) (right : y ≠ used) : MoreRecent (used :: uses) x y := by
  rw [MoreRecent, List.idxOf_cons_ne uses (Ne.symm left),
    List.idxOf_cons_ne uses (Ne.symm right)]
  exact Nat.succ_lt_succ recent

/-- What is used goes to the front. -/
theorem pairwise_moreRecent_cons {uses list : List α} {used : α}
    (recent : list.Pairwise (MoreRecent uses)) (fresh : used ∉ list) :
    (used :: list).Pairwise (MoreRecent (used :: uses)) := by
  have other : ∀ x ∈ list, x ≠ used := fun x member equal => fresh (equal ▸ member)
  refine List.pairwise_cons.mpr ⟨fun x member => moreRecent_cons_self uses (other x member), ?_⟩
  exact recent.imp_of_mem fun left right earlier =>
    earlier.cons (other _ left) (other _ right)

/-- Everything else was used more recently than the last. -/
theorem moreRecent_last {uses front : List α} {last x : α}
    (recent : (front ++ [last]).Pairwise (MoreRecent uses)) (member : x ∈ front ++ [last])
    (other : x ≠ last) : MoreRecent uses x last := by
  rw [List.mem_append, List.mem_singleton] at member
  have inFront := member.resolve_right other
  exact (List.pairwise_append.mp recent).2.2 x inFront last (List.mem_singleton_self last)

end CommonGo.Program
