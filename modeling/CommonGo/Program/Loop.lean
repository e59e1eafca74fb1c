import Mathlib.Data.List.Basic

/-!
# Loops and checked access

A loop is a body that is run turn after turn until it gives a result.  It is run for a number of
turns, and to use them up is a fault in the same way as to read outside of a list.  A program
without faults therefore ends, and reads what is there.
-/

namespace CommonGo.Program

/-- What stops a program. -/
inductive Fault where
  /-- An index or a slice that is not inside of its list. -/
  | outOfRange
  /-- A loop that has used up its turns. -/
  | unending
  deriving DecidableEq, Repr

variable {α σ ρ : Type}

/-! ## Access -/

/-- The element at an index. -/
def elementAt (list : List α) (i : Nat) : Except Fault α :=
  (list[i]?).elim (.error .outOfRange) .ok

/-- The elements from `start` on. -/
def sliceFrom (list : List α) (start : Nat) : Except Fault (List α) :=
  if start ≤ list.length then .ok (list.drop start) else .error .outOfRange

/-- The elements from `start` on up to `stop`. -/
def slice (list : List α) (start stop : Nat) : Except Fault (List α) :=
  if start ≤ stop ∧ stop ≤ list.length then .ok ((list.drop start).take (stop - start))
  else .error .outOfRange

variable {list : List α} {i start stop : Nat}

theorem elementAt_eq_ok (inside : i < list.length) :
    ∃ element, elementAt list i = .ok element ∧ list[i]? = some element := by
  refine ⟨list[i], ?_, List.getElem?_eq_getElem inside⟩
  rw [elementAt, List.getElem?_eq_getElem inside]
  rfl

theorem sliceFrom_eq_ok (inside : start ≤ list.length) :
    sliceFrom list start = .ok (list.drop start) :=
  if_pos inside

theorem slice_eq_ok (ordered : start ≤ stop) (inside : stop ≤ list.length) :
    slice list start stop = .ok ((list.drop start).take (stop - start)) :=
  if_pos ⟨ordered, inside⟩

/-! ## Loops -/

/-- What a turn of a loop comes to. -/
inductive Turn (σ ρ : Type) where
  | next (state : σ)
  | done (result : ρ)
  deriving DecidableEq, Repr

/-- A loop, for as many turns as it is given. -/
def loop (body : σ → Except Fault (Turn σ ρ)) : Nat → σ → Except Fault ρ
  | 0, _ => .error .unending
  | turns + 1, state =>
      match body state with
      | .error fault => .error fault
      | .ok (.next next) => loop body turns next
      | .ok (.done result) => .ok result

/-- What a turn is to do for a loop to return.  It gives a result, or it keeps the invariant and
makes the measure smaller.  What is to hold of the result is carried from the state after the turn
to the one before it. -/
def Progress (inv : σ → Prop) (measure : σ → Nat) (post : σ → ρ → Prop) (state : σ)
    (turn : Except Fault (Turn σ ρ)) : Prop :=
  (∃ result, turn = .ok (.done result) ∧ post state result) ∨
    ∃ next, turn = .ok (.next next) ∧ inv next ∧ measure next < measure state ∧
      ∀ result, post next result → post state result

section Progress

variable {inv : σ → Prop} {measure : σ → Nat} {post : σ → ρ → Prop} {state : σ}

theorem Progress.done {result : ρ} (good : post state result) :
    Progress inv measure post state (.ok (.done result)) :=
  Or.inl ⟨result, rfl, good⟩

theorem Progress.next {next : σ} (kept : inv next) (less : measure next < measure state)
    (back : ∀ result, post next result → post state result) :
    Progress inv measure post state (.ok (.next next)) :=
  Or.inr ⟨next, rfl, kept, less, back⟩

end Progress

/-- A loop all of whose turns make progress returns. -/
theorem loop_returns {body : σ → Except Fault (Turn σ ρ)} {state : σ} {turns : Nat}
    (inv : σ → Prop) (measure : σ → Nat) (post : σ → ρ → Prop)
    (turn : ∀ state, inv state → Progress inv measure post state (body state))
    (holds : inv state) (enough : measure state < turns) :
    ∃ result, loop body turns state = .ok result ∧ post state result := by
  induction turns generalizing state with
  | zero => exact absurd enough (Nat.not_lt_zero _)
  | succ turns ih =>
      rcases turn state holds with ⟨result, stepped, good⟩ | ⟨next, stepped, kept, less, back⟩
      · exact ⟨result, by rw [loop, stepped], good⟩
      · obtain ⟨result, returned, good⟩ := ih kept (by omega)
        exact ⟨result, by rw [loop, stepped]; exact returned, back result good⟩

end CommonGo.Program
