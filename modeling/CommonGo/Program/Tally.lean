import Mathlib.Algebra.BigOperators.Group.Finset.Basic
import Mathlib.Algebra.Order.BigOperators.Group.Finset

/-!
# Tallies over the parties of a system

Each party of a system is in a phase, and a phase has a weight: a permit held, an error reported, a
number of steps left.  What the parties share is the sum of these weights, and a party that moves
changes the sum by its own weight alone.
-/

namespace CommonGo.Program

variable {ι Φ M : Type} [Fintype ι]

/-- The weights of all parties together. -/
def tally [AddCommMonoid M] (weight : ι → Φ → M) (phase : ι → Φ) : M :=
  ∑ i, weight i (phase i)

theorem tally_update [AddCommMonoid M] [DecidableEq ι] (weight : ι → Φ → M) (phase : ι → Φ)
    (i : ι) (after : Φ) :
    tally weight (Function.update phase i after) + weight i (phase i) =
      tally weight phase + weight i after := by
  have others : ∑ j ∈ Finset.univ.erase i, weight j (Function.update phase i after j) =
      ∑ j ∈ Finset.univ.erase i, weight j (phase j) := by
    apply Finset.sum_congr rfl
    intro j member
    rw [Function.update_of_ne (Finset.ne_of_mem_erase member)]
  have updated := Finset.add_sum_erase Finset.univ
    (fun j => weight j (Function.update phase i after j)) (Finset.mem_univ i)
  have original := Finset.add_sum_erase Finset.univ
    (fun j => weight j (phase j)) (Finset.mem_univ i)
  rw [tally, tally, ← updated, ← original, others, Function.update_self]
  ac_rfl

theorem tally_le_tally {weight other : ι → Φ → Nat} {phase : ι → Φ}
    (below : ∀ i, weight i (phase i) ≤ other i (phase i)) :
    tally weight phase ≤ tally other phase :=
  Finset.sum_le_sum fun i _ => below i

theorem tally_eq_zero_iff {weight : ι → Φ → Nat} {phase : ι → Φ} :
    tally weight phase = 0 ↔ ∀ i, weight i (phase i) = 0 := by
  simp [tally]

theorem le_tally (weight : ι → Φ → Nat) (phase : ι → Φ) (i : ι) :
    weight i (phase i) ≤ tally weight phase :=
  Finset.single_le_sum (f := fun j => weight j (phase j)) (fun _ _ => Nat.zero_le _)
    (Finset.mem_univ i)

theorem tally_le_card {weight : ι → Φ → Nat} {phase : ι → Φ}
    (small : ∀ i, weight i (phase i) ≤ 1) : tally weight phase ≤ Fintype.card ι := by
  have below : tally weight phase ≤ ∑ _j : ι, 1 := Finset.sum_le_sum fun j _ => small j
  simpa using below

/-- Weights of one at most add up to less than the number of parties if a party has none. -/
theorem tally_lt_card {weight : ι → Φ → Nat} {phase : ι → Φ}
    (small : ∀ i, weight i (phase i) ≤ 1) {i : ι} (none : weight i (phase i) = 0) :
    tally weight phase < Fintype.card ι := by
  have below : tally weight phase < ∑ _j : ι, 1 :=
    Finset.sum_lt_sum (fun j _ => small j) ⟨i, Finset.mem_univ i, by omega⟩
  simpa using below

end CommonGo.Program
