import CommonGo.Go.Utf8
import Mathlib.Data.Nat.Digits.Lemmas

/-!
# Integers and their digits

An `int` has 64 bits, and the result of an operation wraps around.  `strconv` writes an integer in
base ten and reads it back.
-/

namespace Go

/-! ## Integers of 64 bits -/

/-- An `int` of 64 bits. -/
def IsInt64 (n : Int) : Prop := -2 ^ 63 ≤ n ∧ n < 2 ^ 63

/-- The value that an `int` of 64 bits takes for the result of an operation. -/
def wrapInt (n : Int) : Int := n.bmod (2 ^ 64)

theorem wrapInt_of_isInt64 {n : Int} (fits : IsInt64 n) : wrapInt n = n := by
  obtain ⟨low, high⟩ := fits
  exact Int.bmod_eq_of_le (by omega) (by omega)

/-! ## Digits -/

/-- The digits of a natural number, as `strconv` and `%d` write them. -/
def formatNat (n : Nat) : Bytes :=
  if n = 0 then [0x30] else ((Nat.digits 10 n).map fun d => UInt8.ofNat (0x30 + d)).reverse

/-- The digits of an integer behind its sign. -/
def formatInt (n : Int) : Bytes := if n < 0 then 0x2D :: formatNat n.natAbs else formatNat n.natAbs

/-- An ASCII digit. -/
def isDecimal (b : UInt8) : Bool := 0x30 ≤ b.toNat && b.toNat ≤ 0x39

/-- The number that digits stand for. -/
def ofDecimal (s : Bytes) : Nat := s.foldl (fun n b => n * 10 + (b.toNat - 0x30)) 0

/-- `strconv.ParseInt` of a JSON number, in base ten and with 64 bits. -/
def parseInt : Bytes → Option Int
  | [] => none
  | b :: rest =>
      if b = 0x2D then
        if rest.all isDecimal ∧ ofDecimal rest ≤ 2 ^ 63 then some (-ofDecimal rest) else none
      else if (b :: rest).all isDecimal ∧ ofDecimal (b :: rest) < 2 ^ 63 then
        some (ofDecimal (b :: rest))
      else none

/-- The byte of a digit. -/
theorem digit_spec : ∀ d < 10, isDecimal (UInt8.ofNat (0x30 + d)) = true ∧
    (UInt8.ofNat (0x30 + d)).toNat - 0x30 = d ∧ (UInt8.ofNat (0x30 + d) = 0x30 → d = 0) := by
  decide

theorem all_isDecimal_formatNat (n : Nat) : (formatNat n).all isDecimal = true := by
  rw [formatNat]
  split
  · rfl
  · rw [List.all_eq_true]
    intro b member
    obtain ⟨d, digit, rfl⟩ := List.mem_map.mp (List.mem_reverse.mp member)
    exact (digit_spec d (Nat.digits_lt_base (by decide) digit)).1

theorem ofDecimal_formatNat (n : Nat) : ofDecimal (formatNat n) = n := by
  rw [formatNat]
  split
  · next zero => rw [zero]; rfl
  · have sum : ∀ ds : List Nat, (∀ d ∈ ds, d < 10) →
        ofDecimal (ds.map fun d => UInt8.ofNat (0x30 + d)).reverse = Nat.ofDigits 10 ds := by
      intro ds small
      rw [ofDecimal, List.foldl_reverse, List.foldr_map]
      induction ds with
      | nil => rfl
      | cons d ds ih =>
          rw [List.foldr_cons, ih fun e member => small e (List.mem_cons_of_mem d member),
            (digit_spec d (small d List.mem_cons_self)).2.1, Nat.ofDigits_cons]
          ring
    rw [sum _ fun d digit => Nat.digits_lt_base (by decide) digit, Nat.ofDigits_digits]

/-- The digits of a number start with zero only for zero. -/
theorem formatNat_cons (n : Nat) :
    ∃ first rest, formatNat n = first :: rest ∧ (first = 0x30 → rest = []) := by
  rw [formatNat]
  split
  · exact ⟨0x30, [], rfl, fun _ => rfl⟩
  · next positive =>
      have nonempty : Nat.digits 10 n ≠ [] := Nat.digits_ne_nil_iff_ne_zero.mpr positive
      have last := Nat.getLast_digit_ne_zero 10 positive
      have split := List.dropLast_append_getLast nonempty
      refine ⟨_, _, by rw [← split, List.map_append, List.reverse_append]; rfl, ?_⟩
      intro zero
      have bound := Nat.digits_lt_base (b := 10) (by decide) (List.getLast_mem nonempty)
      exact absurd ((digit_spec _ bound).2.2 zero) last

theorem parseInt_formatInt {n : Int} (fits : IsInt64 n) : parseInt (formatInt n) = some n := by
  have all := all_isDecimal_formatNat n.natAbs
  have value := ofDecimal_formatNat n.natAbs
  obtain ⟨low, high⟩ := fits
  rw [formatInt]
  split
  · rw [parseInt, if_pos rfl, value, if_pos ⟨all, by omega⟩]
    congr 1
    omega
  · obtain ⟨first, rest, shape, _⟩ := formatNat_cons n.natAbs
    have decimal := List.all_eq_true.mp all first (by simp [shape])
    rw [shape] at all value ⊢
    rw [parseInt, if_neg, value, if_pos ⟨all, by omega⟩]
    · congr 1
      omega
    · rintro rfl
      cases decimal

end Go
