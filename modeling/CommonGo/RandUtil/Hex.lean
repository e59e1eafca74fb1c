import CommonGo.Go.Strconv
import Mathlib.Data.Nat.Digits.Lemmas
import Mathlib.Data.Set.Card
import Mathlib.Order.Interval.Finset.Nat

/-!
# Random hexadecimal strings

`GetRandomHex` draws one number below a power of sixteen and writes it with leading zeros.  The
power is found by multiplication in an `int`, which has 64 bits here.
-/

namespace CommonGo.RandUtil

open Go

/-! ## The code -/

/-- A source of random numbers: what `rand.IntN` answers for a positive bound. -/
structure Source where
  /-- The number drawn below a bound. -/
  intN : Int → Int
  /-- It is below the bound and not negative. -/
  range : ∀ n, 0 < n → intN n ∈ Set.Ico 0 n

/-- How the function can panic. -/
inductive Panic where
  /-- `rand.IntN` for a bound that is not positive. -/
  | invalidArgument
  deriving DecidableEq, Repr

/-- `InsecureIntN`, which panics for a bound that is not positive. -/
def insecureIntN (source : Source) (n : Int) : Except Panic Int :=
  if n ≤ 0 then .error .invalidArgument else .ok (source.intN n)

/-- The digits of `strconv`. -/
def digit (d : Nat) : UInt8 := if d < 10 then UInt8.ofNat (0x30 + d) else UInt8.ofNat (0x57 + d)

/-- The loop of `strconv.FormatInt` in base sixteen. -/
def formatBits (u : Nat) : Bytes :=
  if 16 ≤ u then formatBits (u / 16) ++ [digit (u % 16)] else [digit u]

/-- `strconv.FormatInt` in base sixteen. -/
def formatInt (i : Int) : Bytes :=
  if i < 0 then 0x2D :: formatBits i.natAbs else formatBits i.toNat

/-- The loop that puts zeros in front of the string. -/
def pad (length : Int) (hexStr : Bytes) : Bytes :=
  if hexStr.length < length then pad length (0x30 :: hexStr) else hexStr
termination_by (length - hexStr.length).toNat
decreasing_by
  simp only [List.length_cons]
  omega

/-- `maxVal` after its loop. -/
def maxVal (length : Int) : Int := (fun maxVal => wrapInt (maxVal * 16))^[length.toNat] 1

/-- The string that is made of the number drawn. -/
def hexOf (length draw : Int) : Bytes := pad length (formatInt draw)

/-- `GetRandomHex`. -/
def getRandomHex (source : Source) (length : Int) : Except Panic Bytes := do
  let draw ← insecureIntN source (maxVal length)
  return hexOf length draw

/-! ## The bound -/

theorem maxVal_eq_pow {length : Int} (short : length ≤ 15) :
    maxVal length = 16 ^ length.toNat := by
  have powers : ∀ count < 16,
      (fun maxVal => wrapInt (maxVal * 16))^[count] 1 = 16 ^ count := by
    decide +kernel
  exact powers length.toNat (by omega)

/-- Sixteen factors are one too many. -/
theorem maxVal_eq_zero {length : Int} (long : 16 ≤ length) : maxVal length = 0 := by
  obtain ⟨more, count⟩ : ∃ more, length.toNat = more + 16 := ⟨length.toNat - 16, by omega⟩
  have sixteen : (fun maxVal => wrapInt (maxVal * 16))^[16] 1 = 0 := by decide +kernel
  rw [maxVal, count, Function.iterate_add_apply, sixteen]
  exact Function.iterate_fixed (by decide) more

/-! ## Digits -/

/-- The digits that `GetRandomHex` writes. -/
def isHexDigit (b : UInt8) : Bool := (0x30 ≤ b && b ≤ 0x39) || (0x61 ≤ b && b ≤ 0x66)

/-- The value of a digit. -/
def digitValue (b : UInt8) : Nat := if b ≤ 0x39 then b.toNat - 0x30 else b.toNat - 0x57

theorem isHexDigit_digit : ∀ d < 16, isHexDigit (digit d) = true ∧ digitValue (digit d) = d := by
  decide

theorem digit_digitValue (b : UInt8) (hex : isHexDigit b = true) :
    digitValue b < 16 ∧ digit (digitValue b) = b := by
  have all : ∀ n < 256, isHexDigit (UInt8.ofNat n) = true →
      digitValue (UInt8.ofNat n) < 16 ∧ digit (digitValue (UInt8.ofNat n)) = UInt8.ofNat n := by
    decide +kernel
  have here := all b.toNat b.toNat_lt
  rw [UInt8.ofNat_toNat] at here
  exact here hex

theorem map_map_of_inverse {α β : Type} {f : α → β} {g : β → α} {list : List α}
    (inverse : ∀ a ∈ list, g (f a) = a) : (list.map f).map g = list := by
  rw [List.map_map]
  exact (List.map_congr_left inverse).trans (List.map_id list)

/-- The strings of a length that `GetRandomHex` is to make. -/
def hexStrings (length : Int) : Set Bytes := {s | s.length = length ∧ ∀ b ∈ s, isHexDigit b = true}

/-- Digits, last first, and strings of digits are the same thing. -/
theorem bijOn_map_digit (count : Nat) :
    Set.BijOn (fun digits : List Nat => (digits.map digit).reverse)
      {digits | digits.length = count ∧ ∀ d ∈ digits, d < 16} (hexStrings count) := by
  have inverse : Set.InvOn (fun s : Bytes => s.reverse.map digitValue)
      (fun digits : List Nat => (digits.map digit).reverse)
      {digits | digits.length = count ∧ ∀ d ∈ digits, d < 16} (hexStrings count) := by
    constructor
    · rintro digits ⟨_, small⟩
      simp only [List.reverse_reverse]
      exact map_map_of_inverse fun d member => (isHexDigit_digit d (small d member)).2
    · rintro s ⟨_, hex⟩
      simp only
      rw [map_map_of_inverse fun b member =>
        (digit_digitValue b (hex b (List.mem_reverse.mp member))).2, List.reverse_reverse]
  apply inverse.bijOn
  · rintro digits ⟨length_eq, small⟩
    refine ⟨by simpa using length_eq, fun b member => ?_⟩
    obtain ⟨d, inDigits, rfl⟩ := List.mem_map.mp (List.mem_reverse.mp member)
    exact (isHexDigit_digit d (small d inDigits)).1
  · rintro s ⟨length_eq, hex⟩
    refine ⟨by simpa using length_eq, fun d member => ?_⟩
    obtain ⟨b, inString, rfl⟩ := List.mem_map.mp member
    exact (digit_digitValue b (hex b (List.mem_reverse.mp inString))).1

/-- There are as many strings of a length as numbers below the power of sixteen. -/
theorem ncard_hexStrings (count : Nat) : (hexStrings count).ncard = 16 ^ count := by
  have bijection := (bijOn_map_digit count).comp (Nat.bijOn_digitsAppend (by decide) count)
  have below : {n | n < 16 ^ count} = Set.Iio (16 ^ count) := rfl
  rw [← bijection.image_eq, bijection.injOn.ncard_image, below,
    ← Finset.coe_Iio, Set.ncard_coe_finset, Nat.card_Iio]

/-! ## Formatting -/

theorem formatBits_eq {u : Nat} (positive : 0 < u) :
    formatBits u = ((Nat.digits 16 u).map digit).reverse := by
  fun_induction formatBits u with
  | case1 u large ih =>
      rw [ih (by omega), Nat.digits_def' (by decide) positive, List.map_cons, List.reverse_cons]
  | case2 u small =>
      rw [Nat.digits_of_lt 16 u (by omega) (by omega)]
      rfl

theorem pad_eq (length : Int) (hexStr : Bytes) :
    pad length hexStr = List.replicate (length.toNat - hexStr.length) 0x30 ++ hexStr := by
  fun_induction pad length hexStr with
  | case1 hexStr short ih =>
      have count : length.toNat - hexStr.length =
          length.toNat - (0x30 :: hexStr).length + 1 := by
        simp only [List.length_cons]
        omega
      rw [ih, count, List.replicate_succ', List.append_assoc]
      rfl
  | case2 hexStr long =>
      rw [Nat.sub_eq_zero_of_le (by omega)]
      rfl

/-- A number below the power of sixteen is written with all of its digits, and zeros in front. -/
theorem hexOf_eq {length draw : Int} (positive : 1 ≤ length) (nonneg : 0 ≤ draw) :
    hexOf length draw = ((Nat.digitsAppend 16 length.toNat draw.toNat).map digit).reverse := by
  have zero : digit 0 = 0x30 := by decide
  rw [hexOf, formatInt, if_neg (not_lt.mpr nonneg), pad_eq, Nat.digitsAppend, List.map_append,
    List.map_replicate, zero, List.reverse_append, List.reverse_replicate]
  rcases Nat.eq_zero_or_pos draw.toNat with zeroDraw | positiveDraw
  · have one : formatBits 0 = [0x30] := by rw [formatBits, if_neg (by decide), zero]
    obtain ⟨count, count_eq⟩ : ∃ count, length.toNat = count + 1 :=
      ⟨length.toNat - 1, by omega⟩
    rw [zeroDraw, one, count_eq]
    simp [List.replicate_succ']
  · rw [formatBits_eq positiveDraw, List.length_reverse, List.length_map]

/-! ## What is covered -/

/-- What is asked of `GetRandomHex` at a length. -/
structure Covers (length : Int) : Prop where
  /-- The function returns. -/
  returns : ∀ source, ∃ s, getRandomHex source length = .ok s
  /-- It returns a string of that many digits. -/
  hex : ∀ source s, getRandomHex source length = .ok s → s ∈ hexStrings length
  /-- The string is that of the number drawn. -/
  drawn : ∀ source s, getRandomHex source length = .ok s →
    s = hexOf length (source.intN (maxVal length))
  /-- Every string belongs to one number that can be drawn. -/
  bijection : Set.BijOn (hexOf length) (Set.Ico 0 (maxVal length)) (hexStrings length)

theorem getRandomHex_eq {source : Source} {length : Int} :
    getRandomHex source length =
      if maxVal length ≤ 0 then .error .invalidArgument
      else .ok (hexOf length (source.intN (maxVal length))) := by
  rw [getRandomHex, insecureIntN]
  split_ifs <;> rfl

/-- The numbers below a power of sixteen, as integers and as natural numbers. -/
theorem bijOn_toNat (count : Nat) :
    Set.BijOn Int.toNat (Set.Ico 0 (16 ^ count)) {n | n < 16 ^ count} := by
  have power : ((16 ^ count : Nat) : Int) = 16 ^ count := by norm_cast
  rw [← power]
  refine ⟨fun draw inside => ?_, fun a insideA b insideB same => ?_, fun n small => ?_⟩
  · exact (Int.toNat_lt inside.1).mpr inside.2
  · rw [← Int.toNat_of_nonneg insideA.1, ← Int.toNat_of_nonneg insideB.1, same]
  · exact ⟨n, ⟨Int.natCast_nonneg n, Int.ofNat_lt.mpr small⟩, Int.toNat_natCast n⟩

/-- From one to fifteen digits, every number drawn has its own string. -/
theorem bijOn_hexOf {length : Int} (positive : 1 ≤ length) (short : length ≤ 15) :
    Set.BijOn (hexOf length) (Set.Ico 0 (maxVal length)) (hexStrings length) := by
  have count : (length.toNat : Int) = length := Int.toNat_of_nonneg (by omega)
  have digits := (bijOn_map_digit length.toNat).comp
    ((Nat.bijOn_digitsAppend (by decide) length.toNat).comp (bijOn_toNat length.toNat))
  rw [count, ← maxVal_eq_pow short] at digits
  refine digits.congr fun draw inside => ?_
  exact (hexOf_eq positive inside.1).symm

theorem covers_of_le {length : Int} (positive : 1 ≤ length) (short : length ≤ 15) :
    Covers length := by
  have bound : 0 < maxVal length := by
    rw [maxVal_eq_pow short]
    positivity
  have result : ∀ source : Source, getRandomHex source length =
      .ok (hexOf length (source.intN (maxVal length))) := fun source => by
    rw [getRandomHex_eq, if_neg (not_le.mpr bound)]
  have bijection := bijOn_hexOf positive short
  refine ⟨fun source => ⟨_, result source⟩, fun source s returned => ?_,
    fun source s returned => ?_, bijection⟩
  · rw [result] at returned
    cases returned
    exact bijection.mapsTo (source.range _ bound)
  · rw [result] at returned
    cases returned
    rfl

/-- A source that always answers zero. -/
def zeros : Source where
  intN _ := 0
  range _ positive := ⟨le_rfl, positive⟩

/-- The empty string is not made: a number has at least one digit. -/
theorem getRandomHex_zero : getRandomHex zeros 0 = .ok [0x30] := by
  have bound : maxVal 0 = 1 := rfl
  have one : formatInt 0 = [0x30] := by
    rw [formatInt, if_neg (by decide), Int.toNat_zero, formatBits, if_neg (by decide)]
    rfl
  have whole : pad 0 [0x30] = [0x30] := by
    rw [pad, if_neg (by decide)]
  rw [getRandomHex_eq, bound, if_neg (by decide), hexOf]
  exact congrArg Except.ok ((congrArg (pad 0) one).trans whole)

/-- From sixteen digits on, there is no bound to draw a number below. -/
theorem getRandomHex_panics {length : Int} (long : 16 ≤ length) (source : Source) :
    getRandomHex source length = .error .invalidArgument := by
  rw [getRandomHex_eq, maxVal_eq_zero long, if_pos le_rfl]

theorem not_covers_zero : ¬ Covers 0 := by
  intro covers
  have empty := (covers.hex zeros _ getRandomHex_zero).1
  simp at empty

theorem not_covers_of_le {length : Int} (long : 16 ≤ length) : ¬ Covers length := by
  intro covers
  obtain ⟨s, returned⟩ := covers.returns zeros
  rw [getRandomHex_panics long] at returned
  cases returned

/-- `GetRandomHex` covers the strings of a length exactly from one to fifteen digits. -/
theorem covers_iff {length : Int} (nonneg : 0 ≤ length) :
    (hexStrings length).ncard = 16 ^ length.toNat ∧
      (Covers length ↔ 1 ≤ length ∧ length ≤ 15) := by
  have count : (length.toNat : Int) = length := Int.toNat_of_nonneg nonneg
  refine ⟨by rw [← ncard_hexStrings, count], fun covers => ⟨?_, ?_⟩,
    fun ⟨positive, short⟩ => covers_of_le positive short⟩
  · by_contra zero
    obtain rfl : length = 0 := by omega
    exact not_covers_zero covers
  · by_contra long
    exact not_covers_of_le (by omega) covers

theorem covers_iff_eight : Covers 8 :=
  ((covers_iff (show (0 : Int) ≤ 8 by decide)).2).mpr ⟨by decide, by decide⟩

/-- The string of no digits has one, and from sixteen digits on there is a panic. -/
theorem hex_not_covered :
    getRandomHex zeros 0 = .ok [0x30] ∧ ¬ Covers 0 ∧
      getRandomHex zeros 16 = .error .invalidArgument ∧ ¬ Covers 16 :=
  ⟨getRandomHex_zero, not_covers_zero, getRandomHex_panics le_rfl zeros,
    not_covers_of_le le_rfl⟩

end CommonGo.RandUtil
