import Mathlib.Data.List.Basic
import Mathlib.Tactic

/-!
# Runes of a Go string

A Go string is a sequence of bytes that need not be valid UTF-8.  This file gives the decoder and
encoder of `unicode/utf8` on such sequences.  The facts a byte scanner needs are that a decoded rune
never swallows an ASCII byte behind its first one, and that an ASCII byte ends every incomplete
sequence in front of it.
-/

namespace Go

/-- The bytes of a Go string. -/
abbrev Bytes := List UInt8

/-- What holds of the first 256 numbers holds of every byte. -/
theorem forall_byte {property : UInt8 → Prop}
    (all : ∀ n < 256, property (UInt8.ofNat n)) (b : UInt8) : property b := by
  have holds := all b.toNat b.toNat_lt
  rwa [UInt8.ofNat_toNat] at holds

/-- `utf8.RuneError`, the replacement character. -/
def runeError : Nat := 0xFFFD

/-- A continuation byte. -/
def isCont (b : UInt8) : Bool := 0x80 ≤ b.toNat && b.toNat ≤ 0xBF

/-- A byte below `utf8.RuneSelf`, which is its own rune. -/
def isAscii (b : UInt8) : Bool := b.toNat < 0x80

/-- Sequence length and second-byte range that a multi-byte lead byte announces. -/
def leadByte (b : UInt8) : Option (Nat × Nat × Nat) :=
  if b.toNat < 0xC2 then none
  else if b.toNat ≤ 0xDF then some (2, 0x80, 0xBF)
  else if b.toNat = 0xE0 then some (3, 0xA0, 0xBF)
  else if b.toNat = 0xED then some (3, 0x80, 0x9F)
  else if b.toNat ≤ 0xEF then some (3, 0x80, 0xBF)
  else if b.toNat = 0xF0 then some (4, 0x90, 0xBF)
  else if b.toNat ≤ 0xF3 then some (4, 0x80, 0xBF)
  else if b.toNat = 0xF4 then some (4, 0x80, 0x8F)
  else none

/-- A complete multi-byte sequence at the front of a string, with its length. -/
def decodeMultibyte : Bytes → Option (Nat × Nat)
  | b₀ :: b₁ :: rest =>
      match leadByte b₀ with
      | none => none
      | some (size, low, high) =>
          if low ≤ b₁.toNat ∧ b₁.toNat ≤ high then
            match size, rest with
            | 2, _ => some (b₀.toNat % 0x20 * 0x40 + b₁.toNat % 0x40, 2)
            | 3, b₂ :: _ =>
                if isCont b₂ then
                  some ((b₀.toNat % 0x10 * 0x40 + b₁.toNat % 0x40) * 0x40 + b₂.toNat % 0x40, 3)
                else none
            | 4, b₂ :: b₃ :: _ =>
                if isCont b₂ ∧ isCont b₃ then
                  some (((b₀.toNat % 0x08 * 0x40 + b₁.toNat % 0x40) * 0x40 + b₂.toNat % 0x40) *
                    0x40 + b₃.toNat % 0x40, 4)
                else none
            | _, _ => none
          else none
  | _ => none

/-- `utf8.DecodeRuneInString`: the first rune and its width; a byte that starts no complete sequence
decodes to `runeError` with width one. -/
def decodeRune : Bytes → Nat × Nat
  | [] => (runeError, 0)
  | b :: rest =>
      if isAscii b then (b.toNat, 1)
      else (decodeMultibyte (b :: rest)).getD (runeError, 1)

/-- A Unicode scalar value. -/
def validRune (r : Nat) : Bool := r < 0xD800 || (0xE000 ≤ r && r < 0x110000)

theorem validRune_iff {r : Nat} :
    validRune r ↔ r < 0xD800 ∨ (0xE000 ≤ r ∧ r < 0x110000) := by
  simp [validRune]

/-- `utf8.AppendRune` on an empty buffer; a value that is no scalar is written as `runeError`. -/
def encodeRune (r : Nat) : Bytes :=
  if r < 0x80 then [UInt8.ofNat r]
  else if r < 0x800 then [UInt8.ofNat (0xC0 + r / 0x40), UInt8.ofNat (0x80 + r % 0x40)]
  else if ¬ validRune r then [0xEF, 0xBF, 0xBD]
  else if r < 0x10000 then
    [UInt8.ofNat (0xE0 + r / 0x1000), UInt8.ofNat (0x80 + r / 0x40 % 0x40),
      UInt8.ofNat (0x80 + r % 0x40)]
  else
    [UInt8.ofNat (0xF0 + r / 0x40000), UInt8.ofNat (0x80 + r / 0x1000 % 0x40),
      UInt8.ofNat (0x80 + r / 0x40 % 0x40), UInt8.ofNat (0x80 + r % 0x40)]

/-- What a lead byte can announce. -/
theorem leadByte_cases {b : UInt8} {size low high : Nat}
    (lead : leadByte b = some (size, low, high)) :
    0xC2 ≤ b.toNat ∧ 0x80 ≤ low ∧ high ≤ 0xBF ∧
      ((size = 2 ∧ b.toNat ≤ 0xDF) ∨
        (size = 3 ∧ 0xE0 ≤ b.toNat ∧ b.toNat ≤ 0xEF ∧ (b.toNat = 0xE0 → 0xA0 ≤ low) ∧
          (b.toNat = 0xED → high ≤ 0x9F)) ∨
        (size = 4 ∧ 0xF0 ≤ b.toNat ∧ b.toNat ≤ 0xF4 ∧ (b.toNat = 0xF0 → 0x90 ≤ low) ∧
          (b.toNat = 0xF4 → high ≤ 0x8F))) := by
  unfold leadByte at lead
  repeat' split at lead
  all_goals cases lead
  all_goals omega

private theorem eq_ofNat {b : UInt8} {n : Nat} (value : b.toNat = n) : b = UInt8.ofNat n := by
  rw [← value, UInt8.ofNat_toNat]

private theorem nonascii_of_le {b : UInt8} (large : 0x80 ≤ b.toNat) : isAscii b = false :=
  decide_eq_false (Nat.not_lt.mpr large)

private theorem isCont_iff {b : UInt8} : isCont b ↔ 0x80 ≤ b.toNat ∧ b.toNat ≤ 0xBF := by
  simp [isCont]

private theorem encodeRune_two {r : Nat} {b₀ b₁ : UInt8}
    (value : r = b₀.toNat % 0x20 * 0x40 + b₁.toNat % 0x40)
    (lead : 0xC2 ≤ b₀.toNat ∧ b₀.toNat ≤ 0xDF) (second : 0x80 ≤ b₁.toNat ∧ b₁.toNat ≤ 0xBF) :
    0x80 ≤ r ∧ validRune r ∧ [b₀, b₁] = encodeRune r := by
  have scalar : validRune r := validRune_iff.mpr (by omega)
  refine ⟨by omega, scalar, ?_⟩
  rw [encodeRune, if_neg (by omega), if_pos (by omega), ← eq_ofNat (b := b₀) (by omega),
    ← eq_ofNat (b := b₁) (by omega)]

private theorem encodeRune_three {r : Nat} {b₀ b₁ b₂ : UInt8}
    (value : r = (b₀.toNat % 0x10 * 0x40 + b₁.toNat % 0x40) * 0x40 + b₂.toNat % 0x40)
    (lead : 0xE0 ≤ b₀.toNat ∧ b₀.toNat ≤ 0xEF) (second : 0x80 ≤ b₁.toNat ∧ b₁.toNat ≤ 0xBF)
    (third : 0x80 ≤ b₂.toNat ∧ b₂.toNat ≤ 0xBF) (long : b₀.toNat = 0xE0 → 0xA0 ≤ b₁.toNat)
    (surrogate : b₀.toNat = 0xED → b₁.toNat ≤ 0x9F) :
    0x80 ≤ r ∧ validRune r ∧ [b₀, b₁, b₂] = encodeRune r := by
  have bounds : 0x800 ≤ r ∧ r < 0x10000 := by omega
  have scalar : validRune r := validRune_iff.mpr (by omega)
  refine ⟨by omega, scalar, ?_⟩
  rw [encodeRune, if_neg (by omega), if_neg (by omega), if_neg (by simp [scalar]),
    if_pos bounds.2, ← eq_ofNat (b := b₀) (by omega), ← eq_ofNat (b := b₁) (by omega),
    ← eq_ofNat (b := b₂) (by omega)]

private theorem encodeRune_four {r : Nat} {b₀ b₁ b₂ b₃ : UInt8}
    (value : r = ((b₀.toNat % 0x08 * 0x40 + b₁.toNat % 0x40) * 0x40 + b₂.toNat % 0x40) * 0x40 +
      b₃.toNat % 0x40)
    (lead : 0xF0 ≤ b₀.toNat ∧ b₀.toNat ≤ 0xF4) (second : 0x80 ≤ b₁.toNat ∧ b₁.toNat ≤ 0xBF)
    (third : 0x80 ≤ b₂.toNat ∧ b₂.toNat ≤ 0xBF) (fourth : 0x80 ≤ b₃.toNat ∧ b₃.toNat ≤ 0xBF)
    (long : b₀.toNat = 0xF0 → 0x90 ≤ b₁.toNat) (last : b₀.toNat = 0xF4 → b₁.toNat ≤ 0x8F) :
    0x80 ≤ r ∧ validRune r ∧ [b₀, b₁, b₂, b₃] = encodeRune r := by
  have bounds : 0x10000 ≤ r ∧ r < 0x110000 := by omega
  have scalar : validRune r := validRune_iff.mpr (by omega)
  refine ⟨by omega, scalar, ?_⟩
  rw [encodeRune, if_neg (by omega), if_neg (by omega), if_neg (by simp [scalar]),
    if_neg (by omega), ← eq_ofNat (b := b₀) (by omega), ← eq_ofNat (b := b₁) (by omega),
    ← eq_ofNat (b := b₂) (by omega), ← eq_ofNat (b := b₃) (by omega)]

/-- A multi-byte sequence consists of non-ASCII bytes and is what its rune encodes to. -/
theorem decodeMultibyte_spec {s : Bytes} {r : Nat} {size : Nat}
    (decoded : decodeMultibyte s = some (r, size)) :
    2 ≤ size ∧ size ≤ s.length ∧ 0x80 ≤ r ∧ validRune r ∧
      (∀ b ∈ s.take size, isAscii b = false) ∧ s.take size = encodeRune r := by
  unfold decodeMultibyte at decoded
  split at decoded
  next b₀ b₁ rest =>
    split at decoded
    · contradiction
    next width low high lead =>
      obtain ⟨b₀_low, low_ge, high_le, shape⟩ := leadByte_cases lead
      split_ifs at decoded with range
      have second : 0x80 ≤ b₁.toNat ∧ b₁.toNat ≤ 0xBF := by omega
      have first_nonascii := nonascii_of_le (b := b₀) (by omega)
      have second_nonascii := nonascii_of_le second.1
      split at decoded
      · simp only [Option.some.injEq, Prod.mk.injEq] at decoded
        obtain ⟨value, rfl⟩ := decoded
        obtain ⟨large, scalar, text⟩ := encodeRune_two value.symm (by omega) second
        exact ⟨by omega, by simp, large, scalar, by simp [first_nonascii, second_nonascii], text⟩
      next _ b₂ _ =>
        split_ifs at decoded with cont
        simp only [Option.some.injEq, Prod.mk.injEq] at decoded
        obtain ⟨value, rfl⟩ := decoded
        have third := isCont_iff.mp cont
        obtain ⟨large, scalar, text⟩ :=
          encodeRune_three value.symm (by omega) second third (by omega) (by omega)
        have third_nonascii := nonascii_of_le third.1
        exact ⟨by omega, by simp, large, scalar,
          by simp [first_nonascii, second_nonascii, third_nonascii], text⟩
      next _ b₂ b₃ _ =>
        split_ifs at decoded with conts
        simp only [Option.some.injEq, Prod.mk.injEq] at decoded
        obtain ⟨value, rfl⟩ := decoded
        have third := isCont_iff.mp conts.1
        have fourth := isCont_iff.mp conts.2
        obtain ⟨large, scalar, text⟩ :=
          encodeRune_four value.symm (by omega) second third fourth (by omega) (by omega)
        have third_nonascii := nonascii_of_le third.1
        have fourth_nonascii := nonascii_of_le fourth.1
        exact ⟨by omega, by simp, large, scalar,
          by simp [first_nonascii, second_nonascii, third_nonascii, fourth_nonascii], text⟩
      · contradiction
  · contradiction

/-- The encoding of a non-ASCII scalar decodes to it in front of any text. -/
theorem decodeMultibyte_encodeRune {r : Nat} (rest : Bytes) (large : 0x80 ≤ r)
    (scalar : validRune r) :
    decodeMultibyte (encodeRune r ++ rest) = some (r, (encodeRune r).length) := by
  have bounds := validRune_iff.mp scalar
  unfold encodeRune
  rw [if_neg (by omega), if_neg (not_not.mpr scalar)]
  split_ifs with two three
  · have lead : leadByte (UInt8.ofNat (0xC0 + r / 0x40)) = some (2, 0x80, 0xBF) := by
      simp only [leadByte, UInt8.toNat_ofNat']
      rw [if_neg (by omega), if_pos (by omega)]
    simp only [List.cons_append, List.nil_append, decodeMultibyte, lead, UInt8.toNat_ofNat']
    rw [if_pos (by omega)]
    refine congrArg some (Prod.ext ?_ rfl)
    simp only
    omega
  · obtain ⟨low, high, lead, low_le, le_high⟩ :
        ∃ low high, leadByte (UInt8.ofNat (0xE0 + r / 0x1000)) = some (3, low, high) ∧
          low ≤ 0x80 + r / 0x40 % 0x40 ∧ 0x80 + r / 0x40 % 0x40 ≤ high := by
      simp only [leadByte, UInt8.toNat_ofNat']
      rw [if_neg (by omega), if_neg (by omega)]
      split_ifs <;> first | exact ⟨_, _, rfl, by omega, by omega⟩ | omega
    have third : isCont (UInt8.ofNat (0x80 + r % 0x40)) := by
      rw [isCont_iff, UInt8.toNat_ofNat']
      omega
    simp only [List.cons_append, List.nil_append, decodeMultibyte, lead, UInt8.toNat_ofNat']
    rw [if_pos (by omega), if_pos third]
    refine congrArg some (Prod.ext ?_ rfl)
    simp only
    omega
  · obtain ⟨low, high, lead, low_le, le_high⟩ :
        ∃ low high, leadByte (UInt8.ofNat (0xF0 + r / 0x40000)) = some (4, low, high) ∧
          low ≤ 0x80 + r / 0x1000 % 0x40 ∧ 0x80 + r / 0x1000 % 0x40 ≤ high := by
      simp only [leadByte, UInt8.toNat_ofNat']
      rw [if_neg (by omega), if_neg (by omega), if_neg (by omega), if_neg (by omega),
        if_neg (by omega)]
      split_ifs <;> first | exact ⟨_, _, rfl, by omega, by omega⟩ | omega
    have tail : isCont (UInt8.ofNat (0x80 + r / 0x40 % 0x40)) ∧
        isCont (UInt8.ofNat (0x80 + r % 0x40)) := by
      rw [isCont_iff, isCont_iff, UInt8.toNat_ofNat', UInt8.toNat_ofNat']
      omega
    simp only [List.cons_append, List.nil_append, decodeMultibyte, lead, UInt8.toNat_ofNat']
    rw [if_pos (by omega), if_pos tail]
    refine congrArg some (Prod.ext ?_ rfl)
    simp only
    omega

/-- An ASCII byte ends every incomplete sequence in front of it. -/
theorem decodeMultibyte_append_ascii {s : Bytes} {a : UInt8} (rest : Bytes) (ascii : isAscii a) :
    decodeMultibyte (s ++ a :: rest) = decodeMultibyte s := by
  cases decoded : decodeMultibyte s with
  | some result =>
      obtain ⟨r, size⟩ := result
      obtain ⟨_, size_le, large, scalar, _, taken⟩ := decodeMultibyte_spec decoded
      have length_eq : (encodeRune r).length = size := by
        rw [← taken, List.length_take, Nat.min_eq_left size_le]
      rw [← List.take_append_drop size s, taken, List.append_assoc,
        decodeMultibyte_encodeRune _ large scalar, length_eq]
  | none =>
      cases extended : decodeMultibyte (s ++ a :: rest) with
      | none => rfl
      | some result =>
          obtain ⟨r, size⟩ := result
          obtain ⟨_, _, large, scalar, nonascii, taken⟩ := decodeMultibyte_spec extended
          rcases Nat.lt_or_ge s.length size with beyond | within
          · have member : a ∈ (s ++ a :: rest).take size := by
              rw [List.take_append, List.mem_append]
              right
              obtain ⟨extra, extra_eq⟩ := Nat.exists_eq_add_of_lt beyond
              rw [show size - s.length = extra + 1 by omega]
              simp
            rw [nonascii a member] at ascii
            contradiction
          · rw [List.take_append_of_le_length within] at taken
            rw [← List.take_append_drop size s, taken,
              decodeMultibyte_encodeRune _ large scalar] at decoded
            contradiction

@[simp]
theorem decodeRune_nil : decodeRune [] = (runeError, 0) := rfl

theorem decodeRune_ascii {b : UInt8} (rest : Bytes) (ascii : isAscii b) :
    decodeRune (b :: rest) = (b.toNat, 1) := by
  simp [decodeRune, ascii]

/-- A non-ASCII byte decodes to a non-ASCII rune made of non-ASCII bytes. -/
theorem decodeRune_nonascii {b : UInt8} (rest : Bytes) (nonascii : isAscii b = false) :
    0x80 ≤ (decodeRune (b :: rest)).1 ∧ 1 ≤ (decodeRune (b :: rest)).2 ∧
      (decodeRune (b :: rest)).2 ≤ (b :: rest).length ∧
      ∀ a ∈ (b :: rest).take (decodeRune (b :: rest)).2, isAscii a = false := by
  simp only [decodeRune, nonascii, Bool.false_eq_true, if_false]
  cases decoded : decodeMultibyte (b :: rest) with
  | none => simp [runeError, nonascii]
  | some result =>
      obtain ⟨r, size⟩ := result
      obtain ⟨two_le, size_le, large, _, bytes, _⟩ := decodeMultibyte_spec decoded
      exact ⟨large, by simp only [Option.getD_some]; omega, size_le, bytes⟩

theorem decodeRune_width_pos {s : Bytes} (nonempty : s ≠ []) : 1 ≤ (decodeRune s).2 := by
  obtain ⟨b, rest, rfl⟩ := List.exists_cons_of_ne_nil nonempty
  cases ascii : isAscii b with
  | true => simp [decodeRune_ascii rest ascii]
  | false => exact (decodeRune_nonascii _ ascii).2.1

theorem decodeRune_width_le (s : Bytes) : (decodeRune s).2 ≤ s.length := by
  cases s with
  | nil => simp
  | cons b rest =>
      cases ascii : isAscii b with
      | true => simp [decodeRune_ascii rest ascii]
      | false => exact (decodeRune_nonascii _ ascii).2.2.1

/-- Every decoded rune is a scalar value. -/
theorem decodeRune_valid (s : Bytes) : validRune (decodeRune s).1 := by
  cases s with
  | nil => decide
  | cons b rest =>
      rw [validRune_iff]
      cases ascii : isAscii b with
      | true =>
          have small : b.toNat < 0x80 := by simpa [isAscii] using ascii
          rw [decodeRune_ascii rest ascii]
          omega
      | false =>
          simp only [decodeRune, ascii, Bool.false_eq_true, if_false]
          cases decoded : decodeMultibyte (b :: rest) with
          | none => simp [runeError]
          | some result => exact validRune_iff.mp (decodeMultibyte_spec decoded).2.2.2.1

/-- Only the byte itself decodes to an ASCII rune. -/
theorem decodeRune_eq_ascii_iff {b a : UInt8} {rest : Bytes} (ascii : isAscii a) :
    (decodeRune (b :: rest)).1 = a.toNat ↔ b = a := by
  have a_lt : a.toNat < 0x80 := by simpa [isAscii] using ascii
  cases head : isAscii b with
  | true =>
      rw [decodeRune_ascii rest head]
      exact UInt8.toNat_inj
  | false =>
      have large := (decodeRune_nonascii rest head).1
      constructor
      · intro equal
        omega
      · rintro rfl
        rw [head] at ascii
        contradiction

/-- The bytes of a rune other than an ASCII byte are other than that byte. -/
theorem decodeRune_take_ne {a : UInt8} {s : Bytes} (ascii : isAscii a)
    (other : (decodeRune s).1 ≠ a.toNat) : ∀ b ∈ s.take (decodeRune s).2, b ≠ a := by
  intro b member
  cases s with
  | nil => simp at member
  | cons head rest =>
      cases head_ascii : isAscii head with
      | true =>
          rw [decodeRune_ascii rest head_ascii] at member
          obtain rfl : b = head := by simpa using member
          rintro rfl
          exact other ((decodeRune_eq_ascii_iff ascii).mpr rfl)
      | false =>
          have nonascii := (decodeRune_nonascii _ head_ascii).2.2.2 b member
          rintro rfl
          rw [nonascii] at ascii
          contradiction

/-- Text in front of an ASCII byte decodes without looking at that byte. -/
theorem decodeRune_append_ascii {s : Bytes} {a : UInt8} (rest : Bytes) (nonempty : s ≠ [])
    (ascii : isAscii a) : decodeRune (s ++ a :: rest) = decodeRune s := by
  obtain ⟨b, tail, rfl⟩ := List.exists_cons_of_ne_nil nonempty
  simp only [List.cons_append, decodeRune]
  rw [← List.cons_append, decodeMultibyte_append_ascii rest ascii]

theorem encodeRune_ascii {r : Nat} (small : r < 0x80) : encodeRune r = [UInt8.ofNat r] := by
  simp [encodeRune, small]

theorem encodeRune_ne_nil (r : Nat) : encodeRune r ≠ [] := by
  unfold encodeRune
  split_ifs <;> simp

/-- Decoding inverts encoding in front of any text. -/
theorem decodeRune_encodeRune {r : Nat} (rest : Bytes) (scalar : validRune r) :
    decodeRune (encodeRune r ++ rest) = (r, (encodeRune r).length) := by
  rcases Nat.lt_or_ge r 0x80 with small | large
  · rw [encodeRune_ascii small]
    have value : (UInt8.ofNat r).toNat = r := by
      rw [UInt8.toNat_ofNat']
      omega
    rw [List.singleton_append, decodeRune_ascii rest (by simpa [isAscii, value] using small), value]
    rfl
  · have decoded := decodeMultibyte_encodeRune rest large scalar
    obtain ⟨b, tail, shape⟩ := List.exists_cons_of_ne_nil (encodeRune_ne_nil r)
    obtain ⟨_, _, _, _, nonascii, _⟩ := decodeMultibyte_spec decoded
    have head_nonascii : isAscii b = false := by
      apply nonascii
      rw [List.take_left]
      simp [shape]
    rw [shape] at decoded ⊢
    simp only [List.cons_append] at decoded ⊢
    simp [decodeRune, head_nonascii, decoded]

end Go
