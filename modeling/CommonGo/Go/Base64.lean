import CommonGo.Go.Url

/-!
# Base64 of Go

`base64.StdEncoding`.  The decoder reads groups of four digits, skips line breaks wherever they
stand, and asks for the padding of the last group.  It reads every text back that the encoder made,
however its lines were broken afterwards.
-/

namespace Go.Base64

/-- The byte that fills the last group up. -/
def pad : UInt8 := 0x3D

/-- A digit of `encodeStd`: capital letters, small letters, the decimal digits, plus and slash. -/
def digit (n : Nat) : UInt8 :=
  if n < 26 then UInt8.ofNat (0x41 + n)
  else if n < 52 then UInt8.ofNat (0x61 + (n - 26))
  else if n < 62 then UInt8.ofNat (0x30 + (n - 52))
  else if n = 62 then 0x2B
  else 0x2F

/-- The value of a digit, in `decodeMap`. -/
def value? (b : UInt8) : Option Nat :=
  if 0x41 ≤ b ∧ b ≤ 0x5A then some (b.toNat - 0x41)
  else if 0x61 ≤ b ∧ b ≤ 0x7A then some (b.toNat - 0x61 + 26)
  else if 0x30 ≤ b ∧ b ≤ 0x39 then some (b.toNat - 0x30 + 52)
  else if b = 0x2B then some 62
  else if b = 0x2F then some 63
  else none

/-! ## Encoding -/

/-- `EncodeToString`: three bytes are four digits, and one or two at the end are padded. -/
def encode : Bytes → Bytes
  | a :: b :: c :: rest =>
      let val := a.toNat * 65536 + b.toNat * 256 + c.toNat
      digit (val / 262144) :: digit (val / 4096 % 64) :: digit (val / 64 % 64) ::
        digit (val % 64) :: encode rest
  | [a, b] =>
      let val := a.toNat * 65536 + b.toNat * 256
      [digit (val / 262144), digit (val / 4096 % 64), digit (val / 64 % 64), pad]
  | [a] =>
      let val := a.toNat * 65536
      [digit (val / 262144), digit (val / 4096 % 64), pad, pad]
  | [] => []

/-! ## Decoding -/

/-- The bytes that `decode` passes over. -/
def isLineBreak (b : UInt8) : Bool := b == 0x0A || b == 0x0D

/-- What is left behind line breaks. -/
def skipBreaks (s : Bytes) : Bytes := s.dropWhile isLineBreak

/-- The three bytes of a group of digits. -/
def quantum (digits : List Nat) : Bytes :=
  let val := digits.getD 0 0 * 262144 + digits.getD 1 0 * 4096 + digits.getD 2 0 * 64 +
    digits.getD 3 0
  [UInt8.ofNat (val / 65536 % 256), UInt8.ofNat (val / 256 % 256), UInt8.ofNat (val % 256)]

/-- What may follow the digits of the last group, behind the first byte of its padding. -/
def ends : List Nat → Bytes → Bool
  | [_, _], rest =>
      match skipBreaks rest with
      | b :: rest => b == pad && skipBreaks rest == []
      | [] => false
  | [_, _, _], rest => skipBreaks rest == []
  | _, _ => false

/-- `decodeQuantum` over and over, with the digits of the group so far. -/
def decodeFrom (digits : List Nat) : Bytes → Option Bytes
  | [] => if digits = [] then some [] else none
  | b :: rest =>
      match value? b with
      | some v =>
          if digits.length = 3 then (decodeFrom [] rest).map (quantum (digits ++ [v]) ++ ·)
          else decodeFrom (digits ++ [v]) rest
      | none =>
          if isLineBreak b then decodeFrom digits rest
          else if b = pad ∧ ends digits rest then
            some ((quantum digits).take (digits.length - 1))
          else none

/-- `DecodeString`, without the position of an error. -/
def decode (s : Bytes) : Option Bytes := decodeFrom [] s

/-! ## Line breaks -/

/-- The text without its line breaks. -/
def unbroken (s : Bytes) : Bytes := s.filter fun b => !isLineBreak b

theorem unbroken_skipBreaks (s : Bytes) : unbroken (skipBreaks s) = unbroken s := by
  induction s with
  | nil => rfl
  | cons b rest ih =>
      by_cases breaks : isLineBreak b = true
      · simpa [skipBreaks, unbroken, breaks] using ih
      · simp [skipBreaks, breaks]

theorem skipBreaks_eq_nil_iff (s : Bytes) : skipBreaks s = [] ↔ unbroken s = [] := by
  constructor
  · intro nothing
    rw [← unbroken_skipBreaks, nothing]
    rfl
  · intro nothing
    rw [skipBreaks, List.dropWhile_eq_nil_iff]
    intro b member
    by_contra other
    have left : b ∈ unbroken s := List.mem_filter.mpr ⟨member, by simpa using other⟩
    rw [nothing] at left
    cases left

theorem isLineBreak_head {s rest : Bytes} {b : UInt8} (skipped : skipBreaks s = b :: rest) :
    isLineBreak b = false := by
  have stops := List.head?_dropWhile_not isLineBreak s
  rw [← skipBreaks, skipped] at stops
  simpa using stops

/-- Only what is left without line breaks counts behind the padding. -/
theorem ends_iff (digits : List Nat) (s : Bytes) :
    ends digits s = true ↔
      digits.length = 2 ∧ unbroken s = [pad] ∨ digits.length = 3 ∧ unbroken s = [] := by
  match digits with
  | [] => simp [ends]
  | [_] => simp [ends]
  | [_, _, _] => simp [ends, skipBreaks_eq_nil_iff]
  | _ :: _ :: _ :: _ :: _ => simp [ends]
  | [_, _] =>
      cases skipped : skipBreaks s with
      | nil => simp [ends, skipped, (skipBreaks_eq_nil_iff s).mp skipped]
      | cons b rest =>
          have left : unbroken s = b :: unbroken rest := by
            rw [← unbroken_skipBreaks, skipped]
            simp [unbroken, isLineBreak_head skipped]
          simp [ends, skipped, left, skipBreaks_eq_nil_iff]

theorem unbroken_unbroken (s : Bytes) : unbroken (unbroken s) = unbroken s := by
  simp [unbroken]

/-- Line breaks make no difference. -/
theorem decodeFrom_unbroken (digits : List Nat) (s : Bytes) :
    decodeFrom digits (unbroken s) = decodeFrom digits s := by
  induction s generalizing digits with
  | nil => rfl
  | cons b rest ih =>
      have endings : ends digits (unbroken rest) = ends digits rest := by
        rw [Bool.eq_iff_iff, ends_iff, ends_iff, unbroken_unbroken]
      by_cases breaks : isLineBreak b = true
      · have skipped : unbroken (b :: rest) = unbroken rest := by simp [unbroken, breaks]
        have strange : value? b = none := by
          rcases Bool.or_eq_true_iff.mp breaks with feed | ret
          · rw [beq_iff_eq.mp feed]
            decide
          · rw [beq_iff_eq.mp ret]
            decide
        rw [skipped, ih, decodeFrom, strange]
        simp [breaks]
      · have kept : unbroken (b :: rest) = b :: unbroken rest := by simp [unbroken, breaks]
        rw [kept, decodeFrom, decodeFrom, endings, ih, ih]
        cases value? b with
        | some v => simp only [ih]
        | none => rfl

/-! ## Bytes come back -/

theorem value?_digit : ∀ n < 64, value? (digit n) = some n := by
  decide

theorem value?_pad : value? pad = none := by decide

section Digits

variable {n : Nat} {digits : List Nat} {rest : Bytes}

theorem decodeFrom_digit (small : n < 64) (short : digits.length ≠ 3) :
    decodeFrom digits (digit n :: rest) = decodeFrom (digits ++ [n]) rest := by
  rw [decodeFrom, value?_digit n small]
  exact if_neg short

theorem decodeFrom_last (small : n < 64) (full : digits.length = 3) :
    decodeFrom digits (digit n :: rest) =
      (decodeFrom [] rest).map (quantum (digits ++ [n]) ++ ·) := by
  rw [decodeFrom, value?_digit n small]
  exact if_pos full

theorem decodeFrom_pad (padded : ends digits rest = true) :
    decodeFrom digits (pad :: rest) = some ((quantum digits).take (digits.length - 1)) := by
  have kept : isLineBreak pad = false := by decide
  rw [decodeFrom, value?_pad]
  simp [kept, padded]

end Digits

/-- Digits with the value of three bytes stand for them. -/
theorem quantum_eq {digits : List Nat} (a b c : UInt8)
    (whole : digits.getD 0 0 * 262144 + digits.getD 1 0 * 4096 + digits.getD 2 0 * 64 +
      digits.getD 3 0 = a.toNat * 65536 + b.toNat * 256 + c.toNat) :
    quantum digits = [a, b, c] := by
  have small := And.intro a.toNat_lt (And.intro b.toNat_lt c.toNat_lt)
  have first : (a.toNat * 65536 + b.toNat * 256 + c.toNat) / 65536 % 256 = a.toNat := by omega
  have second : (a.toNat * 65536 + b.toNat * 256 + c.toNat) / 256 % 256 = b.toNat := by omega
  have third : (a.toNat * 65536 + b.toNat * 256 + c.toNat) % 256 = c.toNat := by omega
  simp only [quantum, whole, first, second, third, UInt8.ofNat_toNat]

/-- Three bytes at the front of an encoded text. -/
theorem decodeFrom_three (a b c : UInt8) (rest : Bytes) :
    decodeFrom [] (encode (a :: b :: c :: rest)) =
      (decodeFrom [] (encode rest)).map ([a, b, c] ++ ·) := by
  have small := And.intro a.toNat_lt (And.intro b.toNat_lt c.toNat_lt)
  have high : (a.toNat * 65536 + b.toNat * 256 + c.toNat) / 262144 < 64 := by omega
  rw [encode, decodeFrom_digit high (by simp),
    decodeFrom_digit (Nat.mod_lt _ (by decide)) (by simp),
    decodeFrom_digit (Nat.mod_lt _ (by decide)) (by simp),
    decodeFrom_last (Nat.mod_lt _ (by decide)) rfl, quantum_eq a b c]
  simp only [List.nil_append, List.cons_append, List.getD_cons_zero, List.getD_cons_succ]
  omega

theorem decodeFrom_two (a b : UInt8) : decodeFrom [] (encode [a, b]) = some [a, b] := by
  have small := And.intro a.toNat_lt b.toNat_lt
  have high : (a.toNat * 65536 + b.toNat * 256) / 262144 < 64 := by omega
  rw [encode, decodeFrom_digit high (by simp),
    decodeFrom_digit (Nat.mod_lt _ (by decide)) (by simp),
    decodeFrom_digit (Nat.mod_lt _ (by decide)) (by simp), decodeFrom_pad rfl, quantum_eq a b 0]
  · rfl
  simp only [List.nil_append, List.cons_append, List.getD_cons_zero, List.getD_cons_succ,
    List.getD_nil, UInt8.toNat_zero]
  omega

theorem decodeFrom_one (a : UInt8) : decodeFrom [] (encode [a]) = some [a] := by
  have small := a.toNat_lt
  have high : a.toNat * 65536 / 262144 < 64 := by omega
  rw [encode, decodeFrom_digit high (by simp),
    decodeFrom_digit (Nat.mod_lt _ (by decide)) (by simp),
    decodeFrom_pad rfl, quantum_eq a 0 0]
  · rfl
  simp only [List.nil_append, List.cons_append, List.getD_cons_zero, List.getD_cons_succ,
    List.getD_nil, UInt8.toNat_zero]
  omega

theorem decodeFrom_encode (data : Bytes) : decodeFrom [] (encode data) = some data := by
  fun_induction encode data with
  | case1 a b c rest val ih =>
      rw [← encode, decodeFrom_three, ih]
      rfl
  | case2 a b val => exact decodeFrom_two a b
  | case3 a val => exact decodeFrom_one a
  | case4 => rfl

/-- What was encoded is read back, however its lines were broken afterwards. -/
theorem decode_of_unbroken {text data : Bytes} (broken : unbroken text = encode data) :
    decode text = some data := by
  rw [decode, ← decodeFrom_unbroken, broken, decodeFrom_encode]

end Go.Base64
