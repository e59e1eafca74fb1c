import CommonGo.Go.Utf8
import Mathlib.Data.List.DropRight

/-!
# Unicode classes and string functions of Go

`unicode.IsSpace` and `unicode.IsDigit` with the tables of Unicode 15.0, and the functions of
`strings` and `unicode/utf8` that scan a string from either end.
-/

namespace Go

/-! ## Character classes -/

/-- `unicode.IsSpace`: the `White_Space` property. -/
def isSpace (r : Nat) : Bool :=
  (0x09 ≤ r && r ≤ 0x0D) || r == 0x20 || r == 0x85 || r == 0xA0 || r == 0x1680 ||
    (0x2000 ≤ r && r ≤ 0x200A) || r == 0x2028 || r == 0x2029 || r == 0x202F || r == 0x205F ||
    r == 0x3000

/-- Ranges of category `Nd` above Latin-1. -/
def digitRanges : List (Nat × Nat) :=
  [(0x0660, 0x0669), (0x06F0, 0x06F9), (0x07C0, 0x07C9), (0x0966, 0x096F), (0x09E6, 0x09EF),
    (0x0A66, 0x0A6F), (0x0AE6, 0x0AEF), (0x0B66, 0x0B6F), (0x0BE6, 0x0BEF), (0x0C66, 0x0C6F),
    (0x0CE6, 0x0CEF), (0x0D66, 0x0D6F), (0x0DE6, 0x0DEF), (0x0E50, 0x0E59), (0x0ED0, 0x0ED9),
    (0x0F20, 0x0F29), (0x1040, 0x1049), (0x1090, 0x1099), (0x17E0, 0x17E9), (0x1810, 0x1819),
    (0x1946, 0x194F), (0x19D0, 0x19D9), (0x1A80, 0x1A89), (0x1A90, 0x1A99), (0x1B50, 0x1B59),
    (0x1BB0, 0x1BB9), (0x1C40, 0x1C49), (0x1C50, 0x1C59), (0xA620, 0xA629), (0xA8D0, 0xA8D9),
    (0xA900, 0xA909), (0xA9D0, 0xA9D9), (0xA9F0, 0xA9F9), (0xAA50, 0xAA59), (0xABF0, 0xABF9),
    (0xFF10, 0xFF19), (0x104A0, 0x104A9), (0x10D30, 0x10D39), (0x11066, 0x1106F),
    (0x110F0, 0x110F9), (0x11136, 0x1113F), (0x111D0, 0x111D9), (0x112F0, 0x112F9),
    (0x11450, 0x11459), (0x114D0, 0x114D9), (0x11650, 0x11659), (0x116C0, 0x116C9),
    (0x11730, 0x11739), (0x118E0, 0x118E9), (0x11950, 0x11959), (0x11C50, 0x11C59),
    (0x11D50, 0x11D59), (0x11DA0, 0x11DA9), (0x11F50, 0x11F59), (0x16A60, 0x16A69),
    (0x16AC0, 0x16AC9), (0x16B50, 0x16B59), (0x1D7CE, 0x1D7FF), (0x1E140, 0x1E149),
    (0x1E2F0, 0x1E2F9), (0x1E4F0, 0x1E4F9), (0x1E950, 0x1E959), (0x1FBF0, 0x1FBF9)]

/-- `unicode.IsDigit`: the decimal digits. -/
def isDigit (r : Nat) : Bool :=
  if r ≤ 0xFF then 0x30 ≤ r && r ≤ 0x39
  else digitRanges.any fun range => range.1 ≤ r && r ≤ range.2

theorem isDigit_ascii {r : Nat} (small : r < 0x80) : isDigit r ↔ 0x30 ≤ r ∧ r ≤ 0x39 := by
  simp [isDigit, show r ≤ 0xFF by omega]

theorem isSpace_ascii {r : Nat} (small : r < 0x80) :
    isSpace r ↔ (0x09 ≤ r ∧ r ≤ 0x0D) ∨ r = 0x20 := by
  simp only [isSpace, Bool.or_eq_true, Bool.and_eq_true, decide_eq_true_eq, beq_iff_eq]
  omega

theorem validRune_of_isSpace {r : Nat} (space : isSpace r) : validRune r := by
  simp only [isSpace, Bool.or_eq_true, Bool.and_eq_true, decide_eq_true_eq, beq_iff_eq] at space
  rw [validRune_iff]
  omega

theorem validRune_of_isDigit {r : Nat} (digit : isDigit r) : validRune r := by
  rw [validRune_iff]
  unfold isDigit at digit
  split_ifs at digit with small
  · omega
  · obtain ⟨range, member, within⟩ := List.any_eq_true.mp digit
    have scalar : ∀ range ∈ digitRanges,
        range.2 < 0xD800 ∨ 0xDFFF < range.1 ∧ range.2 ≤ 0x10FFFF := by
      decide
    have bounds := scalar range member
    simp only [Bool.and_eq_true, decide_eq_true_eq] at within
    omega

/-- No white space is a digit. -/
theorem isDigit_of_isSpace {r : Nat} (space : isSpace r) : isDigit r = false := by
  simp only [isSpace, Bool.or_eq_true, Bool.and_eq_true, decide_eq_true_eq, beq_iff_eq] at space
  rcases space with ((((((((((low | rfl) | rfl) | rfl) | rfl) | block) | rfl) | rfl) | rfl) |
    rfl) | rfl)
  · simp only [isDigit, show r ≤ 0xFF by omega, if_true, Bool.and_eq_false_iff,
      decide_eq_false_iff_not]
    omega
  all_goals try decide
  obtain ⟨lower, upper⟩ := block
  interval_cases r <;> decide

/-! ## Literals -/

/-- The bytes of an ASCII string. -/
def ascii (s : String) : Bytes := s.toList.map fun c => UInt8.ofNat c.toNat

/-! ## Searching -/

/-- `strings.IndexByte`, with `none` for a missing byte. -/
def indexByte (s : Bytes) (b : UInt8) : Option Nat := s.findIdx? (· == b)

/-- `strings.Index`: the position of the first occurrence, with `none` for a missing one. -/
def index : Bytes → Bytes → Option Nat
  | [], sub => if sub.isPrefixOf [] then some 0 else none
  | b :: rest, sub =>
      if sub.isPrefixOf (b :: rest) then some 0 else (index rest sub).map (· + 1)

theorem indexByte_append {front : Bytes} {b : UInt8} (rest : Bytes) (absent : b ∉ front) :
    indexByte (front ++ b :: rest) b = some front.length := by
  simp only [indexByte, List.findIdx?_append, List.findIdx?_cons, beq_self_eq_true, if_true]
  rw [List.findIdx?_eq_none_iff.mpr]
  · simp
  · intro c member
    simp only [beq_eq_false_iff_ne]
    rintro rfl
    exact absent member

/-- The empty string has the empty string only. -/
theorem index_nil_eq_some {sub : Bytes} {position : Nat} (found : index [] sub = some position) :
    sub = [] ∧ position = 0 := by
  simp only [index] at found
  split_ifs at found with matches_here
  exact ⟨by simpa using matches_here, (Option.some.inj found).symm⟩

/-- The first occurrence stands here, or it stands further on and not here. -/
theorem index_cons_eq_some {b : UInt8} {rest sub : Bytes} {position : Nat}
    (found : index (b :: rest) sub = some position) :
    sub <+: b :: rest ∧ position = 0 ∨
      ¬ sub <+: b :: rest ∧ ∃ later, index rest sub = some later ∧ position = later + 1 := by
  simp only [index, List.isPrefixOf_iff_prefix] at found
  split_ifs at found with matches_here
  · exact Or.inl ⟨matches_here, (Option.some.inj found).symm⟩
  · obtain ⟨later, later_found, rfl⟩ := Option.map_eq_some_iff.mp found
    exact Or.inr ⟨matches_here, later, later_found, rfl⟩

theorem index_cons_of_isPrefix {b : UInt8} {rest sub : Bytes} (here : sub <+: b :: rest) :
    index (b :: rest) sub = some 0 := by
  rw [index, if_pos (List.isPrefixOf_iff_prefix.mpr here)]

theorem index_cons_of_not_isPrefix {b : UInt8} {rest sub : Bytes} (other : ¬ sub <+: b :: rest) :
    index (b :: rest) sub = (index rest sub).map (· + 1) := by
  rw [index, if_neg (mt List.isPrefixOf_iff_prefix.mp other)]

/-- A found occurrence lies inside the string. -/
theorem index_length_le {s sub : Bytes} {position : Nat} (found : index s sub = some position) :
    position + sub.length ≤ s.length := by
  induction s generalizing position with
  | nil =>
      obtain ⟨rfl, rfl⟩ := index_nil_eq_some found
      exact le_rfl
  | cons b rest ih =>
      obtain ⟨here, rfl⟩ | ⟨_, later, later_found, rfl⟩ := index_cons_eq_some found
      · simpa using here.length_le
      · have := ih later_found
        simp only [List.length_cons]
        omega

/-- Text behind the first occurrence does not move it. -/
theorem index_append {s sub : Bytes} {position : Nat} (rest : Bytes)
    (found : index s sub = some position) : index (s ++ rest) sub = some position := by
  induction s generalizing position with
  | nil =>
      obtain ⟨rfl, rfl⟩ := index_nil_eq_some found
      cases rest <;> simp [index]
  | cons b tail ih =>
      have within := index_length_le found
      rw [List.cons_append]
      obtain ⟨here, rfl⟩ | ⟨other, later, later_found, rfl⟩ := index_cons_eq_some found
      · exact index_cons_of_isPrefix (here.trans ⟨rest, rfl⟩)
      · rw [index_cons_of_not_isPrefix, ih later_found]
        · rfl
        · intro early
          refine other (List.prefix_of_prefix_length_le early ⟨rest, rfl⟩ ?_)
          omega

/-- A prefix without the separator ends in front of it. -/
theorem isPrefix_of_notMem {front more sub : Bytes} {separator : UInt8}
    (found : sub <+: front ++ separator :: more) (absent : separator ∉ sub) : sub <+: front := by
  induction front generalizing sub with
  | nil =>
      cases sub with
      | nil => exact List.nil_prefix
      | cons b sub =>
          have head_eq := (List.cons_prefix_cons.mp found).1
          exact absurd (by simp [head_eq]) absent
  | cons a front ih =>
      cases sub with
      | nil => exact List.nil_prefix
      | cons b sub =>
          rw [List.cons_append, List.cons_prefix_cons] at found
          rw [List.cons_prefix_cons]
          exact ⟨found.1, ih found.2 fun member => absent (List.mem_cons_of_mem b member)⟩

theorem index_self (sub : Bytes) : index sub sub = some 0 := by
  cases sub <;> simp [index]

/-- The first occurrence splits the string and stays the first one in front of it. -/
theorem index_split {s sub : Bytes} {position : Nat} (found : index s sub = some position) :
    s = s.take position ++ (sub ++ s.drop (position + sub.length)) ∧
      index (s.take position ++ sub) sub = some position := by
  induction s generalizing position with
  | nil =>
      obtain ⟨rfl, rfl⟩ := index_nil_eq_some found
      simp [index]
  | cons b rest ih =>
      obtain ⟨⟨more, text⟩, rfl⟩ | ⟨other, later, later_found, rfl⟩ := index_cons_eq_some found
      · rw [← text]
        simpa using index_self sub
      · obtain ⟨text, first⟩ := ih later_found
        constructor
        · rw [List.take_succ_cons, Nat.add_right_comm, List.drop_succ_cons, List.cons_append,
            ← text]
        · rw [List.take_succ_cons, List.cons_append, index_cons_of_not_isPrefix, first]
          · rfl
          · intro early
            refine other (early.trans ?_)
            refine List.cons_prefix_cons.mpr ⟨rfl, rest.drop (later + sub.length), ?_⟩
            rw [List.append_assoc, ← text]

/-- Behind a separator the first occurrence is found where it stands. -/
theorem index_append_of_none {s sub : Bytes} {separator : UInt8} (more : Bytes)
    (absent : index s sub = none) (outside : separator ∉ sub) :
    index (s ++ separator :: (sub ++ more)) sub = some (s.length + 1) := by
  have nonempty : sub ≠ [] := by
    rintro rfl
    cases s <;> simp [index] at absent
  induction s with
  | nil =>
      have later := index_append more (index_self sub)
      rw [List.nil_append, index_cons_of_not_isPrefix, later]
      · rfl
      · intro early
        have found : sub <+: [] ++ separator :: (sub ++ more) := early
        exact nonempty (List.prefix_nil.mp (isPrefix_of_notMem found outside))
  | cons b s ih =>
      have other : ¬ sub <+: b :: s := by
        intro here
        rw [index_cons_of_isPrefix here] at absent
        cases absent
      rw [index_cons_of_not_isPrefix other] at absent
      rw [List.cons_append, index_cons_of_not_isPrefix, ih (by simpa using absent)]
      · rfl
      · intro early
        rw [← List.cons_append] at early
        exact other (isPrefix_of_notMem early outside)

/-! ## Trimming a byte -/

/-- `strings.TrimLeft` with one ASCII byte to trim. -/
def trimLeftByte (s : Bytes) (c : UInt8) : Bytes := s.dropWhile (· == c)

/-- `strings.TrimRight` with one ASCII byte to trim. -/
def trimRightByte (s : Bytes) (c : UInt8) : Bytes := s.rdropWhile (· == c)

/-- `strings.Trim` with one ASCII byte to trim. -/
def trimByte (s : Bytes) (c : UInt8) : Bytes := trimLeftByte (trimRightByte s c) c

private theorem dropWhile_rdropWhile (p : UInt8 → Bool) (s : Bytes) :
    (s.rdropWhile p).dropWhile p = (s.dropWhile p).rdropWhile p := by
  induction s using List.reverseRecOn with
  | nil => rfl
  | append_singleton s b ih =>
      rw [List.dropWhile_append]
      by_cases trims : p b = true
      · rw [List.rdropWhile_concat_pos _ _ _ trims, ih]
        split_ifs with nothing
        · rw [List.isEmpty_iff.mp nothing, List.dropWhile_cons_of_pos trims]
          rfl
        · rw [List.rdropWhile_concat_pos _ _ _ trims]
      · rw [List.rdropWhile_concat_neg _ _ _ trims, List.dropWhile_append]
        split_ifs with nothing
        · rw [List.dropWhile_cons_of_neg trims, List.rdropWhile_singleton, if_neg trims]
        · rw [List.rdropWhile_concat_neg _ _ _ trims]

/-- It does not matter which end is trimmed first. -/
theorem trimByte_eq (s : Bytes) (c : UInt8) : trimByte s c = trimRightByte (trimLeftByte s c) c :=
  dropWhile_rdropWhile (· == c) s

theorem trimLeftByte_replicate (count : Nat) (s : Bytes) (c : UInt8) :
    trimLeftByte (List.replicate count c ++ s) c = trimLeftByte s c := by
  refine List.dropWhile_append_of_pos fun b member => ?_
  simp [List.eq_of_mem_replicate member]

theorem trimRightByte_replicate (count : Nat) (s : Bytes) (c : UInt8) :
    trimRightByte (s ++ List.replicate count c) c = trimRightByte s c := by
  induction count with
  | zero => rw [List.replicate_zero, List.append_nil]
  | succ count ih =>
      rw [List.replicate_succ', ← List.append_assoc, trimRightByte,
        List.rdropWhile_concat_pos _ _ _ (by simp)]
      exact ih

theorem trimRightByte_of_getLast? {s : Bytes} {c : UInt8} (other : s.getLast? ≠ some c) :
    trimRightByte s c = s := by
  refine List.rdropWhile_eq_self_iff.mpr fun nonempty last => other ?_
  rw [List.getLast?_eq_some_getLast nonempty, beq_iff_eq.mp last]

theorem trimRightByte_append {s : Bytes} {c : UInt8} (other : s.getLast? ≠ some c) (t : Bytes) :
    trimRightByte (s ++ t) c = s ++ trimRightByte t c := by
  induction t using List.reverseRecOn with
  | nil =>
      rw [List.append_nil, trimRightByte_of_getLast? other]
      exact (List.append_nil s).symm
  | append_singleton t b ih =>
      simp only [trimRightByte, ← List.append_assoc] at ih ⊢
      by_cases trims : (b == c) = true
      · rw [List.rdropWhile_concat_pos (· == c) _ b trims,
          List.rdropWhile_concat_pos (· == c) _ b trims, ih]
      · rw [List.rdropWhile_concat_neg (· == c) _ b trims,
          List.rdropWhile_concat_neg (· == c) _ b trims, List.append_assoc]

theorem getLast?_trimRightByte (s : Bytes) (c : UInt8) : (trimRightByte s c).getLast? ≠ some c := by
  rw [trimRightByte]
  intro last
  have nonempty : s.rdropWhile (· == c) ≠ [] := by
    intro empty
    simp [empty] at last
  rw [List.getLast?_eq_some_getLast nonempty] at last
  exact List.rdropWhile_last_not _ s nonempty (by simpa using last)

theorem head?_trimLeftByte (s : Bytes) (c : UInt8) : (trimLeftByte s c).head? ≠ some c := by
  intro first
  have stops := List.head?_dropWhile_not (· == c) s
  rw [← trimLeftByte, first] at stops
  simp at stops

/-! ## Trimming and validity -/

/-- `utf8.RuneStart`. -/
def runeStart (b : UInt8) : Bool := !isCont b

/-- Where `utf8.DecodeLastRuneInString` starts decoding: the nearest rune start among the three
bytes before the last one. -/
def lastStart (s : Bytes) : Nat :=
  let n := s.length
  if 2 ≤ n ∧ (s[n - 2]?).any runeStart then n - 2
  else if 3 ≤ n ∧ (s[n - 3]?).any runeStart then n - 3
  else if 4 ≤ n ∧ (s[n - 4]?).any runeStart then n - 4
  else n - 5

/-- `utf8.DecodeLastRuneInString`. -/
def decodeLastRune (s : Bytes) : Nat × Nat :=
  match s.getLast? with
  | none => (runeError, 0)
  | some b =>
      if isAscii b then (b.toNat, 1)
      else
        let (r, size) := decodeRune (s.drop (lastStart s))
        if lastStart s + size = s.length then (r, size) else (runeError, 1)

private theorem length_drop_decodeRune (b : UInt8) (rest : Bytes) :
    ((b :: rest).drop (decodeRune (b :: rest)).2).length < (b :: rest).length := by
  have := decodeRune_width_pos (List.cons_ne_nil b rest)
  simp only [List.length_drop, List.length_cons]
  omega

/-- `strings.TrimLeftFunc`. -/
def trimLeft (p : Nat → Bool) : Bytes → Bytes
  | [] => []
  | b :: rest =>
      if p (decodeRune (b :: rest)).1 then
        trimLeft p ((b :: rest).drop (decodeRune (b :: rest)).2)
      else b :: rest
termination_by s => s.length
decreasing_by exact length_drop_decodeRune b rest

theorem decodeLastRune_width_pos {s : Bytes} (nonempty : s ≠ []) : 1 ≤ (decodeLastRune s).2 := by
  unfold decodeLastRune
  rw [List.getLast?_eq_some_getLast nonempty]
  simp only
  split_ifs with ascii fits
  · exact le_rfl
  · have : lastStart s < s.length := by
      have := List.length_pos_iff.mpr nonempty
      unfold lastStart
      simp only
      split_ifs <;> omega
    simp only
    omega
  · exact le_rfl

/-- `strings.TrimRightFunc`. -/
def trimRight (p : Nat → Bool) : Bytes → Bytes
  | [] => []
  | b :: rest =>
      if p (decodeLastRune (b :: rest)).1 then
        trimRight p ((b :: rest).take ((b :: rest).length - (decodeLastRune (b :: rest)).2))
      else b :: rest
termination_by s => s.length
decreasing_by
  have := decodeLastRune_width_pos (List.cons_ne_nil b rest)
  simp only [List.length_take, List.length_cons]
  omega

/-- `strings.TrimSpace`. -/
def trimSpace (s : Bytes) : Bytes := trimRight isSpace (trimLeft isSpace s)

/-- `utf8.ValidString`. -/
def validString : Bytes → Bool
  | [] => true
  | b :: rest =>
      if decodeRune (b :: rest) = (runeError, 1) then false
      else validString ((b :: rest).drop (decodeRune (b :: rest)).2)
termination_by s => s.length
decreasing_by exact length_drop_decodeRune b rest

/-- `utf8.RuneCountInString`. -/
def runeCount : Bytes → Nat
  | [] => 0
  | b :: rest => runeCount ((b :: rest).drop (decodeRune (b :: rest)).2) + 1
termination_by s => s.length
decreasing_by exact length_drop_decodeRune b rest

/-! ## Trimming at rune boundaries -/

/-- A non-ASCII encoding is a rune start followed by one to three continuation bytes. -/
theorem encodeRune_shape {r : Nat} (large : 0x80 ≤ r) :
    ∃ lead conts, encodeRune r = lead :: conts ∧ runeStart lead ∧ 1 ≤ conts.length ∧
      conts.length ≤ 3 ∧ ∀ b ∈ conts, isCont b := by
  unfold encodeRune
  rw [if_neg (by omega)]
  split_ifs with two scalar three
  · refine ⟨_, _, rfl, ?_, by simp, by simp, ?_⟩ <;> simp [runeStart, isCont] <;> omega
  · refine ⟨_, _, rfl, ?_, by simp, by simp, ?_⟩ <;> simp [runeStart, isCont] <;> omega
  · have bounds := validRune_iff.mp scalar
    refine ⟨_, _, rfl, ?_, by simp, by simp, ?_⟩ <;> simp [runeStart, isCont] <;> omega
  · refine ⟨_, _, rfl, ?_, by simp, by simp, ?_⟩ <;> simp [runeStart, isCont]

/-- The last rune of a string that ends in an encoded rune is that rune. -/
theorem decodeLastRune_append {r : Nat} (s : Bytes) (scalar : validRune r) :
    decodeLastRune (s ++ encodeRune r) = (r, (encodeRune r).length) := by
  rcases Nat.lt_or_ge r 0x80 with small | large
  · have value : (UInt8.ofNat r).toNat = r := by
      rw [UInt8.toNat_ofNat']
      omega
    rw [encodeRune_ascii small]
    simp [decodeLastRune, isAscii, value, small]
  · obtain ⟨lead, conts, shape, start, _, length_le, cont⟩ := encodeRune_shape large
    have decoded := decodeRune_encodeRune [] scalar
    rw [List.append_nil] at decoded
    have start_eq : lastStart (s ++ encodeRune r) = s.length := by
      rw [shape]
      rcases conts with _ | ⟨c₁, _ | ⟨c₂, _ | ⟨c₃, _ | ⟨c₄, conts⟩⟩⟩⟩
      · contradiction
      · simp [lastStart, start]
      · have cont₁ : runeStart c₁ = false := by simp [runeStart, cont]
        simp [lastStart, start, cont₁]
      · have cont₁ : runeStart c₁ = false := by simp [runeStart, cont]
        have cont₂ : runeStart c₂ = false := by simp [runeStart, cont]
        simp [lastStart, start, cont₁, cont₂]
      · simp only [List.length_cons] at length_le
        omega
    have last : ∃ b, (s ++ encodeRune r).getLast? = some b ∧ isAscii b = false := by
      rw [List.getLast?_append_of_ne_nil _ (encodeRune_ne_nil r)]
      obtain ⟨b, member⟩ :=
        Option.isSome_iff_exists.mp (List.getLast?_isSome.mpr (encodeRune_ne_nil r))
      refine ⟨b, member, ?_⟩
      have b_mem := List.mem_of_getLast? member
      have spec := decodeMultibyte_spec (decodeMultibyte_encodeRune [] large scalar)
      apply spec.2.2.2.2.1
      simpa using b_mem
    obtain ⟨b, last_eq, nonascii⟩ := last
    simp [decodeLastRune, last_eq, nonascii, start_eq, decoded]

theorem trimLeft_eq_self {p : Nat → Bool} {s : Bytes} (keep : p (decodeRune s).1 = false) :
    trimLeft p s = s := by
  cases s with
  | nil => simp [trimLeft]
  | cons b rest => simp [trimLeft, keep]

/-- A kept rune at the end stops trimming. -/
theorem trimRight_append_keep {p : Nat → Bool} {r : Nat} (s : Bytes) (scalar : validRune r)
    (keep : p r = false) : trimRight p (s ++ encodeRune r) = s ++ encodeRune r := by
  have last := decodeLastRune_append s scalar
  have nonempty : s ++ encodeRune r ≠ [] := by simp [encodeRune_ne_nil]
  obtain ⟨b, rest, shape⟩ := List.exists_cons_of_ne_nil nonempty
  rw [shape] at last ⊢
  rw [trimRight, last]
  simp [keep]

/-- A trimmed rune at the end is dropped. -/
theorem trimRight_append_drop {p : Nat → Bool} {r : Nat} (s : Bytes) (scalar : validRune r)
    (trim : p r) : trimRight p (s ++ encodeRune r) = trimRight p s := by
  have last := decodeLastRune_append s scalar
  have nonempty : s ++ encodeRune r ≠ [] := by simp [encodeRune_ne_nil]
  obtain ⟨b, rest, shape⟩ := List.exists_cons_of_ne_nil nonempty
  have front : (b :: rest).take ((b :: rest).length - (encodeRune r).length) = s := by
    rw [← shape]
    simp
  rw [shape] at last ⊢
  rw [trimRight, last]
  simp only [trim, if_true]
  rw [front]

end Go
