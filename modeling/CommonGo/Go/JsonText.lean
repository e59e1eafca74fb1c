import CommonGo.Go.Runes
import CommonGo.Go.Strconv
import CommonGo.Go.Url

/-!
# JSON texts

`encoding/json` as a pair of functions between values and bytes.  The writer escapes quotes, control
characters and what HTML could take for markup, and writes the replacement rune for a byte that
starts no rune.  The reader takes any JSON text.  Reading what was written gives the value back,
with the strings that `jsonString` makes of its strings.
-/

namespace Go

/-! ## Values -/

/-- A JSON value; a number is its literal. -/
inductive Json where
  | null
  | bool (value : Bool)
  | number (literal : Bytes)
  | string (text : Bytes)
  | array (items : List Json)
  | object (fields : List (Bytes × Json))

/-- The quote around strings. -/
def quoteByte : UInt8 := 0x22

/-- The byte before an escaped one. -/
def backslash : UInt8 := 0x5C

/-- The byte between members and elements. -/
def comma : UInt8 := 0x2C

/-! ## Writing -/

/-- The digits that the encoder writes. -/
def lowerHex (n : Nat) : UInt8 := if n < 10 then UInt8.ofNat (0x30 + n) else UInt8.ofNat (0x57 + n)

/-- An ASCII byte in a string. -/
def escapeAscii (b : UInt8) : Bytes :=
  if b = quoteByte ∨ b = backslash then [backslash, b]
  else if b = 0x08 then [backslash, 0x62]
  else if b = 0x0C then [backslash, 0x66]
  else if b = 0x0A then [backslash, 0x6E]
  else if b = 0x0D then [backslash, 0x72]
  else if b = 0x09 then [backslash, 0x74]
  else if b.toNat < 0x20 ∨ b = 0x3C ∨ b = 0x3E ∨ b = 0x26 then
    [backslash, 0x75, 0x30, 0x30, lowerHex (b.toNat / 16), lowerHex (b.toNat % 16)]
  else [b]

/-- `appendString` between the quotes, with escapes for HTML. -/
def escapeString : Bytes → Bytes
  | [] => []
  | b :: rest =>
      if isAscii b then escapeAscii b ++ escapeString rest
      else if decodeRune (b :: rest) = (runeError, 1) then ascii "\\ufffd" ++ escapeString rest
      else if (decodeRune (b :: rest)).1 = 0x2028 ∨ (decodeRune (b :: rest)).1 = 0x2029 then
        ascii "\\u202" ++ lowerHex ((decodeRune (b :: rest)).1 % 16) ::
          escapeString ((b :: rest).drop (decodeRune (b :: rest)).2)
      else (b :: rest).take (decodeRune (b :: rest)).2 ++
        escapeString ((b :: rest).drop (decodeRune (b :: rest)).2)
termination_by s => s.length
decreasing_by
  all_goals
    have positive := decodeRune_width_pos (List.cons_ne_nil b rest)
    simp only [List.length_drop, List.length_cons]
    omega

/-- A string with its quotes. -/
def quote (s : Bytes) : Bytes := quoteByte :: (escapeString s ++ [quoteByte])

/-- Texts with commas between them. -/
def separate : List Bytes → Bytes
  | [] => []
  | [text] => text
  | text :: next :: more => text ++ comma :: separate (next :: more)

namespace Json

/-- `json.Marshal`. -/
def encode : Json → Bytes
  | null => ascii "null"
  | bool true => ascii "true"
  | bool false => ascii "false"
  | number literal => literal
  | string text => quote text
  | array items => 0x5B :: (separate (items.map encode) ++ [0x5D])
  | object fields => 0x7B :: (separate (fields.map fun field =>
      quote field.1 ++ 0x3A :: encode field.2) ++ [0x7D])
termination_by value => sizeOf value
decreasing_by
  · have smaller := List.sizeOf_lt_of_mem ‹_ ∈ items›
    simp only [array.sizeOf_spec]
    omega
  · have smaller := List.sizeOf_lt_of_mem ‹_ ∈ fields›
    obtain ⟨key, value⟩ := field
    simp only [object.sizeOf_spec, Prod.mk.sizeOf_spec] at *
    omega

/-- A value as a reader of its encoding gets it. -/
def arrived : Json → Json
  | string text => string (jsonString text)
  | array items => array (items.map arrived)
  | object fields => object (fields.map fun field => (jsonString field.1, arrived field.2))
  | null => null
  | bool value => bool value
  | number literal => number literal
termination_by value => sizeOf value
decreasing_by
  · have smaller := List.sizeOf_lt_of_mem ‹_ ∈ items›
    simp only [array.sizeOf_spec]
    omega
  · have smaller := List.sizeOf_lt_of_mem ‹_ ∈ fields›
    obtain ⟨key, value⟩ := field
    simp only [object.sizeOf_spec, Prod.mk.sizeOf_spec] at *
    omega

end Json

/-! ## Reading -/

/-- Four hexadecimal digits. -/
def hexQuad : Bytes → Option Nat
  | a :: b :: c :: d :: _ =>
      if [a, b, c, d].all Url.ishex then
        some (((Url.unhex a * 16 + Url.unhex b) * 16 + Url.unhex c) * 16 + Url.unhex d)
      else none
  | _ => none

/-- What follows a backslash, as the bytes it stands for and the number of bytes it takes.  Half of
a surrogate pair stands for the replacement rune. -/
def readEscape : Bytes → Option (Bytes × Nat)
  | [] => none
  | b :: rest =>
      if b = quoteByte ∨ b = backslash ∨ b = 0x2F then some ([b], 1)
      else if b = 0x62 then some ([0x08], 1)
      else if b = 0x66 then some ([0x0C], 1)
      else if b = 0x6E then some ([0x0A], 1)
      else if b = 0x72 then some ([0x0D], 1)
      else if b = 0x74 then some ([0x09], 1)
      else if b = 0x75 then
        match hexQuad rest with
        | none => none
        | some high =>
            if 0xD800 ≤ high ∧ high < 0xE000 then
              match rest.drop 4 with
              | 0x5C :: 0x75 :: more =>
                  match hexQuad more with
                  | some low =>
                      if high < 0xDC00 ∧ 0xDC00 ≤ low ∧ low < 0xE000 then
                        some (encodeRune (0x10000 + (high - 0xD800) * 0x400 + (low - 0xDC00)), 11)
                      else some (encodeRune runeError, 5)
                  | none => some (encodeRune runeError, 5)
              | _ => some (encodeRune runeError, 5)
            else some (encodeRune high, 5)
      else none

/-- A text in front of what was read. -/
def before (text : Bytes) (read : Bytes × Bytes) : Bytes × Bytes := (text ++ read.1, read.2)

/-- The string that starts behind a quote, and what follows its closing quote. -/
def readString : Bytes → Option (Bytes × Bytes)
  | [] => none
  | b :: rest =>
      if b = quoteByte then some ([], rest)
      else if b = backslash then
        match readEscape rest with
        | none => none
        | some (text, size) => (readString (rest.drop size)).map (before text)
      else if b.toNat < 0x20 then none
      else (readString ((b :: rest).drop (decodeRune (b :: rest)).2)).map
        (before (encodeRune (decodeRune (b :: rest)).1))
termination_by s => s.length
decreasing_by
  · simp only [List.length_drop, List.length_cons]
    omega
  · have positive := decodeRune_width_pos (List.cons_ne_nil b rest)
    simp only [List.length_drop, List.length_cons]
    omega

/-- White space between the parts of a text. -/
def isJsonSpace (b : UInt8) : Bool := b == 0x20 || b == 0x09 || b == 0x0D || b == 0x0A

/-- What is left behind white space. -/
def skipSpace (s : Bytes) : Bytes := s.dropWhile isJsonSpace

/-- Digits, at least one. -/
def scanDigits (s : Bytes) : Option (Bytes × Bytes) :=
  if s.takeWhile isDecimal = [] then none
  else some (s.takeWhile isDecimal, s.dropWhile isDecimal)

/-- The integer part of a number: zero, or digits that start with another one. -/
def scanInteger : Bytes → Option (Bytes × Bytes)
  | [] => none
  | b :: rest => if b = 0x30 then some ([b], rest) else scanDigits (b :: rest)

/-- The fraction of a number, if there is one. -/
def scanFraction : Bytes → Option (Bytes × Bytes)
  | [] => some ([], [])
  | b :: rest =>
      if b = 0x2E then (scanDigits rest).map (before [b]) else some ([], b :: rest)

/-- The sign of an exponent, if there is one. -/
def scanSign : Bytes → Bytes × Bytes
  | [] => ([], [])
  | b :: rest => if b = 0x2D ∨ b = 0x2B then ([b], rest) else ([], b :: rest)

/-- The exponent of a number, if there is one. -/
def scanExponent : Bytes → Option (Bytes × Bytes)
  | [] => some ([], [])
  | b :: rest =>
      if b = 0x65 ∨ b = 0x45 then
        (scanDigits (scanSign rest).2).map (before (b :: (scanSign rest).1))
      else some ([], b :: rest)

/-- A number without its sign, and what follows it. -/
def scanUnsigned (s : Bytes) : Option (Bytes × Bytes) := do
  let integer ← scanInteger s
  let fraction ← scanFraction integer.2
  let exponent ← scanExponent fraction.2
  return (integer.1 ++ fraction.1 ++ exponent.1, exponent.2)

/-- A number literal and what follows it. -/
def scanNumber : Bytes → Option (Bytes × Bytes)
  | [] => none
  | b :: rest =>
      if b = 0x2D then (scanUnsigned rest).map (before [b]) else scanUnsigned (b :: rest)

/-- A keyword and what follows it. -/
def readKeyword (keyword : String) (value : Json) (s : Bytes) : Option (Json × Bytes) :=
  if (ascii keyword).isPrefixOf s then some (value, s.drop (ascii keyword).length) else none

/-- A value that holds no others. -/
def readScalar : Bytes → Option (Json × Bytes)
  | [] => none
  | b :: rest =>
      if b = quoteByte then (readString rest).map fun (text, rest) => (.string text, rest)
      else if b = 0x74 then readKeyword "true" (.bool true) (b :: rest)
      else if b = 0x66 then readKeyword "false" (.bool false) (b :: rest)
      else if b = 0x6E then readKeyword "null" .null (b :: rest)
      else (scanNumber (b :: rest)).map fun (literal, rest) => (.number literal, rest)

section Items

variable {α β : Type} (item : Bytes → Option (α × Bytes)) (close : UInt8)

/-- Items with commas between them and a closing byte behind the last. -/
def readItems : Nat → Bytes → Option (List α × Bytes)
  | 0, _ => none
  | bound + 1, s =>
      match item s with
      | none => none
      | some (value, rest) =>
          match skipSpace rest with
          | [] => none
          | b :: rest =>
              if b = comma then
                (readItems bound rest).map fun (values, rest) => (value :: values, rest)
              else if b = close then some ([value], rest)
              else none

/-- Any number of items; each of them has a byte at least. -/
def readList (s : Bytes) : Option (List α × Bytes) :=
  match skipSpace s with
  | [] => none
  | b :: rest => if b = close then some ([], rest) else readItems item close s.length (b :: rest)

end Items

/-- The colon behind a key, and the value behind it. -/
def readMember (value : Bytes → Option (Json × Bytes)) (key s : Bytes) :
    Option ((Bytes × Json) × Bytes) :=
  match skipSpace s with
  | [] => none
  | b :: rest =>
      if b = 0x3A then (value rest).map fun (value, rest) => ((key, value), rest) else none

/-- A key with its value. -/
def readField (value : Bytes → Option (Json × Bytes)) (s : Bytes) :
    Option ((Bytes × Json) × Bytes) :=
  match skipSpace s with
  | [] => none
  | b :: rest =>
      if b = quoteByte then
        match readString rest with
        | none => none
        | some (key, rest) => readMember value key rest
      else none

/-- A value with as many levels of arrays and objects as are allowed, and what follows it. -/
def readValue : Nat → Bytes → Option (Json × Bytes)
  | 0, s => readScalar (skipSpace s)
  | levels + 1, s =>
      match skipSpace s with
      | [] => none
      | b :: rest =>
          if b = 0x5B then
            (readList (readValue levels) 0x5D rest).map fun (items, rest) => (.array items, rest)
          else if b = 0x7B then
            (readList (readField (readValue levels)) 0x7D rest).map fun (fields, rest) =>
              (.object fields, rest)
          else readScalar (b :: rest)

/-- `maxNestingDepth`. -/
def maxNestingDepth : Nat := 10000

/-- `json.Unmarshal`: the value of a text. -/
def readJson (s : Bytes) : Option Json :=
  match readValue maxNestingDepth s with
  | some (value, rest) => if skipSpace rest = [] then some value else none
  | none => none

/-! ## Strings come back -/

section Strings

variable {b : UInt8} {s more text out : Bytes}

theorem readString_escape (escaped : readEscape (text ++ more) = some (out, text.length)) :
    readString (backslash :: (text ++ more)) = (readString more).map (before out) := by
  rw [readString, if_neg (by decide), if_pos rfl, escaped]
  simp

theorem readString_rune (plain : b ≠ quoteByte ∧ b ≠ backslash ∧ 0x20 ≤ b.toNat) (rest : Bytes) :
    readString (b :: rest) = (readString ((b :: rest).drop (decodeRune (b :: rest)).2)).map
      (before (encodeRune (decodeRune (b :: rest)).1)) := by
  rw [readString, if_neg plain.1, if_neg plain.2.1, if_neg (by omega)]

/-- A rune by its number. -/
theorem readEscape_number {n : Nat} {rest : Bytes} (quad : hexQuad rest = some n)
    (single : ¬ (0xD800 ≤ n ∧ n < 0xE000)) :
    readEscape (0x75 :: rest) = some (encodeRune n, 5) := by
  rw [readEscape, if_neg (by decide), if_neg (by decide), if_neg (by decide), if_neg (by decide),
    if_neg (by decide), if_neg (by decide), if_pos rfl, quad]
  exact if_neg single

/-- The hexadecimal digits of a byte. -/
theorem hexQuad_lowerHex {n : Nat} (small : n < 0x80) (more : Bytes) :
    hexQuad (0x30 :: 0x30 :: lowerHex (n / 16) :: lowerHex (n % 16) :: more) = some n := by
  have digits : ∀ n < 0x80,
      [0x30, 0x30, lowerHex (n / 16), lowerHex (n % 16)].all Url.ishex = true ∧
      ((Url.unhex 0x30 * 16 + Url.unhex 0x30) * 16 + Url.unhex (lowerHex (n / 16))) * 16 +
        Url.unhex (lowerHex (n % 16)) = n := by decide
  rw [hexQuad, if_pos (digits n small).1, (digits n small).2]

theorem readString_letter {letter : UInt8}
    (simple : ∀ more, readEscape (letter :: more) = some ([b], 1)) (more : Bytes) :
    readString ([backslash, letter] ++ more) = (readString more).map (before [b]) :=
  @readString_escape more [letter] [b] (simple more)

/-- One ASCII byte comes back: as a letter behind a backslash, by its number, or as it is. -/
theorem readString_escapeAscii (ascii : isAscii b = true) (more : Bytes) :
    readString (escapeAscii b ++ more) = (readString more).map (before [b]) := by
  have small : b.toNat < 0x80 := by simpa [isAscii] using ascii
  have one : encodeRune b.toNat = [b] := encodeRune_toNat ascii
  rw [escapeAscii]
  split_ifs with quoted backspace feed newline carriage tab numbered
  · refine readString_letter (fun more => ?_) more
    rw [readEscape, if_pos (by tauto)]
  · exact readString_letter (fun more => by subst backspace; rfl) more
  · exact readString_letter (fun more => by subst feed; rfl) more
  · exact readString_letter (fun more => by subst newline; rfl) more
  · exact readString_letter (fun more => by subst carriage; rfl) more
  · exact readString_letter (fun more => by subst tab; rfl) more
  · refine @readString_escape more
      [0x75, 0x30, 0x30, lowerHex (b.toNat / 16), lowerHex (b.toNat % 16)] [b] ?_
    have number := readEscape_number (hexQuad_lowerHex small more) (by omega)
    rw [one] at number
    exact number
  · rw [List.singleton_append, readString_rune ⟨by tauto, by tauto, by omega⟩,
      decodeRune_ascii more ascii, one]
    rfl

/-- A rune of several bytes comes back as it is. -/
theorem readString_multibyte {rest : Bytes} (nonascii : isAscii b = false)
    (decodes : decodeRune (b :: rest) ≠ (runeError, 1)) (more : Bytes) :
    readString ((b :: rest).take (decodeRune (b :: rest)).2 ++ more) =
      (readString more).map (before (encodeRune (decodeRune (b :: rest)).1)) := by
  have large : 0x80 ≤ b.toNat := by simpa [isAscii] using nonascii
  have plain : b ≠ quoteByte ∧ b ≠ backslash ∧ 0x20 ≤ b.toNat := by
    refine ⟨?_, ?_, by omega⟩ <;> rintro rfl <;> exact absurd large (by decide)
  have whole := take_decodeRune (List.cons_ne_nil b rest) decodes
  have decoded := decodeRune_encodeRune more (decodeRune_valid (b :: rest))
  obtain ⟨size, width⟩ := Nat.exists_eq_add_of_le (decodeRune_width_pos (List.cons_ne_nil b rest))
  have shape : encodeRune (decodeRune (b :: rest)).1 = b :: rest.take size := by
    rw [whole, width, Nat.add_comm, List.take_succ_cons]
  rw [← whole]
  rw [shape, List.cons_append] at decoded ⊢
  rw [readString_rune plain, decoded, ← List.cons_append, List.drop_left, shape]

/-- A string comes back with the replacement rune for every byte that starts no rune. -/
theorem readString_escapeString (s more : Bytes) :
    readString (escapeString s ++ more) = (readString more).map (before (jsonString s)) := by
  induction s using jsonString.induct with
  | case1 =>
      rw [escapeString, jsonString, List.nil_append]
      cases readString more <;> rfl
  | case2 b rest ih =>
      have joined : ∀ text, (readString (escapeString ((b :: rest).drop
          (decodeRune (b :: rest)).2) ++ more)).map (before text) =
          (readString more).map (before (text ++
            jsonString ((b :: rest).drop (decodeRune (b :: rest)).2))) := by
        intro text
        rw [ih, Option.map_map]
        congr 1
        funext read
        simp [before]
      rw [escapeString, jsonString, ← joined]
      split_ifs with ascii invalid separator
      · rw [List.append_assoc, readString_escapeAscii ascii, decodeRune_ascii rest ascii,
          encodeRune_toNat ascii]
        rfl
      · have number : readEscape ([0x75, 0x66, 0x66, 0x66, 0x64] ++ (escapeString rest ++ more)) =
            some (encodeRune runeError, 5) := readEscape_number rfl (by decide)
        rw [invalid, List.append_assoc]
        exact readString_escape number
      · rw [List.append_assoc, List.cons_append]
        refine @readString_escape _ [0x75, 0x32, 0x30, 0x32,
          lowerHex ((decodeRune (b :: rest)).1 % 16)] _ (readEscape_number ?_ ?_)
        · rcases separator with line | paragraph
          · rw [line]
            rfl
          · rw [paragraph]
            rfl
        · omega
      · rw [List.append_assoc]
        exact readString_multibyte (Bool.eq_false_of_not_eq_true ascii) invalid _

theorem readString_quote (s rest : Bytes) :
    readString (escapeString s ++ quoteByte :: rest) = some (jsonString s, rest) := by
  rw [readString_escapeString, readString, if_pos rfl]
  simp [before]

end Strings

/-! ## Numbers come back -/

section Numbers

variable {s rest scanned left : Bytes} {b : UInt8}

/-- What may follow a value: a comma, a closing byte or the end. -/
def Stops (rest : Bytes) : Prop := ∀ b ∈ rest.head?, b = comma ∨ b = 0x5D ∨ b = 0x7D

theorem stops_nil : Stops [] := by simp [Stops]

theorem stops_cons : Stops (b :: rest) ↔ b = comma ∨ b = 0x5D ∨ b = 0x7D := by simp [Stops]

/-- A scan that ends in a text, or at its end before another byte, ends there in a longer one. -/
theorem takeWhile_append_of_stop {p : UInt8 → Bool} (stops : ∀ b ∈ rest.head?, p b = false) :
    (s ++ rest).takeWhile p = s.takeWhile p ∧
      (s ++ rest).dropWhile p = s.dropWhile p ++ rest := by
  induction s with
  | nil =>
      cases rest with
      | nil => exact ⟨rfl, rfl⟩
      | cons b rest => simp [stops b rfl]
  | cons b s ih =>
      cases holds : p b with
      | true => simpa [holds] using ih
      | false => simp [holds]

theorem scanDigits_append (stops : Stops rest) (digits : scanDigits s = some (scanned, left)) :
    scanDigits (s ++ rest) = some (scanned, left ++ rest) := by
  have ends : ∀ b ∈ rest.head?, isDecimal b = false := by
    intro b first
    rcases stops b first with rfl | rfl | rfl <;> rfl
  obtain ⟨taken, dropped⟩ := @takeWhile_append_of_stop s rest isDecimal ends
  rw [scanDigits] at digits ⊢
  rw [taken, dropped]
  split_ifs at digits ⊢ with none
  cases digits
  rfl

theorem scanInteger_append (stops : Stops rest) (integer : scanInteger s = some (scanned, left)) :
    scanInteger (s ++ rest) = some (scanned, left ++ rest) := by
  cases s with
  | nil => cases integer
  | cons b s =>
      rw [List.cons_append]
      rw [scanInteger] at integer ⊢
      split_ifs at integer ⊢ with zero
      · cases integer
        rfl
      · exact scanDigits_append stops integer

theorem scanFraction_append (stops : Stops rest)
    (fraction : scanFraction s = some (scanned, left)) :
    scanFraction (s ++ rest) = some (scanned, left ++ rest) := by
  cases s with
  | nil =>
      cases fraction
      cases rest with
      | nil => rfl
      | cons b rest =>
          refine if_neg ?_
          rcases stops_cons.mp stops with rfl | rfl | rfl <;> decide
  | cons b s =>
      rw [List.cons_append]
      rw [scanFraction] at fraction ⊢
      split_ifs at fraction ⊢ with dot
      · obtain ⟨⟨digits, after⟩, found, same⟩ := Option.map_eq_some_iff.mp fraction
        cases same
        rw [scanDigits_append stops found]
        rfl
      · cases fraction
        rfl

theorem scanSign_append (stops : Stops rest) :
    scanSign (s ++ rest) = ((scanSign s).1, (scanSign s).2 ++ rest) := by
  cases s with
  | nil =>
      cases rest with
      | nil => rfl
      | cons b rest =>
          refine if_neg ?_
          rcases stops_cons.mp stops with rfl | rfl | rfl <;> decide
  | cons b s =>
      rw [List.cons_append, scanSign, scanSign]
      split_ifs <;> rfl

theorem scanExponent_append (stops : Stops rest)
    (exponent : scanExponent s = some (scanned, left)) :
    scanExponent (s ++ rest) = some (scanned, left ++ rest) := by
  cases s with
  | nil =>
      cases exponent
      cases rest with
      | nil => rfl
      | cons b rest =>
          refine if_neg ?_
          rcases stops_cons.mp stops with rfl | rfl | rfl <;> decide
  | cons b s =>
      rw [List.cons_append]
      rw [scanExponent] at exponent ⊢
      split_ifs at exponent ⊢ with mark
      · obtain ⟨⟨digits, after⟩, found, same⟩ := Option.map_eq_some_iff.mp exponent
        cases same
        rw [scanSign_append stops, scanDigits_append stops found]
        rfl
      · cases exponent
        rfl

theorem scanUnsigned_append (stops : Stops rest)
    (number : scanUnsigned s = some (scanned, left)) :
    scanUnsigned (s ++ rest) = some (scanned, left ++ rest) := by
  simp only [scanUnsigned, Option.bind_eq_bind, Option.bind_eq_some_iff] at number ⊢
  obtain ⟨integer, first, fraction, second, exponent, third, same⟩ := number
  cases same
  exact ⟨_, scanInteger_append stops first, _, scanFraction_append stops second, _,
    scanExponent_append stops third, rfl⟩

/-- A number is read to its end. -/
theorem scanNumber_append (stops : Stops rest) (number : scanNumber s = some (scanned, left)) :
    scanNumber (s ++ rest) = some (scanned, left ++ rest) := by
  cases s with
  | nil => cases number
  | cons b s =>
      rw [List.cons_append]
      rw [scanNumber] at number ⊢
      split_ifs at number ⊢ with minus
      · obtain ⟨⟨digits, after⟩, found, same⟩ := Option.map_eq_some_iff.mp number
        cases same
        rw [scanUnsigned_append stops found]
        rfl
      · exact scanUnsigned_append stops number

theorem scanUnsigned_formatNat (n : Nat) : scanUnsigned (formatNat n) = some (formatNat n, []) := by
  have integer : scanInteger (formatNat n) = some (formatNat n, []) := by
    obtain ⟨first, rest, shape, zero⟩ := formatNat_cons n
    have all := List.all_eq_true.mp (all_isDecimal_formatNat n)
    rw [shape] at all ⊢
    rw [scanInteger]
    split_ifs with start
    · rw [zero start]
    · rw [scanDigits, List.takeWhile_eq_self_iff.mpr all, List.dropWhile_eq_nil_iff.mpr all]
      rfl
  simp [scanUnsigned, integer, scanFraction, scanExponent]

theorem scanNumber_formatInt (n : Int) : scanNumber (formatInt n) = some (formatInt n, []) := by
  rw [formatInt]
  split
  · rw [scanNumber, if_pos rfl, scanUnsigned_formatNat]
    rfl
  · obtain ⟨first, rest, shape, _⟩ := formatNat_cons n.natAbs
    have decimal := List.all_eq_true.mp (all_isDecimal_formatNat n.natAbs) first (by simp [shape])
    have whole := scanUnsigned_formatNat n.natAbs
    rw [shape] at whole ⊢
    rw [scanNumber, if_neg, whole]
    rintro rfl
    cases decimal

end Numbers

end Go
