import CommonGo.Go.JsonText

/-!
# JSON values come back

Reading inverts writing for every value whose numbers are literals and whose levels the reader
allows.  What is written is valid UTF-8, so that a text may stand as a string within another text.
-/

namespace Go

/-! ## Values come back -/

section Lists

variable {α : Type} {item : Bytes → Option (α × Bytes)} {close : UInt8} {texts : List (Bytes × α)}

theorem skipSpace_cons {b : UInt8} (visible : isJsonSpace b = false) (rest : Bytes) :
    skipSpace (b :: rest) = b :: rest := by
  simp [skipSpace, visible]

/-- The first byte of an item: neither space nor the closing byte. -/
def Begins (close : UInt8) (text : Bytes) : Prop :=
  ∃ b rest, text = b :: rest ∧ isJsonSpace b = false ∧ b ≠ close

theorem length_le_separate (texts : List Bytes) : texts.length ≤ (separate texts).length + 1 := by
  induction texts with
  | nil => simp
  | cons text more ih =>
      cases more with
      | nil => simp
      | cons next more =>
          simp only [separate, List.length_cons, List.length_append] at ih ⊢
          omega

/-- Items that come back one by one come back together. -/
theorem readItems_separate {first : Bytes × α} {more : List (Bytes × α)} {bound : Nat}
    (each : ∀ entry ∈ first :: more, ∀ rest, Stops rest →
      item (entry.1 ++ rest) = some (entry.2, rest))
    (closes : close = 0x5D ∨ close = 0x7D) (enough : more.length < bound) (rest : Bytes) :
    readItems item close bound (separate ((first :: more).map Prod.fst) ++ close :: rest) =
      some ((first :: more).map Prod.snd, rest) := by
  induction more generalizing first bound with
  | nil =>
      cases bound with
      | zero => cases enough
      | succ bound =>
          have visible : isJsonSpace close = false ∧ close ≠ comma := by
            rcases closes with rfl | rfl <;> decide
          have here := each first List.mem_cons_self (close :: rest)
            (stops_cons.mpr (Or.inr closes))
          rw [readItems, List.map_singleton, separate, here]
          simp [skipSpace_cons visible.1, visible.2]
  | cons next more ih =>
      cases bound with
      | zero => cases enough
      | succ bound =>
          have later := ih (fun entry member => each entry (List.mem_cons_of_mem _ member))
            (Nat.lt_of_succ_lt_succ enough)
          have here := each first List.mem_cons_self
            (comma :: (separate ((next :: more).map Prod.fst) ++ close :: rest))
            (stops_cons.mpr (Or.inl rfl))
          rw [readItems, List.map_cons, List.map_cons, separate, List.append_assoc,
            List.cons_append, ← List.map_cons, here]
          simp only [skipSpace_cons (show isJsonSpace comma = false from rfl), if_true, later]
          rfl

theorem readList_separate
    (each : ∀ entry ∈ texts, ∀ rest, Stops rest → item (entry.1 ++ rest) = some (entry.2, rest))
    (begins : ∀ entry ∈ texts, Begins close entry.1) (closes : close = 0x5D ∨ close = 0x7D)
    (rest : Bytes) :
    readList item close (separate (texts.map Prod.fst) ++ close :: rest) =
      some (texts.map Prod.snd, rest) := by
  cases texts with
  | nil =>
      have visible : isJsonSpace close = false := by rcases closes with rfl | rfl <;> rfl
      rw [readList, List.map_nil, separate, List.nil_append, skipSpace_cons visible]
      exact if_pos rfl
  | cons first more =>
      obtain ⟨b, tail, shape, visible, opens⟩ := begins first List.mem_cons_self
      have start : ∃ tail,
          separate ((first :: more).map Prod.fst) ++ close :: rest = b :: tail := by
        cases more with
        | nil => exact ⟨_, by rw [List.map_singleton, separate, shape]; rfl⟩
        | cons next more => exact ⟨_, by rw [List.map_cons, List.map_cons, separate, shape]; rfl⟩
      obtain ⟨tail, start⟩ := start
      have enough : more.length <
          (separate ((first :: more).map Prod.fst) ++ close :: rest).length := by
        have bound := length_le_separate ((first :: more).map Prod.fst)
        simp only [List.length_map, List.length_append, List.length_cons] at bound ⊢
        omega
      have items := readItems_separate each closes enough rest
      rw [start] at items ⊢
      rw [readList, skipSpace_cons visible]
      simp only [if_neg opens]
      exact items

end Lists

namespace Json

/-- A number literal. -/
def IsNumber (literal : Bytes) : Prop :=
  scanNumber literal = some (literal, []) ∧ literal.all isAscii = true

/-- All numbers are literals, and there are no more levels of arrays and objects. -/
def Fits : Nat → Json → Prop
  | levels + 1, array items => ∀ item ∈ items, Fits levels item
  | levels + 1, object fields => ∀ field ∈ fields, Fits levels field.2
  | 0, array _ => False
  | 0, object _ => False
  | _, number literal => IsNumber literal
  | _, _ => True

/-- A value that holds no others. -/
def isScalar : Json → Bool
  | array _ => false
  | object _ => false
  | _ => true

/-- Induction over the levels of a value. -/
theorem Fits.induction {motive : Nat → Json → Prop}
    (scalar : ∀ levels value, value.isScalar = true → value.Fits levels → motive levels value)
    (list : ∀ levels items, (∀ item ∈ items, item.Fits levels ∧ motive levels item) →
      motive (levels + 1) (.array items))
    (record : ∀ levels fields,
      (∀ field ∈ fields, field.2.Fits levels ∧ motive levels field.2) →
      motive (levels + 1) (.object fields))
    {levels : Nat} {value : Json} (fits : value.Fits levels) : motive levels value := by
  induction levels generalizing value with
  | zero =>
      cases value with
      | array items => cases fits
      | object fields => cases fits
      | null => exact scalar _ _ rfl fits
      | bool value => exact scalar _ _ rfl fits
      | number literal => exact scalar _ _ rfl fits
      | string text => exact scalar _ _ rfl fits
  | succ levels ih =>
      cases value with
      | array items =>
          exact list levels items fun item member => ⟨fits item member, ih (fits item member)⟩
      | object fields =>
          exact record levels fields fun field member => ⟨fits field member, ih (fits field member)⟩
      | null => exact scalar _ _ rfl fits
      | bool value => exact scalar _ _ rfl fits
      | number literal => exact scalar _ _ rfl fits
      | string text => exact scalar _ _ rfl fits

end Json

theorem scanNumber_cons {b : UInt8} {rest : Bytes} {result : Bytes × Bytes}
    (number : scanNumber (b :: rest) = some result) : b = 0x2D ∨ isDecimal b = true := by
  rw [scanNumber] at number
  split_ifs at number with minus
  · exact Or.inl minus
  · refine Or.inr ?_
    simp only [scanUnsigned, Option.bind_eq_bind, Option.bind_eq_some_iff] at number
    obtain ⟨integer, first, _⟩ := number
    rw [scanInteger] at first
    split_ifs at first with zero
    · rw [zero]
      rfl
    · by_contra other
      simp [scanDigits, other] at first


/-- The bytes a number can start with are no others that a reader looks for. -/
theorem number_start : ∀ b : UInt8, b = 0x2D ∨ isDecimal b = true →
    isJsonSpace b = false ∧ b ≠ quoteByte ∧ b ≠ 0x5B ∧ b ≠ 0x5D ∧ b ≠ 0x7B ∧ b ≠ 0x7D ∧ b ≠ 0x74 ∧
      b ≠ 0x66 ∧ b ≠ 0x6E :=
  forall_byte (by decide +kernel)

/-- A value starts with a byte that is neither space nor a closing byte. -/
theorem Json.begins_encode {levels : Nat} {value : Json} (fits : value.Fits levels) {close : UInt8}
    (closes : close = 0x5D ∨ close = 0x7D) : Begins close value.encode := by
  have other : ∀ {b rest}, isJsonSpace b = false → b ≠ 0x5D → b ≠ 0x7D →
      Begins close (b :: rest) := by
    intro b rest visible bracket brace
    refine ⟨b, rest, rfl, visible, ?_⟩
    rcases closes with rfl | rfl
    · exact bracket
    · exact brace
  cases value with
  | null =>
      rw [encode]
      exact other rfl (by decide) (by decide)
  | bool value =>
      cases value <;> rw [encode] <;> exact other rfl (by decide) (by decide)
  | number literal =>
      rw [encode]
      have number : scanNumber literal = some (literal, []) := by
        cases levels <;> exact fits.1
      cases literal with
      | nil => cases number
      | cons b rest =>
          obtain ⟨visible, _, _, bracket, _, brace, _⟩ := number_start b (scanNumber_cons number)
          exact other visible bracket brace
  | string text =>
      rw [encode]
      exact other rfl (by decide) (by decide)
  | array items =>
      rw [encode]
      exact other rfl (by decide) (by decide)
  | object fields =>
      rw [encode]
      exact other rfl (by decide) (by decide)

section Values

variable {b : UInt8} {s rest : Bytes} {levels : Nat}

theorem readValue_of_readScalar {result : Json × Bytes} (visible : isJsonSpace b = false)
    (bracket : b ≠ 0x5B) (brace : b ≠ 0x7B) (read : readScalar (b :: s) = some result) :
    readValue levels (b :: s) = some result := by
  cases levels <;> simp [readValue, skipSpace_cons visible, bracket, brace, read]

theorem readKeyword_append (keyword : String) (value : Json) (rest : Bytes) :
    readKeyword keyword value (ascii keyword ++ rest) = some (value, rest) := by
  rw [readKeyword, if_pos (List.isPrefixOf_iff_prefix.mpr (List.prefix_append _ _)),
    List.drop_left]

theorem readValue_string (text rest : Bytes) :
    readValue levels (quote text ++ rest) = some (.string (jsonString text), rest) := by
  rw [quote, List.cons_append, List.append_assoc, List.singleton_append]
  refine readValue_of_readScalar rfl (by decide) (by decide) ?_
  rw [readScalar, if_pos rfl, readString_quote]
  rfl

theorem readValue_number (number : scanNumber s = some (s, [])) (stops : Stops rest) :
    readValue levels (s ++ rest) = some (.number s, rest) := by
  have whole := scanNumber_append stops number
  cases s with
  | nil => cases number
  | cons b s =>
      obtain ⟨visible, quotes, bracket, _, brace, _, t, f, n⟩ :=
        number_start b (scanNumber_cons number)
      rw [List.cons_append] at whole ⊢
      refine readValue_of_readScalar visible bracket brace ?_
      rw [readScalar, if_neg quotes, if_neg t, if_neg f, if_neg n, whole]
      rfl

/-- A field comes back if its value does. -/
theorem readField_encode {value : Bytes → Option (Json × Bytes)} {key text : Bytes} {read : Json}
    (reads : value (text ++ rest) = some (read, rest)) :
    readField value (quote key ++ 0x3A :: text ++ rest) = some ((jsonString key, read), rest) := by
  have shape : quote key ++ 0x3A :: text ++ rest =
      quoteByte :: (escapeString key ++ quoteByte :: 0x3A :: (text ++ rest)) := by
    simp [quote]
  rw [shape, readField, skipSpace_cons rfl]
  simp only [if_true, readString_quote]
  rw [readMember, skipSpace_cons rfl]
  simp [reads]

theorem readValue_array {items : List Json} (visible : ∀ item ∈ items, Begins 0x5D item.encode)
    (each : ∀ item ∈ items, ∀ rest, Stops rest →
      readValue levels (item.encode ++ rest) = some (item.arrived, rest)) (rest : Bytes) :
    readValue (levels + 1) ((Json.array items).encode ++ rest) =
      some ((Json.array items).arrived, rest) := by
  have list := @readList_separate _ (readValue levels) 0x5D
    (items.map fun item => (item.encode, item.arrived)) (by simpa using each)
    (by simpa using visible) (Or.inl rfl) rest
  rw [Json.encode, Json.arrived, List.cons_append, List.append_assoc, List.singleton_append,
    readValue, skipSpace_cons rfl]
  simp only [List.map_map, Function.comp_def] at list
  simp [list]

theorem readValue_object {fields : List (Bytes × Json)}
    (each : ∀ field ∈ fields, ∀ rest, Stops rest →
      readValue levels (field.2.encode ++ rest) = some (field.2.arrived, rest)) (rest : Bytes) :
    readValue (levels + 1) ((Json.object fields).encode ++ rest) =
      some ((Json.object fields).arrived, rest) := by
  have list := @readList_separate _ (readField (readValue levels)) 0x7D
    (fields.map fun field => (quote field.1 ++ 0x3A :: field.2.encode,
      (jsonString field.1, field.2.arrived))) ?_ ?_ (Or.inr rfl) rest
  · rw [Json.encode, Json.arrived, List.cons_append, List.append_assoc, List.singleton_append,
      readValue, skipSpace_cons rfl]
    simp only [List.map_map, Function.comp_def] at list
    simp [list]
  · simp only [List.forall_mem_map]
    intro field member rest stops
    exact readField_encode (each field member rest stops)
  · simp only [List.forall_mem_map]
    intro field _
    exact ⟨quoteByte, _, rfl, rfl, by decide⟩

theorem readValue_keyword {value : Json} {keyword : String} {b : UInt8} {tail : Bytes}
    (shape : ascii keyword = b :: tail)
    (reads : ∀ s, readScalar (b :: s) = readKeyword keyword value (b :: s))
    (visible : isJsonSpace b = false) (bracket : b ≠ 0x5B) (brace : b ≠ 0x7B) (rest : Bytes) :
    readValue levels (ascii keyword ++ rest) = some (value, rest) := by
  have read := readKeyword_append keyword value rest
  rw [shape, List.cons_append] at read ⊢
  rw [← reads] at read
  exact readValue_of_readScalar visible bracket brace read

theorem readValue_scalar {value : Json} (scalar : value.isScalar = true)
    (fits : value.Fits levels) (stops : Stops rest) :
    readValue levels (value.encode ++ rest) = some (value.arrived, rest) := by
  cases value with
  | array items => cases scalar
  | object fields => cases scalar
  | null =>
      rw [Json.encode, Json.arrived]
      exact readValue_keyword rfl (fun _ => rfl) rfl (by decide) (by decide) rest
  | bool value =>
      cases value <;> rw [Json.encode, Json.arrived] <;>
        exact readValue_keyword rfl (fun _ => rfl) rfl (by decide) (by decide) rest
  | number literal =>
      rw [Json.encode, Json.arrived]
      exact readValue_number (by cases levels <;> exact fits.1) stops
  | string text =>
      rw [Json.encode, Json.arrived]
      exact readValue_string text rest

/-- Reading inverts writing, in front of whatever may follow a value. -/
theorem readValue_encode {value : Json} (fits : value.Fits levels) (stops : Stops rest) :
    readValue levels (value.encode ++ rest) = some (value.arrived, rest) := by
  revert rest
  refine Json.Fits.induction (motive := fun levels value => ∀ {rest}, Stops rest →
    readValue levels (value.encode ++ rest) = some (value.arrived, rest)) ?_ ?_ ?_ fits
  · exact fun levels value scalar fits rest stops => readValue_scalar scalar fits stops
  · intro levels items each rest _
    refine readValue_array (fun item member => ?_) (fun item member rest stops => ?_) rest
    · exact Json.begins_encode (each item member).1 (Or.inl rfl)
    · exact (each item member).2 stops
  · intro levels fields each rest _
    exact readValue_object (fun field member rest stops => (each field member).2 stops) rest

end Values

/-- What was written is read back. -/
theorem readJson_encode {value : Json} (fits : value.Fits maxNestingDepth) :
    readJson value.encode = some value.arrived := by
  have read := readValue_encode fits stops_nil
  rw [List.append_nil] at read
  rw [readJson, read]
  rfl

/-! ## Texts are valid UTF-8 -/

section Valid

variable {s t : Bytes} {levels : Nat}

theorem validString_append (first : validString s = true) (second : validString t = true) :
    validString (s ++ t) = true := by
  rw [← encodeRunes_runes first, ← encodeRunes_runes second, ← encodeRunes_append]
  exact validString_encodeRunes (scalars_append.mpr ⟨scalars_runes s, scalars_runes t⟩)

theorem validString_of_ascii (ascii : s.all isAscii = true) : validString s = true := by
  rw [List.all_eq_true] at ascii
  rw [← encodeRunes_map_toNat ascii]
  exact validString_encodeRunes (scalars_map_toNat ascii)

/-- A text of ASCII bytes around a valid one. -/
theorem validString_cons {b : UInt8} (ascii : isAscii b = true) (valid : validString s = true) :
    validString (b :: s) = true :=
  @validString_append [b] s (validString_of_ascii (by simpa using ascii)) valid

theorem jsonString_of_ascii (ascii : s.all isAscii = true) : jsonString s = s :=
  jsonString_eq_self (validString_of_ascii ascii)

theorem escapeAscii_ascii : ∀ b : UInt8, isAscii b = true → (escapeAscii b).all isAscii = true :=
  forall_byte (by decide +kernel)

theorem validString_encodeRune {r : Nat} (scalar : validRune r = true) :
    validString (encodeRune r) = true := by
  have single := validString_encodeRunes (scalars_cons.mpr ⟨scalar, scalars_nil⟩)
  rwa [encodeRunes_cons, encodeRunes_nil, List.append_nil] at single

theorem validString_escapeString (s : Bytes) : validString (escapeString s) = true := by
  induction s using jsonString.induct with
  | case1 =>
      rw [escapeString]
      exact validString_of_ascii rfl
  | case2 b rest ih =>
      rw [escapeString]
      split_ifs with ascii invalid separator
      · rw [decodeRune_ascii rest ascii] at ih
        exact validString_append (validString_of_ascii (escapeAscii_ascii b ascii)) ih
      · rw [invalid] at ih
        exact validString_append (validString_of_ascii rfl) ih
      · have digit : isAscii (lowerHex ((decodeRune (b :: rest)).1 % 16)) = true := by
          rcases separator with line | paragraph
          · rw [line]
            rfl
          · rw [paragraph]
            rfl
        exact validString_append (validString_of_ascii rfl) (validString_cons digit ih)
      · rw [← take_decodeRune (List.cons_ne_nil b rest) invalid]
        exact validString_append (validString_encodeRune (decodeRune_valid _)) ih

theorem validString_quote (s : Bytes) : validString (quote s) = true :=
  validString_cons rfl (validString_append (validString_escapeString s) (validString_of_ascii rfl))

theorem validString_separate {texts : List Bytes}
    (valid : ∀ text ∈ texts, validString text = true) : validString (separate texts) = true := by
  induction texts with
  | nil => exact validString_of_ascii rfl
  | cons text more ih =>
      have here := valid text List.mem_cons_self
      have later := ih fun other member => valid other (List.mem_cons_of_mem _ member)
      cases more with
      | nil => exact here
      | cons next more => exact validString_append here (validString_cons rfl later)

/-- What is written is valid UTF-8. -/
theorem Json.validString_encode {value : Json} (fits : value.Fits levels) :
    validString value.encode = true := by
  refine Fits.induction (motive := fun _ value => validString value.encode = true) ?_ ?_ ?_ fits
  · intro levels value scalar fits
    cases value with
    | array items => cases scalar
    | object fields => cases scalar
    | null =>
        rw [encode]
        exact validString_of_ascii rfl
    | bool value => cases value <;> rw [encode] <;> exact validString_of_ascii rfl
    | number literal =>
        rw [encode]
        exact validString_of_ascii (by cases levels <;> exact fits.2)
    | string text =>
        rw [encode]
        exact validString_quote text
  · intro levels items each
    rw [encode]
    refine validString_cons rfl (validString_append (validString_separate ?_) ?_)
    · simp only [List.forall_mem_map]
      exact fun item member => (each item member).2
    · exact validString_of_ascii rfl
  · intro levels fields each
    rw [encode]
    refine validString_cons rfl (validString_append (validString_separate ?_) ?_)
    · simp only [List.forall_mem_map]
      exact fun field member => validString_append (validString_quote field.1)
        (validString_cons rfl (each field member).2)
    · exact validString_of_ascii rfl

/-- A text within a text comes back as it is. -/
theorem Json.jsonString_encode {value : Json} (fits : value.Fits levels) :
    jsonString value.encode = value.encode :=
  jsonString_eq_self (validString_encode fits)

end Valid

/-! ## Structs -/

namespace Json

/-- A number as the encoder writes an integer. -/
def int (n : Int) : Json := number (formatInt n)

/-- The lower case of an ASCII letter. -/
def lowerByte (b : UInt8) : UInt8 := if 0x41 ≤ b ∧ b ≤ 0x5A then b + 0x20 else b

/-- The value for a field of a struct: that of the last key with its name, in whichever case.  Only
the case of ASCII letters is folded; `encoding/json` also takes `ſ` for `s` and the Kelvin sign for
`k`. -/
def field? (name : String) : Json → Option Json
  | object fields =>
      (fields.reverse.find? fun field =>
        field.1.map lowerByte == (ascii name).map lowerByte).map Prod.snd
  | _ => none

/-- What a value is as a `string`. -/
def text? : Json → Option Bytes
  | string text => some text
  | _ => none

/-- What a value is as an integer. -/
def int? : Json → Option Int
  | number literal => parseInt literal
  | _ => none

theorem Fits.mono {levels more : Nat} {value : Json} (fits : value.Fits levels)
    (le : levels ≤ more) : value.Fits more := by
  revert more
  refine Fits.induction (motive := fun levels value => ∀ {more}, levels ≤ more → value.Fits more)
    ?_ ?_ ?_ fits
  · intro levels value scalar fits more _
    cases value with
    | array items => cases scalar
    | object fields => cases scalar
    | number literal => cases levels <;> cases more <;> exact fits
    | null => cases more <;> trivial
    | bool value => cases more <;> trivial
    | string text => cases more <;> trivial
  · intro levels items each more le
    obtain ⟨more, rfl⟩ := Nat.exists_eq_add_of_lt le
    exact fun item member => (each item member).2 (by omega)
  · intro levels fields each more le
    obtain ⟨more, rfl⟩ := Nat.exists_eq_add_of_lt le
    exact fun field member => (each field member).2 (by omega)

theorem ascii_of_isDecimal : ∀ b : UInt8, isDecimal b = true → isAscii b = true :=
  forall_byte (by decide +kernel)

theorem fits_int (levels : Nat) (n : Int) : (int n).Fits levels := by
  have number : IsNumber (formatInt n) := by
    refine ⟨scanNumber_formatInt n, ?_⟩
    have digits : (formatNat n.natAbs).all isAscii = true := by
      refine List.all_eq_true.mpr fun b member => ascii_of_isDecimal b ?_
      exact List.all_eq_true.mp (all_isDecimal_formatNat n.natAbs) b member
    rw [formatInt]
    split
    · rw [List.all_cons, digits]
      rfl
    · exact digits
  cases levels <;> exact number

/-- The names of a struct arrive as they are. -/
theorem arrived_object {fields : List (Bytes × Json)}
    (names : (fields.map Prod.fst).all (fun name => name.all isAscii) = true) :
    (object fields).arrived = object (fields.map fun field => (field.1, field.2.arrived)) := by
  rw [arrived]
  congr 1
  refine List.map_congr_left fun field member => ?_
  rw [jsonString_of_ascii (List.all_eq_true.mp names field.1 (List.mem_map_of_mem member))]

end Json

end Go
