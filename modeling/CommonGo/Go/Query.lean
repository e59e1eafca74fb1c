import CommonGo.Go.Reference
import Mathlib.Data.List.Dedup

/-!
# Query parameters of Go

`url.Values` with the escaping of its keys and values.  Every parameter comes back from the text
that `Encode` makes, and the text depends on the parameters of each key alone.
-/

namespace Go.Url

/-! ## Escaping -/

/-- The byte that a blank is written as. -/
def plus : UInt8 := 0x2B

/-- The blank. -/
def space : UInt8 := 0x20

/-- The byte between parameters. -/
def ampersand : UInt8 := 0x26

/-- A byte that makes a parameter invalid. -/
def semicolon : UInt8 := 0x3B

/-- The byte between a key and its value. -/
def equalsSign : UInt8 := 0x3D

/-- `shouldEscape` in a component of a query. -/
def shouldEscapeQuery (b : UInt8) : Bool := !(isAlphanumeric b || (ascii "-_.~").contains b)

/-- `escape` of one byte in a component of a query. -/
def queryEscapeByte (b : UInt8) : Bytes :=
  if b = space then [plus]
  else if shouldEscapeQuery b then
    [percent, upperHex (b.toNat / 16), upperHex (b.toNat % 16)]
  else [b]

/-- `QueryEscape`. -/
def queryEscape (s : Bytes) : Bytes := s.flatMap queryEscapeByte

/-- `QueryUnescape`. -/
def queryUnescape : Bytes → Except Error Bytes
  | [] => .ok []
  | b :: rest =>
      if b = percent then
        match rest with
        | high :: low :: rest =>
            if !ishex high || !ishex low then .error (.escape [b, high, low])
            else (queryUnescape rest).map (UInt8.ofNat (unhex high * 16 + unhex low) :: ·)
        | short => .error (.escape (b :: short))
      else (queryUnescape rest).map ((if b = plus then space else b) :: ·)

theorem queryUnescape_percent (b : UInt8) (rest : Bytes) :
    queryUnescape (percent :: upperHex (b.toNat / 16) :: upperHex (b.toNat % 16) :: rest) =
      (queryUnescape rest).map (b :: ·) := by
  have small := b.toNat_lt
  obtain ⟨high, highValue, _⟩ := hex_digit (b.toNat / 16) (by omega)
  obtain ⟨low, lowValue, _⟩ := hex_digit (b.toNat % 16) (by omega)
  have value : UInt8.ofNat (b.toNat / 16 * 16 + b.toNat % 16) = b := by
    rw [Nat.div_add_mod']
    exact UInt8.ofNat_toNat
  rw [queryUnescape, if_pos rfl]
  simp only [high, low, highValue, lowValue, value, Bool.not_true, Bool.or_false,
    Bool.false_eq_true, if_false]

theorem queryUnescape_plain {b : UInt8} (plain : b ≠ percent) (rest : Bytes) :
    queryUnescape (b :: rest) =
      (queryUnescape rest).map ((if b = plus then space else b) :: ·) := by
  rw [queryUnescape.eq_def]
  exact if_neg plain

theorem plain_query (b : UInt8) (kept : shouldEscapeQuery b = false) :
    b ≠ percent ∧ b ≠ plus := by
  rw [shouldEscapeQuery, Bool.not_eq_false'] at kept
  revert b
  refine forall_alphanumeric_or_mark (fun b alphanumeric => ?_) (by decide)
  constructor <;> rintro rfl <;> cases alphanumeric

theorem queryUnescape_queryEscapeByte (b : UInt8) (rest : Bytes) :
    queryUnescape (queryEscapeByte b ++ rest) = (queryUnescape rest).map (b :: ·) := by
  unfold queryEscapeByte
  split_ifs with blank escaped
  · rw [List.singleton_append, queryUnescape_plain (by decide), if_pos rfl, blank]
  · exact queryUnescape_percent b rest
  · obtain ⟨plain, other⟩ := plain_query b (by simpa using escaped)
    rw [List.singleton_append, queryUnescape_plain plain, if_neg other]

/-- A component is read back as it was. -/
theorem queryUnescape_queryEscape (s : Bytes) : queryUnescape (queryEscape s) = .ok s := by
  induction s with
  | nil => rfl
  | cons b rest ih =>
      rw [queryEscape, List.flatMap_cons, queryUnescape_queryEscapeByte, ← queryEscape, ih]
      rfl

/-- The bytes that are left in a component. -/
def queryByte (b : UInt8) : Bool := isAlphanumeric b || (ascii "-_.~+%").contains b

theorem all_queryEscapeByte : ∀ b : UInt8, (queryEscapeByte b).all queryByte = true :=
  forall_byte (by decide +kernel)

theorem queryByte_of_mem {s : Bytes} {b : UInt8} (member : b ∈ queryEscape s) :
    queryByte b = true := by
  obtain ⟨c, _, here⟩ := List.mem_flatMap.mp member
  exact List.all_eq_true.mp (all_queryEscapeByte c) b here

theorem notMem_queryEscape (s : Bytes) {b : UInt8} (separates : queryByte b = false) :
    b ∉ queryEscape s := by
  intro member
  rw [queryByte_of_mem member] at separates
  cases separates

/-! ## Parameters -/

/-- `url.Values`: parameters with a key each, where only the order of those with one key counts. -/
abbrev Values := List (Bytes × Bytes)

namespace Values

/-- The values of a key. -/
def of (values : Values) (key : Bytes) : List Bytes :=
  (values.filter fun pair => pair.1 = key).map Prod.snd

/-- `Values.Set`. -/
def set (values : Values) (key value : Bytes) : Values :=
  (values.filter fun pair => pair.1 ≠ key) ++ [(key, value)]

/-- The keys in their order. -/
def keys (values : Values) : List Bytes := (values.map Prod.fst).dedup.mergeSort (· ≤ ·)

/-- The parameters in the order of their keys. -/
def sorted (values : Values) : Values :=
  values.keys.flatMap fun key => (values.of key).map fun value => (key, value)

end Values

/-- A parameter of a query; a malformed one is dropped. -/
def readPair (part : Bytes) : Option (Bytes × Bytes) :=
  if part.contains semicolon ∨ part = [] then none
  else
    match queryUnescape (cut part equalsSign).1, queryUnescape (cut part equalsSign).2 with
    | .ok key, .ok value => some (key, value)
    | _, _ => none

/-- `URL.Query`: the parameters that `ParseQuery` finds, without its error. -/
def parseQuery (query : Bytes) : Values := (query.splitOn ampersand).filterMap readPair

/-- A key and a value, escaped. -/
def writePair (pair : Bytes × Bytes) : Bytes :=
  queryEscape pair.1 ++ equalsSign :: queryEscape pair.2

/-- `Values.Encode`. -/
def Values.encode (values : Values) : Bytes :=
  [ampersand].intercalate (values.sorted.map writePair)

/-! ## Parameters come back -/

theorem notMem_writePair (pair : Bytes × Bytes) {b : UInt8} (separates : queryByte b = false)
    (other : b ≠ equalsSign) : b ∉ writePair pair := by
  rw [writePair, List.mem_append, List.mem_cons]
  rintro (key | rfl | value)
  · exact notMem_queryEscape _ separates key
  · exact other rfl
  · exact notMem_queryEscape _ separates value

/-- Bytes that are not used in writing parameters are not in the text. -/
theorem notMem_intercalate (values : Values) {b : UInt8} (separates : queryByte b = false)
    (other : b ≠ equalsSign ∧ b ≠ ampersand) :
    b ∉ [ampersand].intercalate (values.map writePair) := by
  induction values with
  | nil => simp
  | cons first rest ih =>
      have here := notMem_writePair first separates other.1
      cases rest with
      | nil => simpa using here
      | cons next rest =>
          rw [List.map_cons, List.map_cons, List.intercalate_cons_cons, ← List.map_cons,
            List.mem_append, List.mem_append]
          rintro ((member | member) | member)
          · exact here member
          · exact other.2 (List.mem_singleton.mp member)
          · exact ih member

theorem readPair_writePair (pair : Bytes × Bytes) : readPair (writePair pair) = some pair := by
  have plain : semicolon ∉ writePair pair := notMem_writePair pair rfl (by decide)
  have nonempty : writePair pair ≠ [] := by simp [writePair]
  have parts : cut (writePair pair) equalsSign = (queryEscape pair.1, queryEscape pair.2) :=
    cut_append_cons (notMem_queryEscape pair.1 rfl) _
  rw [readPair, if_neg (by simp [plain, nonempty]), parts]
  simp only [queryUnescape_queryEscape]

/-- Parameters written one after the other are read in this order. -/
theorem parseQuery_intercalate (values : Values) :
    parseQuery ([ampersand].intercalate (values.map writePair)) = values := by
  cases values with
  | nil => rfl
  | cons first rest =>
      have separated : ∀ part ∈ (first :: rest).map writePair, ampersand ∉ part := by
        intro part member
        obtain ⟨pair, _, rfl⟩ := List.mem_map.mp member
        exact notMem_writePair pair rfl (by decide)
      rw [parseQuery, List.splitOn_intercalate ampersand separated (by simp), List.filterMap_map]
      simp only [Function.comp_def, readPair_writePair, List.filterMap_some]

namespace Values

variable {values other : Values} {key : Bytes}

theorem of_append (values other : Values) (key : Bytes) :
    (values ++ other).of key = values.of key ++ other.of key := by
  simp [of]

theorem of_map_of_ne {name : Bytes} (different : name ≠ key) (texts : List Bytes) :
    of (texts.map fun text => (name, text)) key = [] := by
  simp [of, different]

theorem of_map_self (texts : List Bytes) : of (texts.map fun text => (key, text)) key = texts := by
  rw [of, List.filter_eq_self.mpr (by simp), List.map_map]
  exact List.map_id texts

theorem of_eq_nil (absent : key ∉ values.map Prod.fst) : values.of key = [] := by
  rw [of, List.map_eq_nil_iff, List.filter_eq_nil_iff]
  rintro pair member is
  rw [decide_eq_true_eq] at is
  exact absent (is ▸ List.mem_map_of_mem member)

theorem of_ne_nil_iff : values.of key ≠ [] ↔ key ∈ values.map Prod.fst := by
  constructor
  · intro present
    by_contra absent
    exact present (of_eq_nil absent)
  · intro member empty
    obtain ⟨pair, here, rfl⟩ := List.mem_map.mp member
    rw [of, List.map_eq_nil_iff, List.filter_eq_nil_iff] at empty
    exact empty pair here (by simp)

/-- Each key of a list without repetition keeps its values. -/
theorem of_flatMap {names : List Bytes} (distinct : names.Nodup) (values : Values) (key : Bytes) :
    of (names.flatMap fun name => (values.of name).map fun value => (name, value)) key =
      if key ∈ names then values.of key else [] := by
  induction names with
  | nil => rfl
  | cons name names ih =>
      obtain ⟨fresh, distinct⟩ := List.nodup_cons.mp distinct
      rw [List.flatMap_cons, of_append, ih distinct]
      by_cases same : name = key
      · subst same
        rw [of_map_self, if_neg fresh, List.append_nil, if_pos List.mem_cons_self]
      · rw [of_map_of_ne same, List.nil_append]
        simp [Ne.symm same]

theorem mem_keys : key ∈ values.keys ↔ key ∈ values.map Prod.fst := by
  rw [keys, List.mem_mergeSort, List.mem_dedup]

theorem nodup_keys (values : Values) : values.keys.Nodup :=
  List.nodup_mergeSort.mpr (List.nodup_dedup _)

/-- Sorting moves parameters of different keys only. -/
theorem of_sorted (values : Values) (key : Bytes) : values.sorted.of key = values.of key := by
  rw [sorted, of_flatMap values.nodup_keys]
  split_ifs with member
  · rfl
  · exact (of_eq_nil fun found => member (mem_keys.mpr found)).symm

theorem of_set (values : Values) (name value key : Bytes) :
    (values.set name value).of key = if key = name then [value] else values.of key := by
  rw [set, of_append]
  by_cases same : key = name
  · subst same
    rw [if_pos rfl, of_eq_nil (by simp), List.nil_append]
    simp [of]
  · rw [if_neg same]
    have gone : of [(name, value)] key = [] := by simp [of, Ne.symm same]
    rw [gone, List.append_nil, of, of, List.filter_filter]
    congr 1
    refine List.filter_congr fun pair _ => ?_
    by_cases is : pair.1 = key
    · simp [is, same]
    · simp [is]

/-- The parameters of every key come back. -/
theorem of_parseQuery_encode (values : Values) (key : Bytes) :
    (parseQuery values.encode).of key = values.of key := by
  rw [encode, parseQuery_intercalate, of_sorted]

theorem keys_congr (same : ∀ key, values.of key = other.of key) : values.keys = other.keys := by
  have members : ∀ key, key ∈ values.keys ↔ key ∈ other.keys := by
    intro key
    rw [mem_keys, mem_keys, ← of_ne_nil_iff, ← of_ne_nil_iff, same]
  have permuted : values.keys.Perm other.keys :=
    (List.perm_ext_iff_of_nodup values.nodup_keys other.nodup_keys).mpr members
  have ordered : ∀ values : Values, values.keys.Pairwise fun a b => decide (a ≤ b) = true := by
    intro values
    refine List.pairwise_mergeSort ?_ ?_ _
    · intro a b c first second
      exact decide_eq_true (List.le_trans (of_decide_eq_true first) (of_decide_eq_true second))
    · intro a b
      simpa using List.le_total a b
  refine permuted.eq_of_pairwise ?_ (ordered values) (ordered other)
  intro a b _ _ first second
  exact List.le_antisymm (of_decide_eq_true first) (of_decide_eq_true second)

/-- The text depends on the values of each key alone. -/
theorem encode_congr (same : ∀ key, values.of key = other.of key) :
    values.encode = other.encode := by
  rw [encode, encode, sorted, sorted, keys_congr same]
  simp only [same]

end Values

end Go.Url
