import CommonGo.Go.Json
import Mathlib.Data.List.DropRight

/-!
# Strings as sequences of runes

A loop over a string visits its runes, and a string is valid exactly if it is the encoding of the
runes visited.  Encodings of scalar values can be cut, compared and trimmed rune by rune.
-/

namespace Go

variable {s rest : Bytes} {list front : List Nat} {r : Nat} {a : UInt8}

/-- `[]rune(s)`: the runes that a loop over the string visits. -/
def runes : Bytes → List Nat
  | [] => []
  | b :: rest =>
      (decodeRune (b :: rest)).1 :: runes ((b :: rest).drop (decodeRune (b :: rest)).2)
termination_by s => s.length
decreasing_by
  have positive := decodeRune_width_pos (List.cons_ne_nil b rest)
  rw [List.length_drop, List.length_cons]
  omega

/-- `string(runes)`. -/
def encodeRunes (list : List Nat) : Bytes := list.flatMap encodeRune

/-- Every rune is a scalar value, so that its encoding is its own. -/
def Scalars (list : List Nat) : Prop := ∀ r ∈ list, validRune r = true

@[simp] theorem runes_nil : runes [] = [] := by rw [runes]

theorem runes_eq (nonempty : s ≠ []) :
    runes s = (decodeRune s).1 :: runes (s.drop (decodeRune s).2) := by
  obtain ⟨b, rest, rfl⟩ := List.exists_cons_of_ne_nil nonempty
  rw [runes]

@[simp] theorem encodeRunes_nil : encodeRunes [] = [] := rfl

@[simp] theorem encodeRunes_cons (r : Nat) (list : List Nat) :
    encodeRunes (r :: list) = encodeRune r ++ encodeRunes list := rfl

@[simp] theorem encodeRunes_append (front list : List Nat) :
    encodeRunes (front ++ list) = encodeRunes front ++ encodeRunes list :=
  List.flatMap_append

theorem encodeRunes_isPrefix (initial : front <+: list) :
    encodeRunes front <+: encodeRunes list := by
  obtain ⟨more, rfl⟩ := initial
  rw [encodeRunes_append]
  exact List.prefix_append _ _

theorem length_encodeRune_pos (r : Nat) : 0 < (encodeRune r).length :=
  List.length_pos_iff.mpr (encodeRune_ne_nil r)

theorem encodeRunes_eq_nil_iff : encodeRunes list = [] ↔ list = [] := by
  cases list with
  | nil => simp
  | cons r list => simp [encodeRune_ne_nil]

/-! ## Decoding and encoding -/

theorem scalars_nil : Scalars [] := by nofun

theorem scalars_cons : Scalars (r :: list) ↔ validRune r = true ∧ Scalars list :=
  List.forall_mem_cons

theorem scalars_append : Scalars (front ++ list) ↔ Scalars front ∧ Scalars list :=
  List.forall_mem_append

theorem Scalars.of_isPrefix (scalars : Scalars list) (initial : front <+: list) : Scalars front :=
  fun r member => scalars r (initial.subset member)

theorem scalars_runes (s : Bytes) : Scalars (runes s) := by
  fun_induction runes s with
  | case1 => exact scalars_nil
  | case2 b rest ih => exact scalars_cons.mpr ⟨decodeRune_valid _, ih⟩

theorem runes_encodeRunes_append (scalars : Scalars list) (rest : Bytes) :
    runes (encodeRunes list ++ rest) = list ++ runes rest := by
  induction list with
  | nil => rfl
  | cons r list ih =>
      obtain ⟨scalar, scalars⟩ := scalars_cons.mp scalars
      rw [encodeRunes_cons, List.append_assoc, runes_eq (by simp [encodeRune_ne_nil]),
        decodeRune_encodeRune _ scalar, List.drop_left, ih scalars]
      rfl

theorem runes_encodeRunes (scalars : Scalars list) : runes (encodeRunes list) = list := by
  simpa using runes_encodeRunes_append scalars []

theorem jsonString_eq_encodeRunes (s : Bytes) : jsonString s = encodeRunes (runes s) := by
  fun_induction runes s with
  | case1 => rw [jsonString, encodeRunes_nil]
  | case2 b rest ih => rw [jsonString, ih, encodeRunes_cons]

theorem encodeRunes_runes (valid : validString s = true) : encodeRunes (runes s) = s := by
  rw [← jsonString_eq_encodeRunes, jsonString_eq_self valid]

theorem validString_encodeRunes (scalars : Scalars list) :
    validString (encodeRunes list) = true := by
  have same : jsonString (encodeRunes list) = encodeRunes list := by
    rw [jsonString_eq_encodeRunes, runes_encodeRunes scalars]
  exact (length_jsonString _).2 (congrArg List.length same)

/-- A prefix of an encoding is a prefix of the runes. -/
theorem encodeRunes_isPrefix_iff (scalars : Scalars front) (others : Scalars list) :
    encodeRunes front <+: encodeRunes list ↔ front <+: list := by
  constructor
  · rintro ⟨rest, whole⟩
    have decoded := congrArg runes whole
    rw [runes_encodeRunes_append scalars, runes_encodeRunes others] at decoded
    exact ⟨runes rest, decoded⟩
  · exact encodeRunes_isPrefix

/-- A valid prefix of an encoding ends between two runes. -/
theorem exists_of_validString_isPrefix (scalars : Scalars list) (initial : s <+: encodeRunes list)
    (valid : validString s = true) : ∃ front, front <+: list ∧ s = encodeRunes front := by
  rw [← encodeRunes_runes valid, encodeRunes_isPrefix_iff (scalars_runes s) scalars] at initial
  exact ⟨runes s, initial, (encodeRunes_runes valid).symm⟩

/-! ## Boundaries -/

/-- A position at which a loop over the string stands: its start, or the end of a rune. -/
inductive RuneBoundary (s : Bytes) : Nat → Prop
  | start : RuneBoundary s 0
  | behind {position : Nat} : RuneBoundary s position → position < s.length →
      RuneBoundary s (position + (decodeRune (s.drop position)).2)

/-- The boundaries of an encoding are the ends of its parts. -/
theorem runeBoundary_encodeRunes_iff (scalars : Scalars list) {position : Nat} :
    RuneBoundary (encodeRunes list) position ↔
      ∃ front, front <+: list ∧ position = (encodeRunes front).length := by
  constructor
  · intro boundary
    induction boundary with
    | start => exact ⟨[], List.nil_prefix, rfl⟩
    | behind _ inside ih =>
        obtain ⟨front, ⟨back, rfl⟩, rfl⟩ := ih
        cases back with
        | nil => simp at inside
        | cons r back =>
            have scalar := (scalars_cons.mp (scalars_append.mp scalars).2).1
            refine ⟨front ++ [r], ⟨back, by simp⟩, ?_⟩
            rw [encodeRunes_append, List.drop_left, encodeRunes_cons,
              decodeRune_encodeRune _ scalar, encodeRunes_append, List.length_append]
            simp
  · rintro ⟨front, initial, rfl⟩
    induction front using List.reverseRecOn with
    | nil => exact .start
    | append_singleton front r ih =>
        have earlier := ih ((List.prefix_append front [r]).trans initial)
        obtain ⟨back, rfl⟩ := initial
        have scalar := scalars r (by simp)
        have text : encodeRunes (front ++ [r] ++ back) =
            encodeRunes front ++ (encodeRune r ++ encodeRunes back) := by simp
        rw [text] at earlier ⊢
        have next := earlier.behind (by
          have := length_encodeRune_pos r
          simp only [List.length_append]
          omega)
        rw [List.drop_left, decodeRune_encodeRune _ scalar] at next
        simpa using next

/-- The first bytes of a valid string are valid exactly if they end at a boundary. -/
theorem validString_take_iff (valid : validString s = true) {position : Nat}
    (inside : position ≤ s.length) :
    validString (s.take position) = true ↔ RuneBoundary s position := by
  have scalars := scalars_runes s
  rw [← encodeRunes_runes valid] at inside ⊢
  rw [runeBoundary_encodeRunes_iff scalars]
  constructor
  · intro part
    obtain ⟨front, initial, text⟩ :=
      exists_of_validString_isPrefix scalars (List.take_prefix _ _) part
    refine ⟨front, initial, ?_⟩
    rw [← text, List.length_take, Nat.min_eq_left inside]
  · rintro ⟨front, initial, rfl⟩
    obtain ⟨back, whole⟩ := initial
    rw [← whole, encodeRunes_append, List.take_left]
    rw [← whole] at scalars
    exact validString_encodeRunes (scalars_append.mp scalars).1

/-! ## ASCII bytes of an encoding -/

theorem encodeRune_toNat (ascii : isAscii a = true) : encodeRune a.toNat = [a] := by
  have small : a.toNat < 0x80 := by simpa [isAscii] using ascii
  rw [encodeRune_ascii small, UInt8.ofNat_toNat]

theorem encodeRunes_map_toNat {text : Bytes} (ascii : ∀ b ∈ text, isAscii b = true) :
    encodeRunes (text.map UInt8.toNat) = text := by
  induction text with
  | nil => rfl
  | cons b text ih =>
      rw [List.map_cons, encodeRunes_cons, encodeRune_toNat (ascii b List.mem_cons_self),
        ih fun c member => ascii c (List.mem_cons_of_mem b member), List.singleton_append]

theorem scalars_map_toNat {text : Bytes} (ascii : ∀ b ∈ text, isAscii b = true) :
    Scalars (text.map UInt8.toNat) := by
  intro r member
  obtain ⟨b, inText, rfl⟩ := List.mem_map.mp member
  have small : b.toNat < 0x80 := by simpa [isAscii] using ascii b inText
  exact validRune_iff.mpr (Or.inl (by omega))

/-- ASCII text in front of an encoding is made of its first runes. -/
theorem map_toNat_isPrefix {text : Bytes} (scalars : Scalars list)
    (ascii : ∀ b ∈ text, isAscii b = true) (initial : text <+: encodeRunes list) :
    text.map UInt8.toNat <+: list := by
  rw [← encodeRunes_map_toNat ascii] at initial
  exact (encodeRunes_isPrefix_iff (scalars_map_toNat ascii) scalars).mp initial

/-- An ASCII byte of an encoding is one of its runes. -/
theorem toNat_mem_of_mem_encodeRunes (scalars : Scalars list) (ascii : isAscii a = true)
    (member : a ∈ encodeRunes list) : a.toNat ∈ list := by
  obtain ⟨r, inList, inRune⟩ := List.mem_flatMap.mp member
  rcases Nat.lt_or_ge r 0x80 with small | large
  · rw [encodeRune_ascii small, List.mem_singleton] at inRune
    have value : (UInt8.ofNat r).toNat = r := by
      rw [UInt8.toNat_ofNat']
      omega
    rwa [inRune, value]
  · have decoded := decodeMultibyte_encodeRune [] large (scalars r inList)
    have nonascii := (decodeMultibyte_spec decoded).2.2.2.2.1
    rw [List.append_nil, List.take_length] at nonascii
    rw [nonascii a inRune] at ascii
    cases ascii

/-! ## Trimming -/

theorem trimLeft_encodeRunes (p : Nat → Bool) (keeps : p runeError = false)
    (scalars : Scalars list) :
    trimLeft p (encodeRunes list) = encodeRunes (list.dropWhile p) := by
  induction list with
  | nil => exact trimLeft_eq_self keeps
  | cons r list ih =>
      obtain ⟨scalar, scalars⟩ := scalars_cons.mp scalars
      have decoded := decodeRune_encodeRune (encodeRunes list) scalar
      cases trims : p r with
      | false =>
          rw [List.dropWhile_cons_of_neg (by simp [trims])]
          exact trimLeft_eq_self (by rwa [encodeRunes_cons, decoded])
      | true =>
          obtain ⟨b, rest, text⟩ :=
            List.exists_cons_of_ne_nil (mt encodeRunes_eq_nil_iff.mp (List.cons_ne_nil r list))
          have dropped := @List.drop_left _ (encodeRune r) (encodeRunes list)
          rw [← encodeRunes_cons, text] at decoded dropped
          rw [List.dropWhile_cons_of_pos trims, text, trimLeft, decoded, if_pos trims, dropped,
            ih scalars]

theorem trimRight_encodeRunes (p : Nat → Bool) (scalars : Scalars list) :
    trimRight p (encodeRunes list) = encodeRunes (list.rdropWhile p) := by
  induction list using List.reverseRecOn with
  | nil => simp [trimRight]
  | append_singleton list r ih =>
      obtain ⟨scalars, last⟩ := scalars_append.mp scalars
      have scalar := last r (List.mem_singleton_self r)
      have text : encodeRunes (list ++ [r]) = encodeRunes list ++ encodeRune r := by simp
      cases trims : p r with
      | true =>
          rw [List.rdropWhile_concat_pos _ _ _ trims, text, trimRight_append_drop _ scalar trims,
            ih scalars]
      | false =>
          rw [List.rdropWhile_concat_neg _ _ _ (by simp [trims]), text,
            trimRight_append_keep _ scalar trims]

/-- `strings.TrimSpace` takes white space from both ends of the runes. -/
theorem trimSpace_encodeRunes (scalars : Scalars list) :
    trimSpace (encodeRunes list) =
      encodeRunes ((list.dropWhile isSpace).rdropWhile isSpace) := by
  have shorter : Scalars (list.dropWhile isSpace) :=
    fun r member => scalars r ((List.dropWhile_sublist _).subset member)
  rw [trimSpace, trimLeft_encodeRunes isSpace (by decide) scalars,
    trimRight_encodeRunes isSpace shorter]

end Go
