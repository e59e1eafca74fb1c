import Mathlib.Algebra.BigOperators.Group.Finset.Basic
import Mathlib.Data.List.DropRight
import CommonGo.Go.Strings

/-!
# Keyword/value connection strings

The settings parser of the pgx driver.  A setting is a keyword, an equals sign and a value.  A value
that does not start with a quote ends at whitespace, a backslash takes the next byte with it, and a
later setting overrides an earlier one with the same keyword.
-/

namespace CommonGo.Postgres

open Go

/-- The byte between a key and its value. -/
def equals : UInt8 := 0x3D

/-- The byte around a quoted value. -/
def quote : UInt8 := 0x27

/-- The byte before an escaped one. -/
def backslash : UInt8 := 0x5C

/-- The table `asciiSpace`, and the cutset `" \t\n\r\v\f"`. -/
def isAsciiSpace (b : UInt8) : Bool := b == 0x20 || (0x09 ≤ b.toNat && b.toNat ≤ 0x0D)

/-- `strings.TrimLeft` with that cutset. -/
def trimLeftSpace (s : Bytes) : Bytes := s.dropWhile isAsciiSpace

/-- `strings.Trim` with that cutset. -/
def trimSpaces (s : Bytes) : Bytes := (trimLeftSpace s).rdropWhile isAsciiSpace

/-- `strings.ReplaceAll` for an old string of two bytes and a new one of one. -/
def replacePair (x y z : UInt8) : Bytes → Bytes
  | b :: c :: rest =>
      if b = x ∧ c = y then z :: replacePair x y z rest else b :: replacePair x y z (c :: rest)
  | s => s

/-- An escaped backslash becomes a backslash, and then an escaped quote a quote. -/
def unescape (s : Bytes) : Bytes :=
  replacePair backslash quote quote (replacePair backslash backslash backslash s)

/-- The errors of `parseKeywordValueSettings`. -/
inductive ParseError where
  | invalidKeywordValue
  | invalidBackslash
  | unterminatedQuotedString
  /-- The parser panics: a quoted value ends in a backslash at the end of the string. -/
  | sliceOutOfRange
  deriving DecidableEq, Repr

/-- Bytes in front of a value that was split off. -/
def prepend (front : Bytes) (split : Bytes × Bytes) : Bytes × Bytes := (front ++ split.1, split.2)

/-- An unquoted value and what comes after it. -/
def unquoted : Bytes → Except ParseError (Bytes × Bytes)
  | [] => .ok ([], [])
  | b :: rest =>
      if isAsciiSpace b then .ok ([], b :: rest)
      else if b = backslash then
        match rest with
        | [] => .error .invalidBackslash
        | c :: rest => (unquoted rest).map (prepend [b, c])
      else (unquoted rest).map (prepend [b])

/-- A quoted value after its opening quote, and what comes after the closing one. -/
def quoted : Bytes → Except ParseError (Bytes × Bytes)
  | [] => .error .unterminatedQuotedString
  | b :: rest =>
      if b = quote then .ok ([], rest)
      else if b = backslash then
        match rest with
        | [] => .error .sliceOutOfRange
        | c :: rest => (quoted rest).map (prepend [b, c])
      else (quoted rest).map (prepend [b])

/-- The value at the front of a string, and what comes after it. -/
def parseValue : Bytes → Except ParseError (Bytes × Bytes)
  | [] => .ok ([], [])
  | b :: rest =>
      (if b = quote then quoted rest else unquoted (b :: rest)).map fun (value, rest) =>
        (unescape value, trimLeftSpace rest)

/-- `canonicalConnStringKey`. -/
def canonicalConnStringKey (k : Bytes) : Bytes :=
  if k = ascii "dbname" then ascii "database" else k

/-- One turn of the loop: the key, the value and what is left of the string. -/
def parseSetting (s : Bytes) : Except ParseError (Bytes × Bytes × Bytes) :=
  match indexByte s equals with
  | none => .error .invalidKeywordValue
  | some eqIdx =>
      match parseValue (trimLeftSpace (s.drop (eqIdx + 1))) with
      | .error err => .error err
      | .ok (val, rest) =>
          let key := canonicalConnStringKey (trimSpaces (s.take eqIdx))
          if key = [] then .error .invalidKeywordValue else .ok (key, val, rest)

/-- The map of settings. -/
abbrev Settings := Bytes → Option Bytes

/-- `settings[key] = val`, except that an empty user is passed over. -/
def store (settings : Settings) (key val : Bytes) : Settings :=
  if key = ascii "user" ∧ val = [] then settings else Function.update settings key (some val)

/-! ## Lengths -/

variable {s t front rest value key : Bytes}

theorem length_trimLeftSpace_le (s : Bytes) : (trimLeftSpace s).length ≤ s.length :=
  (List.dropWhile_suffix _).length_le

theorem trimLeftSpace_eq_self (same : (trimLeftSpace s).length = s.length) : trimLeftSpace s = s :=
  (List.dropWhile_suffix _).eq_of_length same

theorem trimLeftSpace_of_space {b : UInt8} (space : isAsciiSpace b = true) (s : Bytes) :
    trimLeftSpace (b :: s) = trimLeftSpace s :=
  List.dropWhile_cons_of_pos space

theorem trimLeftSpace_of_visible {b : UInt8} (visible : isAsciiSpace b = false) (s : Bytes) :
    trimLeftSpace (b :: s) = b :: s :=
  List.dropWhile_cons_of_neg (by simp [visible])

theorem visible_of_trimLeftSpace {b : UInt8} (same : trimLeftSpace (b :: s) = b :: s) :
    isAsciiSpace b = false := by
  by_contra space
  rw [trimLeftSpace_of_space (by simpa using space)] at same
  have short := length_trimLeftSpace_le s
  rw [same, List.length_cons] at short
  omega

theorem length_trimSpaces_le (s : Bytes) : (trimSpaces s).length ≤ s.length :=
  (List.rdropWhile_prefix _ _).length_le.trans (length_trimLeftSpace_le s)

/-- Replacing makes the string shorter unless there is nothing to replace. -/
theorem length_replacePair (x y z : UInt8) (s : Bytes) :
    (replacePair x y z s).length ≤ s.length ∧
      ((replacePair x y z s).length = s.length → replacePair x y z s = s) := by
  induction length : s.length using Nat.strong_induction_on generalizing s with
  | _ n ih =>
      subst length
      rcases s with _ | ⟨b, _ | ⟨c, rest⟩⟩
      · exact ⟨le_rfl, fun _ => rfl⟩
      · exact ⟨le_rfl, fun _ => rfl⟩
      · rw [replacePair]
        split_ifs with found
        · have shorter := (ih rest.length (by simp) rest rfl).1
          simp only [List.length_cons]
          omega
        · obtain ⟨shorter, unchanged⟩ := ih (c :: rest).length (by simp) (c :: rest) rfl
          simp only [List.length_cons] at shorter unchanged ⊢
          refine ⟨by omega, fun same => ?_⟩
          rw [unchanged (by omega)]

theorem length_unescape (s : Bytes) :
    (unescape s).length ≤ s.length ∧ ((unescape s).length = s.length → unescape s = s) := by
  obtain ⟨first_le, first_eq⟩ := length_replacePair backslash backslash backslash s
  obtain ⟨second_le, second_eq⟩ := length_replacePair backslash quote quote
    (replacePair backslash backslash backslash s)
  refine ⟨second_le.trans first_le, fun same => ?_⟩
  rw [unescape] at same ⊢
  have first := first_eq (by omega)
  rw [first] at second_eq same ⊢
  exact second_eq same

theorem unescape_eq_self_iff :
    unescape s = s ↔ replacePair backslash backslash backslash s = s ∧
      replacePair backslash quote quote s = s := by
  constructor
  · intro same
    have first := (length_replacePair backslash backslash backslash s).2 (by
      have first_le := (length_replacePair backslash backslash backslash s).1
      have second_le := (length_replacePair backslash quote quote
        (replacePair backslash backslash backslash s)).1
      have length := congrArg List.length same
      rw [unescape] at length
      omega)
    rw [unescape, first] at same
    exact ⟨first, same⟩
  · rintro ⟨first, second⟩
    rw [unescape, first, second]

private theorem ok_of_map {α β : Type} {result : Except ParseError α} {f : α → β} {b : β}
    (mapped : result.map f = .ok b) : ∃ a, result = .ok a ∧ f a = b := by
  cases result with
  | error err => cases mapped
  | ok a => exact ⟨a, rfl, by simpa [Except.map] using mapped⟩

/-- An unquoted value is taken from the front as it is and ends at whitespace. -/
theorem unquoted_split (taken : unquoted s = .ok (value, rest)) :
    s = value ++ rest ∧ ∀ b ∈ rest.head?, isAsciiSpace b = true := by
  induction s using unquoted.induct generalizing value with
  | case1 =>
      cases taken
      exact ⟨rfl, nofun⟩
  | case2 b rest' space =>
      rw [unquoted.eq_def] at taken
      simp only [space, if_true] at taken
      cases taken
      exact ⟨rfl, by simpa using space⟩
  | case3 plain =>
      simp [unquoted, plain] at taken
  | case4 c rest' plain ih =>
      simp only [unquoted, plain, Bool.false_eq_true, if_false, if_true] at taken
      obtain ⟨⟨value', rest''⟩, inner, same⟩ := ok_of_map taken
      cases same
      obtain ⟨split, space⟩ := ih inner
      exact ⟨by simp [split], space⟩
  | case5 b rest' plain other ih =>
      rw [unquoted.eq_def] at taken
      simp only [plain, Bool.false_eq_true, if_false, if_neg other] at taken
      obtain ⟨⟨value', rest''⟩, inner, same⟩ := ok_of_map taken
      cases same
      obtain ⟨split, space⟩ := ih inner
      exact ⟨by simp [split], space⟩

/-- A quoted value is taken up to a quote. -/
theorem quoted_split (taken : quoted s = .ok (value, rest)) : s = value ++ quote :: rest := by
  induction s using quoted.induct generalizing value with
  | case1 => cases taken
  | case2 rest' =>
      rw [quoted.eq_def] at taken
      simp only [if_true] at taken
      cases taken
      rfl
  | case3 other =>
      simp [quoted, other] at taken
  | case4 c rest' other ih =>
      simp only [quoted, if_neg other, if_true] at taken
      obtain ⟨⟨value', rest''⟩, inner, same⟩ := ok_of_map taken
      cases same
      simp [ih inner]
  | case5 b rest' other plain ih =>
      rw [quoted.eq_def] at taken
      simp only [if_neg other, if_neg plain] at taken
      obtain ⟨⟨value', rest''⟩, inner, same⟩ := ok_of_map taken
      cases same
      simp [ih inner]

/-! ## What a turn uses up -/

/-- The whitespace that ends a setting, when another one follows. -/
def separator (rest : Bytes) : Nat := if rest = [] then 0 else 1

theorem separator_trimLeftSpace_le (ends : ∀ b ∈ rest.head?, isAsciiSpace b = true) :
    (trimLeftSpace rest).length + separator (trimLeftSpace rest) ≤ rest.length := by
  cases rest with
  | nil => simp [trimLeftSpace, separator]
  | cons b rest =>
      have short := length_trimLeftSpace_le rest
      rw [trimLeftSpace_of_space (ends b rfl), separator, List.length_cons]
      split_ifs <;> omega

/-- A quoted value uses up two more bytes than it is long, for its quotes. -/
theorem parseValue_quoted_le (parsed : parseValue (quote :: t) = .ok (value, rest)) :
    value.length + rest.length + 2 ≤ (quote :: t).length := by
  rw [parseValue, if_pos rfl] at parsed
  obtain ⟨⟨raw, more⟩, taken, same⟩ := ok_of_map parsed
  cases same
  have length := congrArg List.length (quoted_split taken)
  have unescaped := (length_unescape raw).1
  have trimmed := length_trimLeftSpace_le more
  simp only [List.length_append, List.length_cons] at length ⊢
  omega

theorem parseValue_le (parsed : parseValue s = .ok (value, rest)) :
    value.length + rest.length + separator rest ≤ s.length := by
  cases s with
  | nil =>
      cases parsed
      simp [separator]
  | cons b t =>
      by_cases opening : b = quote
      · subst opening
        have bound := parseValue_quoted_le parsed
        have one : separator rest ≤ 1 := by
          rw [separator]
          split_ifs <;> omega
        omega
      · rw [parseValue, if_neg opening] at parsed
        obtain ⟨⟨raw, more⟩, taken, same⟩ := ok_of_map parsed
        cases same
        obtain ⟨split, ends⟩ := unquoted_split taken
        have length := congrArg List.length split
        have unescaped := (length_unescape raw).1
        have trimmed := separator_trimLeftSpace_le ends
        rw [List.length_append] at length
        omega

/-- What a key can have taken in the string: `dbname` is the only alias, and shorter. -/
def keyLength (key : Bytes) : Nat :=
  if key = ascii "database" then (ascii "dbname").length else key.length

theorem keyLength_canonical_le (k : Bytes) : keyLength (canonicalConnStringKey k) ≤ k.length := by
  unfold canonicalConnStringKey keyLength
  split_ifs with dbname same database
  · rw [dbname]
  · exact absurd rfl same
  · rw [database]
    decide
  · exact le_rfl

theorem parseSetting_le (parsed : parseSetting s = .ok (key, value, rest)) :
    keyLength key + 1 + value.length + rest.length + separator rest ≤ s.length := by
  unfold parseSetting at parsed
  split at parsed
  · cases parsed
  · next eqIdx found =>
      split at parsed
      · cases parsed
      · next val more inner =>
          simp only at parsed
          split_ifs at parsed
          cases parsed
          have inside := (List.findIdx?_eq_some_iff_findIdx_eq.mp found).1
          have bound := parseValue_le inner
          have trimmed := length_trimLeftSpace_le (s.drop (eqIdx + 1))
          have named := keyLength_canonical_le (trimSpaces (s.take eqIdx))
          have key_le := length_trimSpaces_le (s.take eqIdx)
          rw [List.length_take] at key_le
          rw [List.length_drop] at trimmed
          omega

theorem parseSetting_shorter (parsed : parseSetting s = .ok (key, value, rest)) :
    rest.length < s.length := by
  have bound := parseSetting_le parsed
  omega

/-- The loop over the settings, from the ones stored so far. -/
def parseLoop (settings : Settings) (s : Bytes) : Except ParseError Settings :=
  if s = [] then .ok settings
  else
    match _ : parseSetting s with
    | .error err => .error err
    | .ok (key, val, rest) => parseLoop (store settings key val) rest
termination_by s.length
decreasing_by exact parseSetting_shorter ‹_›

/-- `parseKeywordValueSettings`. -/
def parseKeywordValueSettings (s : Bytes) : Except ParseError Settings :=
  parseLoop (fun _ => none) (trimLeftSpace s)

theorem parseLoop_nil (settings : Settings) : parseLoop settings [] = .ok settings := by
  rw [parseLoop, if_pos rfl]

theorem parseLoop_of_parseSetting (settings : Settings) (nonempty : s ≠ [])
    (parsed : parseSetting s = .ok (key, value, rest)) :
    parseLoop settings s = parseLoop (store settings key value) rest := by
  rw [parseLoop, if_neg nonempty]
  split
  · next err failed => rw [parsed] at failed; cases failed
  · next key' value' rest' again => rw [parsed] at again; cases again; rfl

theorem parseSetting_of_parseLoop {settings final : Settings} (nonempty : s ≠ [])
    (finished : parseLoop settings s = .ok final) :
    ∃ key value rest, parseSetting s = .ok (key, value, rest) ∧
      parseLoop (store settings key value) rest = .ok final := by
  rw [parseLoop, if_neg nonempty] at finished
  split at finished
  · cases finished
  · next key value rest parsed => exact ⟨key, value, rest, parsed, finished⟩

/-! ## Values that are read back as they are -/

/-- No whitespace but behind a backslash, and no backslash at the end or before a backslash or a
quote. -/
def plainFrom : Bytes → Bool
  | [] => true
  | [b] => !isAsciiSpace b && b != backslash
  | b :: c :: rest =>
      if b = backslash then c != backslash && c != quote && plainFrom rest
      else !isAsciiSpace b && plainFrom (c :: rest)

/-- A value that an unquoted setting can hold without any escaping. -/
def plain (value : Bytes) : Bool :=
  value.head?.any (fun b => !isAsciiSpace b && b != quote) && plainFrom value

private theorem replacePair_cons_of_ne {x y z b : UInt8} (other : b ≠ x) (s : Bytes) :
    replacePair x y z (b :: s) = b :: replacePair x y z s := by
  cases s with
  | nil => rfl
  | cons c s => rw [replacePair, if_neg (by simp [other])]

private theorem replacePair_eq_self_iff {x y z c : UInt8} (s : Bytes) :
    replacePair x y z (x :: c :: s) = x :: c :: s ↔
      c ≠ y ∧ replacePair x y z (c :: s) = c :: s := by
  by_cases found : c = y
  · subst found
    rw [replacePair, if_pos (by simp)]
    have short := (length_replacePair x c z s).1
    simp only [ne_eq, not_true_eq_false, false_and, iff_false]
    intro same
    have length := congrArg List.length same
    simp only [List.length_cons] at length
    omega
  · rw [replacePair, if_neg (by simp [found])]
    simp [found]

private theorem map_prepend_eq_ok_iff {result : Except ParseError (Bytes × Bytes)} :
    result.map (prepend front) = .ok (front ++ value, rest) ↔ result = .ok (value, rest) := by
  cases result with
  | error err => simp [Except.map]
  | ok pair =>
      obtain ⟨value', rest'⟩ := pair
      simp [Except.map, prepend]

private theorem unquoted_space {b : UInt8} (space : isAsciiSpace b = true) (s : Bytes) :
    unquoted (b :: s) = .ok ([], b :: s) := by
  rw [unquoted.eq_def]
  simp only [space, if_true]

private theorem unquoted_of_space (ends : ∀ b ∈ rest.head?, isAsciiSpace b = true) :
    unquoted rest = .ok ([], rest) := by
  cases rest with
  | nil => rfl
  | cons b rest => exact unquoted_space (ends b rfl) rest

private theorem unquoted_cons {b : UInt8} (visible : isAsciiSpace b = false)
    (other : b ≠ backslash) (s : Bytes) :
    unquoted (b :: s) = (unquoted s).map (prepend [b]) := by
  rw [unquoted.eq_def]
  simp only [visible, Bool.false_eq_true, if_false, if_neg other]

private theorem unquoted_escape (c : UInt8) (s : Bytes) :
    unquoted (backslash :: c :: s) = (unquoted s).map (prepend [backslash, c]) := by
  simp [unquoted, show isAsciiSpace backslash = false from rfl]

/-- A backslash takes the byte behind it along, so no value ends in one. -/
private theorem unquoted_backslash_ne (s : Bytes) :
    unquoted (backslash :: s) ≠ .ok ([backslash], rest) := by
  intro taken
  cases s with
  | nil => cases taken
  | cons c s =>
      rw [unquoted_escape] at taken
      obtain ⟨⟨value, rest⟩, -, same⟩ := ok_of_map taken
      have length := congrArg (fun split => split.1.length) same
      simp [prepend] at length

private theorem unescape_cons {b : UInt8} (other : b ≠ backslash) (s : Bytes) :
    unescape (b :: s) = b :: s ↔ unescape s = s := by
  simp [unescape_eq_self_iff, replacePair_cons_of_ne other]

private theorem unescape_escape (c : UInt8) (s : Bytes) :
    unescape (backslash :: c :: s) = backslash :: c :: s ↔
      (c ≠ backslash ∧ c ≠ quote) ∧ unescape s = s := by
  rw [unescape_eq_self_iff, unescape_eq_self_iff, replacePair_eq_self_iff, replacePair_eq_self_iff]
  constructor
  · rintro ⟨⟨bare, first⟩, unquote, second⟩
    rw [replacePair_cons_of_ne bare, List.cons_inj_right] at first second
    exact ⟨⟨bare, unquote⟩, first, second⟩
  · rintro ⟨⟨bare, unquote⟩, first, second⟩
    rw [replacePair_cons_of_ne bare, replacePair_cons_of_ne bare, first, second]
    exact ⟨⟨bare, rfl⟩, unquote, rfl⟩

/-- A value is plain exactly when the scan stops behind it and unescaping leaves it alone. -/
theorem plainFrom_iff (ends : ∀ b ∈ rest.head?, isAsciiSpace b = true) :
    plainFrom value = true ↔
      unquoted (value ++ rest) = .ok (value, rest) ∧ unescape value = value := by
  induction value using plainFrom.induct with
  | case1 =>
      simp [plainFrom, unquoted_of_space ends, unescape, replacePair]
  | case2 b =>
      rw [plainFrom, List.singleton_append]
      cases space : isAsciiSpace b with
      | true => simp [unquoted_space space]
      | false =>
          by_cases last : b = backslash
          · subst last
            simp [unquoted_backslash_ne]
          · rw [unquoted_cons space last, unescape_cons last, unquoted_of_space ends]
            simp [last, Except.map, prepend, unescape, replacePair]
  | case3 c more ih =>
      rw [plainFrom, if_pos rfl, List.cons_append, List.cons_append, unquoted_escape,
        unescape_escape, Bool.and_eq_true, ih]
      have scan := @map_prepend_eq_ok_iff [backslash, c] rest more (unquoted (more ++ rest))
      simp only [List.cons_append, List.nil_append] at scan
      rw [scan]
      simp only [Bool.and_eq_true, bne_iff_ne]
      tauto
  | case4 b c more other ih =>
      rw [plainFrom, if_neg other, List.cons_append, unescape_cons other]
      cases space : isAsciiSpace b with
      | true => simp [unquoted_space space]
      | false =>
          have scan := @map_prepend_eq_ok_iff [b] rest (c :: more) (unquoted (c :: more ++ rest))
          simp only [List.cons_append, List.nil_append] at scan ih
          rw [unquoted_cons space other, List.cons_append, scan, ← ih]
          simp

/-- A plain value is read back, whitespace or the end of the string behind it. -/
theorem parseValue_of_plain (simple : plain value = true)
    (ends : ∀ b ∈ rest.head?, isAsciiSpace b = true) :
    parseValue (trimLeftSpace (value ++ rest)) = .ok (value, trimLeftSpace rest) := by
  rw [plain, Bool.and_eq_true, plainFrom_iff ends] at simple
  obtain ⟨first, taken, same⟩ := simple
  cases value with
  | nil => cases first
  | cons b value =>
      simp only [List.head?_cons, Option.any_some, Bool.and_eq_true, Bool.not_eq_true',
        bne_iff_ne] at first
      rw [List.cons_append] at taken ⊢
      rw [trimLeftSpace_of_visible first.1, parseValue, if_neg first.2, taken]
      simp [Except.map, same]

/-- What the scan takes from a visible byte on is plain if unescaping leaves it alone. -/
private theorem plain_of_unquoted {b : UInt8} (visible : isAsciiSpace b = false) (bare : b ≠ quote)
    (taken : unquoted (b :: t) = .ok (value, rest)) (kept : unescape value = value) :
    plain value = true := by
  obtain ⟨split, ends⟩ := unquoted_split taken
  have scanned : plainFrom value = true :=
    (plainFrom_iff ends).mpr ⟨by rw [← split]; exact taken, kept⟩
  cases value with
  | nil =>
      have space : isAsciiSpace b = true := ends b (by rw [← split.trans (List.nil_append _)]; rfl)
      rw [space] at visible
      cases visible
  | cons d value =>
      cases split
      simp [plain, visible, bare, scanned]

/-- A value that uses up no more than its length and one separator is plain, and was read from the
front of the string. -/
theorem plain_of_parseValue (parsed : parseValue (trimLeftSpace t) = .ok (value, rest))
    (more : rest ≠ []) (tight : t.length ≤ value.length + rest.length + 1) :
    plain value = true ∧ ∃ b, t = value ++ b :: rest := by
  have bound := parseValue_le parsed
  rw [separator, if_neg more] at bound
  have trimmed := length_trimLeftSpace_le t
  have untrimmed : trimLeftSpace t = t := trimLeftSpace_eq_self (by omega)
  rw [untrimmed] at parsed
  cases t with
  | nil =>
      cases parsed
      exact absurd rfl more
  | cons b t =>
      have visible := visible_of_trimLeftSpace untrimmed
      have bare : b ≠ quote := by
        rintro rfl
        have longer := parseValue_quoted_le parsed
        omega
      rw [parseValue, if_neg bare] at parsed
      obtain ⟨⟨raw, after⟩, taken, same⟩ := ok_of_map parsed
      cases same
      obtain ⟨split, ends⟩ := unquoted_split taken
      have length := congrArg List.length split
      rw [List.length_append] at length
      have unescaped := length_unescape raw
      have spent := separator_trimLeftSpace_le ends
      rw [separator, if_neg more] at spent
      have kept : unescape raw = raw := unescaped.2 (by omega)
      rw [kept]
      refine ⟨plain_of_unquoted visible bare taken kept, ?_⟩
      cases after with
      | nil => exact absurd rfl more
      | cons c after =>
          -- only the one separator is dropped
          rw [trimLeftSpace_of_space (ends c rfl)] at tight ⊢
          simp only [List.length_cons] at length tight
          have rest_le := length_trimLeftSpace_le after
          have rest_kept : trimLeftSpace after = after := trimLeftSpace_eq_self (by omega)
          exact ⟨c, by rw [rest_kept]; exact split⟩

/-! ## Settings under a known keyword -/

/-- A keyword that the parser takes as it stands in the string. -/
structure Keyword (k : Bytes) : Prop where
  /-- The keyword ends at the equals sign. -/
  absent : equals ∉ k
  /-- There are no blanks around it. -/
  trimmed : trimSpaces k = k
  /-- It is not empty. -/
  nonempty : canonicalConnStringKey k ≠ []

theorem Keyword.parseSetting_iff {k : Bytes} (keyword : Keyword k) :
    parseSetting (k ++ equals :: t) = .ok (key, value, rest) ↔
      key = canonicalConnStringKey k ∧ parseValue (trimLeftSpace t) = .ok (value, rest) := by
  have after : (k ++ equals :: t).drop (k.length + 1) = t := by simp
  rw [parseSetting, indexByte_append t keyword.absent]
  simp only [after, List.take_left, keyword.trimmed, if_neg keyword.nonempty]
  cases parseValue (trimLeftSpace t) with
  | error err => simp
  | ok pair =>
      simp only [Except.ok.injEq, Prod.mk.injEq]
      constructor
      · rintro ⟨rfl, rfl, rfl⟩
        exact ⟨rfl, rfl⟩
      · rintro ⟨rfl, rfl⟩
        exact ⟨rfl, rfl, rfl⟩

theorem Keyword.trimLeftSpace_append {k : Bytes} (keyword : Keyword k) (t : Bytes) :
    trimLeftSpace (k ++ t) = k ++ t := by
  cases k with
  | nil => exact absurd rfl keyword.nonempty
  | cons b k =>
      have same : trimLeftSpace (b :: k) = b :: k := by
        refine trimLeftSpace_eq_self (le_antisymm (length_trimLeftSpace_le _) ?_)
        have shorter := (List.rdropWhile_prefix isAsciiSpace (trimLeftSpace (b :: k))).length_le
        rwa [← trimSpaces, keyword.trimmed] at shorter
      exact trimLeftSpace_of_visible (visible_of_trimLeftSpace same) _

/-- A plain value at the end of the string is the last turn of the loop. -/
theorem Keyword.parseLoop_last {k : Bytes} (keyword : Keyword k) (settings : Settings)
    (simple : plain value = true) :
    parseLoop settings (k ++ equals :: value) =
      .ok (store settings (canonicalConnStringKey k) value) := by
  have inner := @parseValue_of_plain [] value simple nofun
  rw [List.append_nil] at inner
  rw [parseLoop_of_parseSetting settings (by simp) (keyword.parseSetting_iff.mpr ⟨rfl, inner⟩),
    trimLeftSpace, List.dropWhile_nil, parseLoop_nil]

/-- A plain value between two keywords is one turn of the loop. -/
theorem Keyword.parseLoop_plain {k next : Bytes} (keyword : Keyword k) (follows : Keyword next)
    (settings : Settings) (simple : plain value = true) (t : Bytes) :
    parseLoop settings (k ++ equals :: (value ++ 0x20 :: (next ++ t))) =
      parseLoop (store settings (canonicalConnStringKey k) value) (next ++ t) := by
  have inner := @parseValue_of_plain (0x20 :: (next ++ t)) value simple
    (by simp [isAsciiSpace])
  rw [trimLeftSpace_of_space rfl, follows.trimLeftSpace_append] at inner
  exact parseLoop_of_parseSetting settings (by simp)
    (keyword.parseSetting_iff.mpr ⟨rfl, inner⟩)

/-! ## How much a string can hold -/

/-- What a setting takes in a string: keyword, equals sign, value and separator. -/
def weight (key : Bytes) : Option Bytes → Nat
  | none => 0
  | some value => keyLength key + 2 + value.length

/-- What the settings under the wanted keys take together. -/
def size (wanted : Finset Bytes) (settings : Settings) : Nat :=
  ∑ key ∈ wanted, weight key (settings key)

theorem eq_none_of_weight {held : Option Bytes} (zero : weight key held = 0) : held = none := by
  cases held with
  | none => rfl
  | some value =>
      rw [weight] at zero
      omega

theorem size_update (wanted : Finset Bytes) (settings : Settings) (member : key ∈ wanted)
    (value : Bytes) :
    size wanted (Function.update settings key (some value)) + weight key (settings key) =
      size wanted settings + weight key (some value) := by
  unfold size
  have others : ∑ k ∈ wanted.erase key, weight k (Function.update settings key (some value) k) =
      ∑ k ∈ wanted.erase key, weight k (settings k) :=
    Finset.sum_congr rfl fun k other => by
      rw [Function.update_of_ne (Finset.ne_of_mem_erase other)]
  rw [← Finset.add_sum_erase wanted _ member, ← Finset.add_sum_erase wanted _ member, others,
    Function.update_self]
  omega

theorem size_update_of_notMem (wanted : Finset Bytes) (settings : Settings)
    (other : key ∉ wanted) (value : Bytes) :
    size wanted (Function.update settings key (some value)) = size wanted settings :=
  Finset.sum_congr rfl fun k member => by
    rw [Function.update_of_ne (ne_of_mem_of_not_mem member other)]

/-- Storing adds at most the weight of the setting, and less if it overrides another. -/
theorem size_store (wanted : Finset Bytes) (settings : Settings) (key value : Bytes) :
    size wanted (store settings key value) ≤ size wanted settings + weight key (some value) ∧
      (size wanted settings + weight key (some value) ≤ size wanted (store settings key value) →
        settings key = none ∧
          store settings key value = Function.update settings key (some value)) := by
  have positive : 0 < weight key (some value) := by
    rw [weight]
    omega
  unfold store
  split_ifs with passed
  · omega
  · by_cases member : key ∈ wanted
    · have sum := size_update wanted settings member value
      refine ⟨by omega, fun tight => ⟨@eq_none_of_weight key _ ?_, rfl⟩⟩
      omega
    · rw [size_update_of_notMem wanted settings member]
      omega

/-- A turn pays for what it stores out of the string. -/
theorem size_store_le (wanted : Finset Bytes) (settings : Settings)
    (parsed : parseSetting s = .ok (key, value, rest)) :
    size wanted (store settings key value) + rest.length + separator rest ≤
      size wanted settings + s.length + 1 := by
  have stored := (size_store wanted settings key value).1
  have used := parseSetting_le parsed
  rw [weight] at stored
  omega

/-- The settings stored at the end weigh no more than the string, and a string that is just long
enough for them overrides none. -/
theorem parseLoop_size (wanted : Finset Bytes) {settings final : Settings}
    (finished : parseLoop settings s = .ok final) :
    size wanted final ≤ size wanted settings + s.length + separator s ∧
      (size wanted settings + s.length + separator s ≤ size wanted final →
        ∀ key value, settings key = some value → final key = some value) := by
  -- induction on the length of what is left of the string
  induction length : s.length using Nat.strong_induction_on generalizing s settings with
  | _ n ih =>
      by_cases empty : s = []
      · subst empty
        rw [parseLoop_nil] at finished
        cases finished
        exact ⟨by omega, fun _ _ _ held => held⟩
      · obtain ⟨k, v, rest, parsed, remaining⟩ := parseSetting_of_parseLoop empty finished
        have spent := size_store_le wanted settings parsed
        obtain ⟨bound, kept⟩ := ih rest.length (length ▸ parseSetting_shorter parsed) remaining rfl
        have separated : separator s = 1 := if_neg empty
        refine ⟨by omega, fun tight key value held => kept (by omega) key value ?_⟩
        have used := parseSetting_le parsed
        have stored := size_store wanted settings k v
        rw [weight] at stored
        obtain ⟨fresh, updated⟩ := stored.2 (by omega)
        rw [updated, Function.update_of_ne, held]
        rintro rfl
        rw [held] at fresh
        cases fresh

/-- If the string is just long enough for the settings that come out, and the first value comes out
under its keyword, then that value is plain and the loop goes on behind its separator. -/
theorem Keyword.plain_of_parseLoop {k : Bytes} (keyword : Keyword k)
    (exactly : keyLength (canonicalConnStringKey k) = k.length) (wanted : Finset Bytes)
    {settings final : Settings} {b : UInt8}
    (finished : parseLoop settings (k ++ equals :: (value ++ b :: rest)) = .ok final)
    (tight : size wanted settings + (k ++ equals :: (value ++ b :: rest)).length + 1 ≤
      size wanted final)
    (held : final (canonicalConnStringKey k) = some value) :
    plain value = true ∧
      ∃ later, parseLoop later rest = .ok final ∧
        size wanted later + rest.length + 1 ≤ size wanted final := by
  obtain ⟨key, val, left, parsed, remaining⟩ := parseSetting_of_parseLoop (by simp) finished
  obtain ⟨rfl, inner⟩ := keyword.parseSetting_iff.mp parsed
  have stored := size_store wanted settings (canonicalConnStringKey k) val
  obtain ⟨bound, kept⟩ := parseLoop_size wanted remaining
  have used := parseValue_le inner
  have trimmed := length_trimLeftSpace_le (value ++ b :: rest)
  simp only [weight, exactly] at stored
  simp only [List.length_append, List.length_cons] at tight trimmed
  obtain ⟨fresh, updated⟩ := stored.2 (by omega)
  -- nothing after this turn overrides the value, so it is the one that comes out
  have same : val = value := by
    have unchanged := kept (by omega) (canonicalConnStringKey k) val (by simp [updated])
    rw [held] at unchanged
    exact (Option.some.inj unchanged).symm
  subst same
  have more : left ≠ [] := by
    rintro rfl
    simp only [separator, List.length_nil, if_true] at bound
    omega
  rw [separator, if_neg more] at bound used
  obtain ⟨simple, c, split⟩ := plain_of_parseValue inner more (by
    simp only [List.length_append, List.length_cons]
    omega)
  cases List.append_cancel_left split
  exact ⟨simple, store settings (canonicalConnStringKey k) val, remaining, by omega⟩

end CommonGo.Postgres
