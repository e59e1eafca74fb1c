import CommonGo.Go.Query

/-!
# URLs and their text

`Parse` of `net/url` with the parts that remember how a URL was written, and `URL.String`.  The
parser that forgets them is the projection of this one.  What `String` writes before the query has
neither a question mark nor a number sign in it, so the fragment is found again in the text.
-/

namespace Go.Url

/-- A `URL` with all its fields. -/
structure RawURL extends Reference where
  /-- The path as it was written, if `escape` writes it otherwise. -/
  rawPath : Bytes := []
  /-- Whether a URL with a scheme was written without the slashes of a host. -/
  omitHost : Bool := false
  /-- The fragment as it was written, if `escape` writes it otherwise. -/
  rawFragment : Bytes := []
  deriving DecidableEq, Repr

/-- `validEncoded`: a text that may have been written by somebody else than `escape`. -/
def validEncoded (s : Bytes) (mode : Encoding) : Bool :=
  s.all fun b => (ascii "!$&'()*+,;=:@[]%").contains b || !shouldEscape b mode

namespace RawURL

/-! ## `Parse` -/

section Parser

variable (strictColons : Bool) (ipLiteral : Bytes → Except Error Bytes)

/-- `URL.setPath`. -/
def setPath (url : RawURL) (text : Bytes) : Except Error RawURL := do
  let path ← unescape .path text
  return { url with path := path, rawPath := if text = escape path .path then [] else text }

/-- `URL.setFragment`. -/
def setFragment (url : RawURL) (text : Bytes) : Except Error RawURL := do
  let fragment ← unescape .fragment text
  return { url with
    fragment := fragment, rawFragment := if text = escape fragment .fragment then [] else text }

/-- `parse` behind the scheme, without the query. -/
def parseRest (scheme rest : Bytes) : Except Error RawURL :=
  if rest.head? ≠ some slash ∧ scheme ≠ [] then
    .ok { scheme := scheme, opaquePart := rest }
  else if rest.head? ≠ some slash ∧ (cut rest slash).1.contains colon then
    .error .colonInFirstSegment
  else if ascii "//" <+: rest ∧ (scheme ≠ [] ∨ ¬ ascii "///" <+: rest) then do
    let (user, host) ←
      Reference.parseAuthority strictColons ipLiteral ((rest.drop 2).takeWhile (· != slash))
    setPath { scheme := scheme, user := user, host := host } ((rest.drop 2).dropWhile (· != slash))
  else setPath { scheme := scheme, omitHost := scheme ≠ [] ∧ rest.head? = some slash } rest

/-- `parse`, for a URL that does not come from a request, without its fragment. -/
def parseWithoutFragment (rawURL : Bytes) : Except Error RawURL :=
  if rawURL.any isControl then .error .controlCharacter
  else if rawURL = ascii "*" then .ok { path := rawURL }
  else do
    let (scheme, rest) ← getScheme rawURL
    let url ← parseRest strictColons ipLiteral (lower scheme) (Reference.cutQuery rest).1
    return { url with
      forceQuery := (Reference.cutQuery rest).2.1, rawQuery := (Reference.cutQuery rest).2.2 }

/-- `Parse`. -/
def parse (rawURL : Bytes) : Except Error RawURL := do
  let url ← parseWithoutFragment strictColons ipLiteral (cut rawURL numberSign).1
  if (cut rawURL numberSign).2 = [] then return url
  else setFragment url (cut rawURL numberSign).2

theorem setPath_map (url : RawURL) (text : Bytes) :
    (url.setPath text).map toReference =
      (unescape .path text).map fun path => { url.toReference with path := path } := by
  unfold setPath
  cases unescape .path text <;> rfl

theorem parseRest_map (scheme rest : Bytes) :
    (parseRest strictColons ipLiteral scheme rest).map toReference =
      Reference.parseRest strictColons ipLiteral scheme rest := by
  unfold parseRest Reference.parseRest
  split_ifs
  · rfl
  · rfl
  · cases Reference.parseAuthority strictColons ipLiteral
        ((rest.drop 2).takeWhile (· != slash)) with
    | error error => rfl
    | ok parsed =>
        refine (setPath_map _ _).trans ?_
        cases unescape .path ((rest.drop 2).dropWhile (· != slash)) <;> rfl
  · rw [setPath_map]
    cases unescape .path rest <;> rfl

theorem parseWithoutFragment_map (rawURL : Bytes) :
    (parseWithoutFragment strictColons ipLiteral rawURL).map toReference =
      Reference.parseWithoutFragment strictColons ipLiteral rawURL := by
  unfold parseWithoutFragment Reference.parseWithoutFragment
  split_ifs
  · rfl
  · rfl
  · cases getScheme rawURL with
    | error error => rfl
    | ok split =>
        simp only [bind, Except.bind]
        rw [← parseRest_map]
        cases parseRest strictColons ipLiteral (lower split.1) (Reference.cutQuery split.2).1 <;>
          rfl

/-- Without what it remembers of the text, the URL is what the smaller parser makes of it. -/
theorem parse_toReference (rawURL : Bytes) :
    (parse strictColons ipLiteral rawURL).map toReference =
      Reference.parse strictColons ipLiteral rawURL := by
  unfold parse Reference.parse
  rw [← parseWithoutFragment_map]
  cases parseWithoutFragment strictColons ipLiteral (cut rawURL numberSign).1 with
  | error error => rfl
  | ok url =>
      by_cases none : (cut rawURL numberSign).2 = []
      · simp only [none, bind, Except.bind]
        rfl
      · simp only [bind, Except.bind, Except.map, if_neg none]
        unfold setFragment
        cases unescape .fragment (cut rawURL numberSign).2 <;> rfl

end Parser

/-! ## `String` -/

/-- The text of a part: the one it was written with, if it still stands for the part. -/
def writtenOr (mode : Encoding) (raw value other : Bytes) : Bytes :=
  if raw ≠ [] ∧ validEncoded raw mode ∧ unescape mode raw = .ok value then raw else other

/-- `URL.EscapedPath`. -/
def escapedPath (url : RawURL) : Bytes :=
  writtenOr .path url.rawPath url.path (Url.escapedPath url.path)

/-- `URL.EscapedFragment`. -/
def escapedFragment (url : RawURL) : Bytes :=
  writtenOr .fragment url.rawFragment url.fragment (escape url.fragment .fragment)

/-- What stands behind the scheme and before the path. -/
def authority (url : RawURL) : Bytes :=
  if url.scheme = [] ∧ url.host = [] ∧ url.user = none then []
  else if url.omitHost ∧ url.host = [] ∧ url.user = none then []
  else
    (if url.host ≠ [] ∨ url.path ≠ [] ∨ url.user ≠ none then ascii "//" else []) ++
      (match url.user with
        | some user => user.string ++ [atSign]
        | none => []) ++
      escape url.host .host

/-- The text before the query. -/
def front (url : RawURL) : Bytes :=
  let scheme := if url.scheme = [] then [] else url.scheme ++ [colon]
  if url.opaquePart ≠ [] then scheme ++ url.opaquePart
  else
    let before := scheme ++ url.authority
    let path := url.escapedPath
    let slashed :=
      before ++ if path ≠ [] ∧ path.head? ≠ some slash ∧ url.host ≠ [] then [slash] else []
    slashed ++ (if slashed = [] ∧ (cut path slash).1.contains colon then ascii "./" else []) ++ path

/-- `URL.String`. -/
def string (url : RawURL) : Bytes :=
  url.front ++ (if url.forceQuery ∨ url.rawQuery ≠ [] then questionMark :: url.rawQuery else []) ++
    if url.fragment ≠ [] then numberSign :: url.escapedFragment else []

/-! ## The marks of query and fragment -/

/-- A byte that is neither of the two marks, nor a control character. -/
def innerByte (b : UInt8) : Bool := b != questionMark && b != numberSign && !isControl b

/-- A text of such bytes. -/
def Unmarked (s : Bytes) : Prop := ∀ b ∈ s, innerByte b = true

instance (s : Bytes) : Decidable (Unmarked s) :=
  decidable_of_iff (s.all innerByte = true) List.all_eq_true

section Unmarked

variable {s t : Bytes} {url : RawURL}

theorem unmarked_nil : Unmarked [] := by simp [Unmarked]

theorem Unmarked.questionMark_notMem (unmarked : Unmarked s) : questionMark ∉ s :=
  notMem_of_forall unmarked (by decide)

theorem Unmarked.numberSign_notMem (unmarked : Unmarked s) : numberSign ∉ s :=
  notMem_of_forall unmarked (by decide)

theorem Unmarked.any_isControl (unmarked : Unmarked s) : s.any isControl = false := by
  rw [List.any_eq_false]
  intro b member control
  have inner := unmarked b member
  rw [innerByte, control, Bool.not_true, Bool.and_false] at inner
  cases inner

theorem Unmarked.append (first : Unmarked s) (second : Unmarked t) : Unmarked (s ++ t) :=
  List.forall_mem_append.mpr ⟨first, second⟩

theorem Unmarked.subset (unmarked : Unmarked s) (within : t ⊆ s) : Unmarked t :=
  fun b member => unmarked b (within member)

theorem unmarked_ite {p : Prop} [Decidable p] (first : Unmarked s) (second : Unmarked t) :
    Unmarked (if p then s else t) := by
  split_ifs
  · exact first
  · exact second

/-- The other bytes are escaped. -/
private theorem shouldEscape_of_mark (b : UInt8) : innerByte b = false →
    shouldEscape b .path = true ∧ shouldEscape b .host = true ∧
      shouldEscape b .userPassword = true := by
  revert b
  exact forall_byte (by decide +kernel)

theorem unmarked_escape {mode : Encoding} (other : mode ≠ .fragment) (s : Bytes) :
    Unmarked (escape s mode) := by
  rw [Unmarked, ← List.all_eq_true]
  refine all_escape (by decide) (by decide) fun b _ kept => ?_
  by_contra mark
  obtain ⟨path, host, user⟩ := shouldEscape_of_mark b (Bool.eq_false_iff.mpr mark)
  cases mode with
  | fragment => exact other rfl
  | path => simp [path] at kept
  | host => simp [host] at kept
  | userPassword => simp [user] at kept

theorem unmarked_userinfo (user : Userinfo) : Unmarked user.string := by
  unfold Userinfo.string
  refine unmarked_ite (Unmarked.append (unmarked_escape (by decide) _) ?_) unmarked_nil
  cases user.password with
  | none => exact unmarked_nil
  | some password =>
      exact Unmarked.append (s := [colon]) (by decide) (unmarked_escape (by decide) password)

theorem unmarked_authority (url : RawURL) : Unmarked url.authority := by
  unfold authority
  refine unmarked_ite unmarked_nil (unmarked_ite unmarked_nil ?_)
  refine Unmarked.append (Unmarked.append ?_ ?_) (unmarked_escape (by decide) _)
  · exact unmarked_ite (by decide) unmarked_nil
  · cases url.user with
    | none => exact unmarked_nil
    | some user => exact (unmarked_userinfo user).append (by decide)

theorem unmarked_escapedPath (raw : Unmarked url.rawPath) : Unmarked url.escapedPath := by
  refine unmarked_ite raw ?_
  unfold Url.escapedPath
  split_ifs with star
  · rw [star]
    decide
  · exact unmarked_escape (by decide) _

/-- What is written before the query has none of the marks if the parts that are written as they are
have none. -/
theorem unmarked_front (scheme : Unmarked url.scheme) (rest : Unmarked url.opaquePart)
    (raw : Unmarked url.rawPath) : Unmarked url.front := by
  have named : Unmarked (if url.scheme = [] then [] else url.scheme ++ [colon]) :=
    unmarked_ite unmarked_nil (scheme.append (by decide))
  unfold front
  refine unmarked_ite (named.append rest) ?_
  refine Unmarked.append (Unmarked.append ?_ (unmarked_ite (by decide) unmarked_nil))
    (unmarked_escapedPath raw)
  exact (named.append (unmarked_authority url)).append (unmarked_ite (by decide) unmarked_nil)

/-! ## What `Parse` keeps as it is -/

variable {strictColons : Bool} {ipLiteral : Bytes → Except Error Bytes} {text : Bytes}

/-- The bytes of a scheme. -/
def schemeByte (b : UInt8) : Bool := isAlphanumeric b || (ascii "+-.").contains b

/-- A scheme ends at the first colon, and there may be none. -/
theorem getScheme_eq_ok {scheme rest : Bytes} (read : getScheme text = .ok (scheme, rest)) :
    scheme = [] ∧ rest = text ∨
      Reference.isScheme scheme = true ∧ text = scheme ++ colon :: rest := by
  have whole := @List.takeWhile_append_dropWhile _ schemeByte text
  have passed : ∀ b ∈ text.takeWhile schemeByte, schemeByte b = true :=
    fun b member => List.mem_takeWhile_imp member
  simp only [getScheme] at read
  split at read
  · split_ifs at read
    cases read
    exact Or.inl ⟨rfl, rfl⟩
  · rename_i first more b behind starts ends
    split_ifs at read with named
    · cases read
      change text.takeWhile schemeByte = first :: more at starts
      change text.dropWhile schemeByte = b :: rest at ends
      right
      constructor
      · change Reference.isScheme (text.takeWhile schemeByte) = true
        rw [starts] at passed ⊢
        have later := (List.forall_mem_cons.mp passed).2
        simp only [Reference.isScheme, Bool.and_eq_true, Bool.not_eq_true', List.all_eq_true]
        exact ⟨⟨named.2.1, by simpa using named.2.2⟩, later⟩
      · rw [← named.1, ← ends]
        exact whole.symm
    · cases read
      exact Or.inl ⟨rfl, rfl⟩
  · cases read
    exact Or.inl ⟨rfl, rfl⟩

theorem schemeByte_of_isScheme {scheme : Bytes} (named : Reference.isScheme scheme = true) :
    ∀ b ∈ scheme, schemeByte b = true := by
  intro b member
  by_contra other
  exact Reference.notMem_of_isScheme named (Bool.eq_false_iff.mpr other) member

theorem unmarked_lower {scheme : Bytes} (named : ∀ b ∈ scheme, schemeByte b = true) :
    Unmarked (lower scheme) := by
  have inner : ∀ b : UInt8, schemeByte b = true →
      innerByte (if 0x41 ≤ b && b ≤ 0x5A then b + 0x20 else b) = true :=
    forall_byte (by decide +kernel)
  intro b member
  obtain ⟨c, here, rfl⟩ := List.mem_map.mp member
  exact inner c (named c here)

/-- The parts that are written as they were read have none of the marks. -/
structure Kept (url : RawURL) : Prop where
  /-- The scheme has none. -/
  scheme : Unmarked url.scheme
  /-- The opaque part has none. -/
  opaquePart : Unmarked url.opaquePart
  /-- The path as it was written has none. -/
  rawPath : Unmarked url.rawPath

theorem Kept.setPath {result : RawURL} (kept : url.Kept) (unmarked : Unmarked text)
    (read : url.setPath text = .ok result) : result.Kept := by
  obtain ⟨path, _, is⟩ := exists_of_bind_eq_ok read
  cases is
  exact ⟨kept.scheme, kept.opaquePart, unmarked_ite unmarked_nil unmarked⟩

theorem kept_parseRest {scheme rest : Bytes} (named : Unmarked scheme) (unmarked : Unmarked rest)
    (read : parseRest strictColons ipLiteral scheme rest = .ok url) : url.Kept := by
  unfold parseRest at read
  split_ifs at read
  · cases read
    exact ⟨named, unmarked, unmarked_nil⟩
  · obtain ⟨⟨user, host⟩, _, read⟩ := exists_of_bind_eq_ok read
    refine Kept.setPath ⟨named, unmarked_nil, unmarked_nil⟩ (unmarked.subset ?_) read
    exact fun b member => List.drop_subset _ _ (List.dropWhile_subset _ member)
  · exact Kept.setPath ⟨named, unmarked_nil, unmarked_nil⟩ unmarked read

theorem kept_parseWithoutFragment (plain : numberSign ∉ text)
    (read : parseWithoutFragment strictColons ipLiteral text = .ok url) : url.Kept := by
  unfold parseWithoutFragment at read
  split_ifs at read with control star
  · cases read
    exact ⟨unmarked_nil, unmarked_nil, unmarked_nil⟩
  · obtain ⟨⟨scheme, rest⟩, found, read⟩ := exists_of_bind_eq_ok read
    obtain ⟨result, parsed, is⟩ := exists_of_bind_eq_ok read
    obtain ⟨named, within⟩ : Unmarked (lower scheme) ∧ rest ⊆ text := by
      rcases getScheme_eq_ok found with ⟨rfl, rfl⟩ | ⟨named, rfl⟩
      · exact ⟨unmarked_nil, List.Subset.refl _⟩
      · refine ⟨unmarked_lower (schemeByte_of_isScheme named), fun b member => ?_⟩
        exact List.mem_append_right _ (List.mem_cons_of_mem _ member)
    have before : Unmarked (Reference.cutQuery rest).1 := by
      rw [Reference.cutQuery_fst]
      intro b member
      have here := within (List.takeWhile_subset _ member)
      have calm : isControl b = false := by
        rw [List.any_eq_true, not_exists] at control
        exact Bool.eq_false_iff.mpr fun is => control b ⟨here, is⟩
      have first : b ≠ questionMark := fun is => notMem_cut rest questionMark (is ▸ member)
      have second : b ≠ numberSign := fun is => plain (is ▸ here)
      simp [innerByte, first, second, calm]
    have kept := kept_parseRest named before parsed
    cases is
    exact ⟨kept.scheme, kept.opaquePart, kept.rawPath⟩

theorem kept_parse (read : parse strictColons ipLiteral text = .ok url) : url.Kept := by
  obtain ⟨result, parsed, read⟩ := exists_of_bind_eq_ok read
  have kept := kept_parseWithoutFragment (notMem_cut text numberSign) parsed
  split_ifs at read with absent
  · cases read
    exact kept
  · obtain ⟨fragment, _, is⟩ := exists_of_bind_eq_ok read
    cases is
    exact ⟨kept.scheme, kept.opaquePart, kept.rawPath⟩

/-! ## Finding the parts in the text -/

theorem cut_numberSign_string (kept : url.Kept) (plain : numberSign ∉ url.rawQuery) :
    cut url.string numberSign =
      (url.front ++
        (if url.forceQuery ∨ url.rawQuery ≠ [] then questionMark :: url.rawQuery else []),
        if url.fragment ≠ [] then url.escapedFragment else []) := by
  have front := unmarked_front kept.scheme kept.opaquePart kept.rawPath
  have absent : numberSign ∉ url.front ++
      (if url.forceQuery ∨ url.rawQuery ≠ [] then questionMark :: url.rawQuery else []) := by
    rw [List.mem_append]
    rintro (before | query)
    · exact front.numberSign_notMem before
    · split_ifs at query
      · rcases List.mem_cons.mp query with mark | member
        · exact absurd mark (by decide)
        · exact plain member
      · cases query
  unfold string
  by_cases empty : url.fragment = []
  · rw [if_neg (not_not.mpr empty), if_neg (not_not.mpr empty), List.append_nil]
    exact cut_of_notMem absent
  · rw [if_pos empty, if_pos empty]
    exact cut_append_cons absent _

end Unmarked

end RawURL

end Go.Url
