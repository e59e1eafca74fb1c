import CommonGo.Go.Url

/-!
# URLs with a user, a query and a fragment

`Parse` of `net/url` with the parts that the parser of scheme, host and path leaves out.  That
parser is the projection of this one.  For a URL with an authority, the parts are found in its text:
the authority ends at the first slash, question mark or number sign, and the user in it at the last
at sign.
-/

namespace Go.Url

/-- The byte before the query. -/
def questionMark : UInt8 := 0x3F

/-- The byte before the fragment. -/
def numberSign : UInt8 := 0x23

/-- `Userinfo`; the password is absent unless it has been set. -/
structure Userinfo where
  /-- The name. -/
  username : Bytes
  /-- The password, if it has been set. -/
  password : Option Bytes
  deriving DecidableEq, Repr

/-- `Userinfo.String`. -/
def Userinfo.string (user : Userinfo) : Bytes :=
  if user.username ≠ [] ∨ user.password.getD [] ≠ [] then
    escape user.username .userPassword ++
      match user.password with
      | none => []
      | some password => colon :: escape password .userPassword
  else []

theorem Userinfo.string_password {user : Bytes} (nonempty : user ≠ []) (password : Bytes) :
    Userinfo.string { username := user, password := some password } =
      escape user .userPassword ++ colon :: escape password .userPassword :=
  if_pos (Or.inl nonempty)

/-- A `URL` with its user, query and fragment. -/
structure Reference extends URL where
  /-- The user before the host, if there is one. -/
  user : Option Userinfo := none
  /-- Whether there is a question mark before an empty query. -/
  forceQuery : Bool := false
  /-- The query as it is written. -/
  rawQuery : Bytes := []
  /-- The fragment, unescaped. -/
  fragment : Bytes := []
  deriving DecidableEq, Repr

namespace Reference

/-! ## Parts of a URL -/

/-- `URL.User.Username`. -/
def username (url : Reference) : Bytes := (url.user.map (·.username)).getD []

/-- `URL.User.Password`. -/
def password (url : Reference) : Bytes := (url.user.bind (·.password)).getD []

/-- The port, if the last colon has a valid one behind it, is cut off. -/
def cutPort (hostPort : Bytes) : Bytes × Bytes :=
  if hostPort.contains colon ∧ validOptionalPort (colon :: hostPort.rtakeWhile (· != colon)) then
    ((hostPort.rdropWhile (· != colon)).dropLast, hostPort.rtakeWhile (· != colon))
  else (hostPort, [])

/-- `splitHostPort`: brackets around the host are left out. -/
def splitHostPort (hostPort : Bytes) : Bytes × Bytes :=
  let (host, port) := cutPort hostPort
  (if host.head? = some 0x5B ∧ host.getLast? = some 0x5D then (host.drop 1).dropLast else host,
    port)

/-- `URL.Hostname`. -/
def hostname (url : Reference) : Bytes := (splitHostPort url.host).1

/-- `URL.Port`. -/
def port (url : Reference) : Bytes := (splitHostPort url.host).2

/-! ## Parsing -/

section Parser

variable (strictColons : Bool) (ipLiteral : Bytes → Except Error Bytes)

/-- `parseUserinfo` within `parseAuthority`. -/
def parseUserinfo (userinfo : Bytes) : Except Error Userinfo :=
  if !validUserinfo userinfo then .error .invalidUserinfo
  else if userinfo.contains colon then do
    let username ← unescape .userPassword (cut userinfo colon).1
    let password ← unescape .userPassword (cut userinfo colon).2
    return { username := username, password := some password }
  else do
    let username ← unescape .userPassword userinfo
    return { username := username, password := none }

/-- `parseAuthority`: the user before the last at sign, and the host behind it. -/
def parseAuthority (authority : Bytes) : Except Error (Option Userinfo × Bytes) := do
  let host ← parseHost strictColons ipLiteral (authority.rtakeWhile (· != atSign))
  if authority.contains atSign then
    let user ← parseUserinfo (authority.rdropWhile (· != atSign)).dropLast
    return (some user, host)
  else return (none, host)

/-- `parse` behind the scheme, without the query. -/
def parseRest (scheme rest : Bytes) : Except Error Reference :=
  if rest.head? ≠ some slash ∧ scheme ≠ [] then
    .ok { scheme := scheme, opaquePart := rest }
  else if rest.head? ≠ some slash ∧ (cut rest slash).1.contains colon then
    .error .colonInFirstSegment
  else if ascii "//" <+: rest ∧ (scheme ≠ [] ∨ ¬ ascii "///" <+: rest) then do
    let (user, host) ←
      parseAuthority strictColons ipLiteral ((rest.drop 2).takeWhile (· != slash))
    let path ← unescape .path ((rest.drop 2).dropWhile (· != slash))
    return { scheme := scheme, user := user, host := host, path := path }
  else do
    let path ← unescape .path rest
    return { scheme := scheme, path := path }

/-- What stands before the query, and the query: `ForceQuery` is set for one that is empty. -/
def cutQuery (rest : Bytes) : Bytes × Bool × Bytes :=
  if rest.getLast? = some questionMark ∧ rest.count questionMark = 1 then (rest.dropLast, true, [])
  else ((cut rest questionMark).1, false, (cut rest questionMark).2)

/-- `parse`, for a URL that does not come from a request, without its fragment. -/
def parseWithoutFragment (rawURL : Bytes) : Except Error Reference :=
  if rawURL.any isControl then .error .controlCharacter
  else if rawURL = ascii "*" then .ok { path := rawURL }
  else do
    let (scheme, rest) ← getScheme rawURL
    let url ← parseRest strictColons ipLiteral (lower scheme) (cutQuery rest).1
    return { url with forceQuery := (cutQuery rest).2.1, rawQuery := (cutQuery rest).2.2 }

/-- `Parse`. -/
def parse (rawURL : Bytes) : Except Error Reference := do
  let url ← parseWithoutFragment strictColons ipLiteral (cut rawURL numberSign).1
  if (cut rawURL numberSign).2 = [] then return url
  else
    let fragment ← unescape .fragment (cut rawURL numberSign).2
    return { url with fragment := fragment }

end Parser

end Reference

/-! ## Outcomes -/

theorem exists_of_bind_eq_ok {α β ε : Type} {outcome : Except ε α} {next : α → Except ε β}
    {result : β} (bound : outcome >>= next = .ok result) :
    ∃ value, outcome = .ok value ∧ next value = .ok result := by
  cases outcome with
  | error error => cases bound
  | ok value => exact ⟨value, rfl, bound⟩

theorem exists_of_map_eq_ok {α β ε : Type} {f : α → β} {outcome : Except ε α} {result : β}
    (mapped : outcome.map f = .ok result) : ∃ value, outcome = .ok value ∧ result = f value := by
  cases outcome with
  | error error => cases mapped
  | ok value => exact ⟨value, rfl, (Except.ok.inj mapped).symm⟩

/-! ## Unescaping -/

/-- Bytes that stand for themselves in a part of a URL. -/
def Literal (mode : Encoding) (b : UInt8) : Prop :=
  b ≠ percent ∧ (mode = .host → shouldEscape b .host = false)

theorem unescape_append {mode : Encoding} {front : Bytes} (literal : ∀ b ∈ front, Literal mode b)
    (s : Bytes) : unescape mode (front ++ s) = (unescape mode s).map (front ++ ·) := by
  induction front with
  | nil =>
      rw [List.nil_append]
      cases unescape mode s <;> rfl
  | cons b front ih =>
      obtain ⟨⟨plain, allowed⟩, behind⟩ := List.forall_mem_cons.mp literal
      rw [List.cons_append, unescape_plain mode plain, if_neg, ih behind]
      · cases unescape mode s <;> rfl
      · rintro ⟨host, _, forbidden⟩
        rw [allowed host] at forbidden
        cases forbidden

theorem unescape_literal {mode : Encoding} {s : Bytes} (literal : ∀ b ∈ s, Literal mode b) :
    unescape mode s = .ok s := by
  have read := unescape_append literal []
  rw [List.append_nil] at read
  rw [read]
  exact congrArg Except.ok (List.append_nil s)

theorem literal_of_notMem {mode : Encoding} {s : Bytes} (other : mode ≠ .host)
    (plain : percent ∉ s) : ∀ b ∈ s, Literal mode b := fun _ member =>
  ⟨fun same => plain (same ▸ member), fun host => absurd host other⟩

/-- A text and what it is read as, byte by byte: one that stands for itself, or a percent sign with
two digits.  In a host, both are restricted. -/
inductive Unescapes (mode : Encoding) : Bytes → Bytes → Prop
  | nil : Unescapes mode [] []
  | plain {b : UInt8} {s text : Bytes} (plain : b ≠ percent)
      (allowed : mode = .host → 0x80 ≤ b ∨ shouldEscape b .host = false)
      (rest : Unescapes mode s text) : Unescapes mode (b :: s) (b :: text)
  | escaped {high low c : UInt8} {s text : Bytes} (digits : ishex high = true ∧ ishex low = true)
      (allowed : mode = .host → 0x80 ≤ c ∨ c = percent) (rest : Unescapes mode s text) :
      Unescapes mode (percent :: high :: low :: s) (c :: text)

private theorem unhex_lt (b : UInt8) : ishex b = true → unhex b < 16 := by
  revert b
  exact forall_byte (by decide +kernel)

/-- What may be escaped in a host. -/
private theorem escaped_in_host {high low : UInt8} (digits : ishex high = true ∧ ishex low = true)
    (allowed : ¬ (unhex high < 8 ∧ ¬ (high = 0x32 ∧ low = 0x35))) :
    0x80 ≤ UInt8.ofNat (unhex high * 16 + unhex low) ∨
      UInt8.ofNat (unhex high * 16 + unhex low) = percent := by
  by_cases small : unhex high < 8
  · obtain ⟨rfl, rfl⟩ : high = 0x32 ∧ low = 0x35 := by
      by_contra other
      exact allowed ⟨small, other⟩
    exact Or.inr (by decide)
  · left
    have first := unhex_lt high digits.1
    have second := unhex_lt low digits.2
    rw [UInt8.le_iff_toNat_le, UInt8.toNat_ofNat_of_lt' (by simp only [UInt8.size]; omega)]
    change 0x80 ≤ _
    omega

theorem unescapes_of_eq_ok {mode : Encoding} {s text : Bytes} (read : unescape mode s = .ok text) :
    Unescapes mode s text := by
  -- An escaped byte takes three bytes of the text, so the induction is on the length.
  induction length : s.length using Nat.strong_induction_on generalizing s text with
  | _ length ih =>
      subst length
      rcases s with _ | ⟨b, rest⟩
      · cases read
        exact .nil
      by_cases escaped : b = percent
      · subst escaped
        rcases rest with _ | ⟨high, _ | ⟨low, rest⟩⟩
        · simp [unescape] at read
        · simp [unescape] at read
        rw [unescape, if_pos rfl] at read
        split_ifs at read with invalid forbidden
        obtain ⟨tail, behind, rfl⟩ := exists_of_map_eq_ok read
        simp only [Bool.or_eq_true, Bool.not_eq_true', not_or, Bool.not_eq_false] at invalid
        refine .escaped invalid (fun host => escaped_in_host invalid ?_)
          (ih rest.length (by simp only [List.length_cons]; omega) behind rfl)
        exact fun guard => forbidden ⟨host, guard⟩
      · rw [unescape_plain mode escaped] at read
        split_ifs at read with forbidden
        obtain ⟨tail, behind, rfl⟩ := exists_of_map_eq_ok read
        refine .plain escaped (fun host => ?_) (ih rest.length (Nat.lt_succ_self _) behind rfl)
        by_contra barred
        rw [not_or, UInt8.not_le, Bool.not_eq_false] at barred
        exact forbidden ⟨host, barred⟩

/-- Every percent sign takes two digits with it. -/
theorem length_of_unescape {mode : Encoding} {s text : Bytes} (read : unescape mode s = .ok text) :
    text.length + 2 * s.count percent = s.length := by
  have other : ∀ digit, ishex digit = true → digit ≠ percent := by
    rintro digit hex rfl
    revert hex
    decide
  have steps := unescapes_of_eq_ok read
  clear read
  induction steps with
  | nil => rfl
  | plain plain _ rest ih =>
      rw [List.count_cons_of_ne plain]
      simp only [List.length_cons]
      omega
  | escaped digits _ rest ih =>
      rw [List.count_cons_self, List.count_cons_of_ne (other _ digits.1),
        List.count_cons_of_ne (other _ digits.2)]
      simp only [List.length_cons]
      omega

/-! ## Cutting -/

theorem cut_append_of_notMem {front : Bytes} {b : UInt8} (absent : b ∉ front) (s : Bytes) :
    cut (front ++ s) b = (front ++ (cut s b).1, (cut s b).2) := by
  have passed := bne_of_notMem absent
  rw [cut, List.takeWhile_append_of_pos passed, List.dropWhile_append_of_pos passed]
  rfl

theorem notMem_cut (s : Bytes) (b : UInt8) : b ∉ (cut s b).1 := by
  intro member
  simpa using List.mem_takeWhile_imp member

theorem cut_cut (s : Bytes) (b : UInt8) : cut (cut s b).1 b = ((cut s b).1, []) :=
  cut_of_notMem (notMem_cut s b)

theorem cut_trimLeftByte {b c : UInt8} (other : c ≠ b) (s : Bytes) :
    (cut (trimLeftByte s c) b).1 = trimLeftByte (cut s b).1 c := by
  induction s with
  | nil => rfl
  | cons first s ih =>
      by_cases trims : first = c
      · subst trims
        simpa [cut, trimLeftByte, other] using ih
      · by_cases stops : first = b
        · simp [cut, trimLeftByte, stops, other.symm]
        · simp [cut, trimLeftByte, trims, stops]

theorem cut_append_cons {front : Bytes} {b : UInt8} (absent : b ∉ front) (back : Bytes) :
    cut (front ++ b :: back) b = (front, back) := by
  rw [cut_append_of_notMem absent]
  simp [cut]

theorem dropWhile_append_cons {front : Bytes} {b : UInt8} (absent : b ∉ front) (back : Bytes) :
    (front ++ b :: back).dropWhile (· != b) = b :: back := by
  rw [List.dropWhile_append_of_pos (bne_of_notMem absent)]
  simp

theorem rtakeWhile_append_cons {front back : Bytes} {b : UInt8} (absent : b ∉ back) :
    (front ++ b :: back).rtakeWhile (· != b) = back := by
  have passed : ∀ c ∈ back.reverse, (c != b) = true := bne_of_notMem (by simpa using absent)
  have text : (front ++ b :: back).reverse = back.reverse ++ b :: front.reverse := by simp
  rw [List.rtakeWhile, text, List.takeWhile_append_of_pos passed]
  simp

theorem rdropWhile_append_cons {front back : Bytes} {b : UInt8} (absent : b ∉ back) :
    (front ++ b :: back).rdropWhile (· != b) = front ++ [b] := by
  have split := @List.rdropWhile_append_rtakeWhile _ (· != b) (front ++ b :: back)
  rw [rtakeWhile_append_cons absent] at split
  exact List.append_cancel_right (split.trans (List.append_cons front b back))

namespace Reference

theorem cutQuery_eq (rest : Bytes) :
    cutQuery rest = ((cut rest questionMark).1,
      decide (questionMark ∈ rest ∧ (cut rest questionMark).2 = []),
      (cut rest questionMark).2) := by
  rw [cutQuery]
  by_cases member : questionMark ∈ rest
  · obtain ⟨front, back, rfl, absent⟩ := List.eq_append_cons_of_mem member
    rw [cut_append_cons absent]
    cases back with
    | nil => simp [List.count_eq_zero_of_not_mem absent]
    | cons b back =>
        refine (if_neg ?_).trans (by simp)
        rintro ⟨last, once⟩
        have behind : questionMark ∈ b :: back := by
          rw [List.getLast?_append_of_ne_nil _ (List.cons_ne_nil _ _),
            List.getLast?_cons_cons] at last
          exact List.mem_of_getLast? last
        have twice := List.count_pos_iff.mpr behind
        rw [List.count_append, List.count_eq_zero_of_not_mem absent, List.count_cons_self] at once
        omega
  · refine (if_neg ?_).trans (by simp [member])
    rintro ⟨last, _⟩
    exact member (List.mem_of_getLast? last)

section Parser

variable (strictColons : Bool) (ipLiteral : Bytes → Except Error Bytes)

theorem parseUserinfo_map (userinfo : Bytes) :
    (parseUserinfo userinfo).map (fun _ => ()) = Url.parseUserinfo userinfo := by
  unfold parseUserinfo Url.parseUserinfo
  split_ifs
  · rfl
  · cases unescape .userPassword (cut userinfo colon).1 with
    | error error => rfl
    | ok username => cases unescape .userPassword (cut userinfo colon).2 <;> rfl
  · cases unescape .userPassword userinfo <;> rfl

theorem parseAuthority_map (authority : Bytes) :
    (parseAuthority strictColons ipLiteral authority).map Prod.snd =
      Url.parseAuthority strictColons ipLiteral authority := by
  unfold parseAuthority Url.parseAuthority
  rw [← parseUserinfo_map]
  cases parseHost strictColons ipLiteral (authority.rtakeWhile (· != atSign)) with
  | error error => rfl
  | ok host =>
      simp only [bind, Except.bind]
      split_ifs
      · cases parseUserinfo (authority.rdropWhile (· != atSign)).dropLast <;> rfl
      · rfl

theorem parseRest_map (scheme rest : Bytes) :
    (parseRest strictColons ipLiteral scheme rest).map toURL =
      Url.parseRest strictColons ipLiteral scheme rest := by
  unfold parseRest Url.parseRest
  rw [← parseAuthority_map]
  split_ifs
  · rfl
  · rfl
  · cases parseAuthority strictColons ipLiteral ((rest.drop 2).takeWhile (· != slash)) with
    | error error => rfl
    | ok parsed => cases unescape .path ((rest.drop 2).dropWhile (· != slash)) <;> rfl
  · cases unescape .path rest <;> rfl

theorem parseWithoutFragment_map (rawURL : Bytes) :
    (parseWithoutFragment strictColons ipLiteral rawURL).map toURL =
      Url.parseWithoutFragment strictColons ipLiteral rawURL := by
  unfold parseWithoutFragment Url.parseWithoutFragment
  split_ifs
  · rfl
  · rfl
  · cases getScheme rawURL with
    | error error => rfl
    | ok split =>
        simp only [bind, Except.bind]
        rw [← parseRest_map, cutQuery_eq, questionMark]
        cases parseRest strictColons ipLiteral (lower split.1) (cut split.2 0x3F).1 <;> rfl

/-- Without its user, query and fragment, the URL is what the smaller parser makes of the text. -/
theorem parse_toURL (rawURL : Bytes) :
    (parse strictColons ipLiteral rawURL).map toURL = Url.parse strictColons ipLiteral rawURL := by
  unfold parse Url.parse
  rw [← parseWithoutFragment_map, numberSign]
  cases parseWithoutFragment strictColons ipLiteral (cut rawURL 0x23).1 with
  | error error => rfl
  | ok url =>
      by_cases none : (cut rawURL 0x23).2 = []
      · simp only [none, bind, Except.bind]
        rfl
      · simp only [bind, Except.bind, Except.map, if_neg none, if_pos none]
        cases unescape .fragment (cut rawURL 0x23).2 <;> rfl

end Parser

/-! ## URLs with an authority -/

/-- A letter, and letters, digits and marks after it. -/
def isScheme : Bytes → Bool
  | [] => false
  | first :: rest =>
      isAlphanumeric first && !(0x30 ≤ first && first ≤ 0x39) &&
        rest.all fun b => isAlphanumeric b || (ascii "+-.").contains b

/-- The bytes of an authority. -/
def authorityByte (b : UInt8) : Bool := b != slash && b != questionMark && b != numberSign

theorem authorityByte_of_isAlphanumeric (b : UInt8) (alphanumeric : isAlphanumeric b = true) :
    authorityByte b = true ∧ isControl b = false := by
  grind [isAlphanumeric, isControl, authorityByte, slash, questionMark, numberSign]

/-- What stands before the query and the fragment. -/
def hierarchy (text : Bytes) : Bytes := (cut (cut text numberSign).1 questionMark).1

/-- The fragment, which is not unescaped if it is empty. -/
def parseFragment (fragment : Bytes) : Except Error Bytes :=
  if fragment = [] then .ok [] else unescape .fragment fragment

theorem getScheme_append {scheme : Bytes} (named : isScheme scheme = true) (rest : Bytes) :
    getScheme (scheme ++ colon :: rest) = .ok (scheme, rest) := by
  cases scheme with
  | nil => cases named
  | cons first more =>
      simp only [isScheme, Bool.and_eq_true, Bool.not_eq_true', List.all_eq_true] at named
      obtain ⟨⟨letter, noDigit⟩, marks⟩ := named
      have passed : ∀ b ∈ first :: more,
          (isAlphanumeric b || (ascii "+-.").contains b) = true := by
        intro b member
        rcases List.mem_cons.mp member with rfl | later
        · simp [letter]
        · exact marks b later
      have stops : ¬ (isAlphanumeric colon || (ascii "+-.").contains colon) = true := by decide
      have stopped : (colon :: rest).takeWhile (fun b =>
          isAlphanumeric b || (ascii "+-.").contains b) = [] := List.takeWhile_cons_of_neg stops
      have front : (first :: more ++ colon :: rest).takeWhile (fun b =>
          isAlphanumeric b || (ascii "+-.").contains b) = first :: more := by
        rw [List.takeWhile_append_of_pos passed, stopped, List.append_nil]
      have back : (first :: more ++ colon :: rest).dropWhile (fun b =>
          isAlphanumeric b || (ascii "+-.").contains b) = colon :: rest := by
        rw [List.dropWhile_append_of_pos passed]
        exact List.dropWhile_cons_of_neg stops
      rw [getScheme, front, back]
      exact if_pos ⟨rfl, letter, by simpa using noDigit⟩

/-- The authority ends at the first slash, question mark or number sign. -/
theorem takeWhile_hierarchy (text : Bytes) :
    (hierarchy text).takeWhile (· != slash) = text.takeWhile authorityByte := by
  rw [hierarchy, cut, cut, List.takeWhile_takeWhile, List.takeWhile_takeWhile]
  congr 1
  funext b
  rw [Bool.eq_iff_iff]
  simp [authorityByte, and_assoc]

theorem hierarchy_append {front : Bytes} (marked : questionMark ∉ front)
    (numbered : numberSign ∉ front) (text : Bytes) :
    hierarchy (front ++ text) = front ++ hierarchy text := by
  rw [hierarchy, cut_append_of_notMem numbered, cut_append_of_notMem marked]
  rfl

theorem hierarchy_front (text : Bytes) : hierarchy text <+: text :=
  (List.takeWhile_prefix _).trans (List.takeWhile_prefix _)

theorem notMem_hierarchy (text : Bytes) :
    questionMark ∉ hierarchy text ∧ numberSign ∉ hierarchy text :=
  ⟨notMem_cut _ _, fun member => notMem_cut _ _ ((List.takeWhile_prefix _).subset member)⟩

/-- A text is read as a path as it is exactly if it has no question mark, number sign or percent
sign. -/
theorem unescape_hierarchy_iff (text : Bytes) :
    unescape .path (hierarchy text) = .ok text ↔
      questionMark ∉ text ∧ numberSign ∉ text ∧ percent ∉ text := by
  constructor
  · intro read
    have length := length_of_unescape read
    have bounded := (hierarchy_front text).length_le
    have whole : hierarchy text = text := (hierarchy_front text).eq_of_length (by omega)
    obtain ⟨marked, numbered⟩ := notMem_hierarchy text
    rw [whole] at marked numbered length
    exact ⟨marked, numbered, List.count_eq_zero.mp (by omega)⟩
  · rintro ⟨marked, numbered, plain⟩
    have whole := hierarchy_append marked numbered []
    rw [List.append_nil] at whole
    rw [whole]
    refine (congrArg (unescape .path) (List.append_nil text)).trans (unescape_literal ?_)
    exact literal_of_notMem (by decide) plain

/-! ## Users -/

theorem kept_in_userinfo {b : UInt8} (kept : shouldEscape b .userPassword = false) :
    (isAlphanumeric b || (ascii "-._:~!$&'()*+,;=%@").contains b) = true := by
  simp [shouldEscape, ascii] at kept ⊢
  grind

/-- The bytes of users and passwords end no authority and are no control characters. -/
theorem userinfoByte_plain : ∀ b : UInt8,
    (isAlphanumeric b || (ascii "-._:~!$&'()*+,;=%@").contains b) = true →
      authorityByte b = true ∧ isControl b = false :=
  forall_alphanumeric_or_mark authorityByte_of_isAlphanumeric (by decide)

private theorem validUserinfo_escape_userPassword (s : Bytes) :
    validUserinfo (escape s .userPassword) = true :=
  all_escape (by decide) (by decide) fun _ _ kept => kept_in_userinfo kept

private theorem colon_notMem_escape (s : Bytes) : colon ∉ escape s .userPassword :=
  notMem_escape ⟨by decide, by decide⟩ (by decide) s

private theorem parseUserinfo_username (user : Bytes) :
    parseUserinfo (escape user .userPassword) = .ok { username := user, password := none } := by
  have separated : (escape user .userPassword).contains colon = false := by
    simpa using colon_notMem_escape user
  simp only [parseUserinfo, validUserinfo_escape_userPassword, separated,
    @unescape_escape_of_ne .userPassword (by decide), Bool.not_true, Bool.false_eq_true,
    if_false]
  rfl

private theorem parseUserinfo_password (user password : Bytes) :
    parseUserinfo (escape user .userPassword ++ colon :: escape password .userPassword) =
      .ok { username := user, password := some password } := by
  have whole : validUserinfo
      (escape user .userPassword ++ colon :: escape password .userPassword) = true := by
    have mark : validUserinfo [colon] = true := by decide
    have left := validUserinfo_escape_userPassword user
    have right := validUserinfo_escape_userPassword password
    rw [validUserinfo] at left right mark ⊢
    rw [List.append_cons, List.all_append, List.all_append, left, mark, right]
    rfl
  have separated :
      (escape user .userPassword ++ colon :: escape password .userPassword).contains colon =
        true := by
    simp
  simp only [parseUserinfo, whole, separated, cut_append_cons (colon_notMem_escape user),
    @unescape_escape_of_ne .userPassword (by decide), Bool.not_true, Bool.false_eq_true,
    if_false, if_true]
  rfl

/-- A user is read back from what is written for it, except an empty one whose empty password has
been set. -/
theorem parseUserinfo_string {user : Userinfo}
    (shown : user ≠ { username := [], password := some [] }) :
    parseUserinfo user.string = .ok user := by
  obtain ⟨username, _ | password⟩ := user
  · have written : Userinfo.string { username := username, password := none } =
        escape username .userPassword := by
      by_cases empty : username = []
      · rw [empty]
        rfl
      · simp [Userinfo.string, empty]
    rw [written, parseUserinfo_username]
  · have written : Userinfo.string { username := username, password := some password } =
        escape username .userPassword ++ colon :: escape password .userPassword := by
      refine if_pos ?_
      by_contra empty
      obtain ⟨rfl, rfl⟩ : username = [] ∧ password = [] := by simpa using empty
      exact shown rfl
    rw [written, parseUserinfo_password]

/-- The parts of a user that has been read. -/
theorem eq_of_parseUserinfo {userinfo : Bytes} {user : Userinfo}
    (parsed : parseUserinfo userinfo = .ok user) :
    validUserinfo userinfo = true ∧
      (colon ∈ userinfo ∧
          unescape .userPassword (cut userinfo colon).1 = .ok user.username ∨
        colon ∉ userinfo ∧ unescape .userPassword userinfo = .ok user.username) := by
  unfold parseUserinfo at parsed
  split_ifs at parsed with invalid separated
  · refine ⟨by simpa using invalid, Or.inl ⟨by simpa using separated, ?_⟩⟩
    obtain ⟨username, first, parsed⟩ := exists_of_bind_eq_ok parsed
    obtain ⟨password, second, parsed⟩ := exists_of_bind_eq_ok parsed
    cases parsed
    exact first
  · refine ⟨by simpa using invalid, Or.inr ⟨by simpa using separated, ?_⟩⟩
    obtain ⟨username, whole, parsed⟩ := exists_of_bind_eq_ok parsed
    cases parsed
    exact whole

theorem length_cut_fst_lt {s : Bytes} {b : UInt8} (member : b ∈ s) :
    (cut s b).1.length < s.length := by
  obtain ⟨front, back, rfl, absent⟩ := List.eq_append_cons_of_mem member
  rw [cut_append_cons absent]
  simp only [List.length_append, List.length_cons]
  omega

theorem length_le_of_unescape {mode : Encoding} {s text : Bytes}
    (read : unescape mode s = .ok text) : text.length ≤ s.length := by
  have := length_of_unescape read
  omega

/-- A user is not longer than what it is read from, and as long only if that is the user itself,
without a percent sign or a colon. -/
theorem length_username_le {userinfo : Bytes} {user : Userinfo}
    (parsed : parseUserinfo userinfo = .ok user) :
    user.username.length ≤ userinfo.length ∧
      (user.username.length = userinfo.length → colon ∉ userinfo ∧ percent ∉ userinfo) := by
  rcases (eq_of_parseUserinfo parsed).2 with ⟨member, read⟩ | ⟨absent, read⟩
  · have shorter := length_cut_fst_lt member
    have bounded := length_le_of_unescape read
    exact ⟨by omega, fun same => by omega⟩
  · have length := length_of_unescape read
    refine ⟨by omega, fun same => ⟨absent, fun marked => ?_⟩⟩
    have := List.count_pos_iff.mpr marked
    omega

section Absolute

variable (strictColons : Bool) (ipLiteral : Bytes → Except Error Bytes)

theorem parseAuthority_of_notMem {hostPort : Bytes} (absent : atSign ∉ hostPort) :
    parseAuthority strictColons ipLiteral hostPort =
      (parseHost strictColons ipLiteral hostPort).map fun host => (none, host) := by
  have whole : hostPort.rtakeWhile (· != atSign) = hostPort :=
    List.rtakeWhile_eq_self_iff.mpr (bne_of_notMem absent)
  rw [parseAuthority, whole]
  simp only [List.contains_eq_mem, absent, decide_false, Bool.false_eq_true, if_false]
  cases parseHost strictColons ipLiteral hostPort <;> rfl

/-- The user ends at the last at sign. -/
theorem parseAuthority_append {hostPort : Bytes} (absent : atSign ∉ hostPort) (userinfo : Bytes) :
    parseAuthority strictColons ipLiteral (userinfo ++ atSign :: hostPort) = do
      let host ← parseHost strictColons ipLiteral hostPort
      let user ← parseUserinfo userinfo
      return (some user, host) := by
  have member : (userinfo ++ atSign :: hostPort).contains atSign = true := by simp
  rw [parseAuthority, rtakeWhile_append_cons absent, rdropWhile_append_cons absent,
    List.dropLast_concat]
  simp only [member, if_true]

variable {strictColons ipLiteral} in
/-- A user is not longer than the authority it is read from. -/
theorem length_username_le_authority {authority host : Bytes} {user : Option Userinfo}
    (parsed : parseAuthority strictColons ipLiteral authority = .ok (user, host)) :
    ((user.map (·.username)).getD []).length ≤ authority.length := by
  unfold parseAuthority at parsed
  obtain ⟨name, -, parsed⟩ := exists_of_bind_eq_ok parsed
  split_ifs at parsed
  · obtain ⟨info, read, parsed⟩ := exists_of_bind_eq_ok parsed
    cases parsed
    have part := (List.rdropWhile_prefix (· != atSign) (l := authority)).length_le
    have shorter := (length_username_le read).1
    rw [List.length_dropLast] at shorter
    simp only [Option.map_some, Option.getD_some]
    omega
  · cases parsed
    exact Nat.zero_le _

theorem lower_ne_nil {scheme : Bytes} (named : isScheme scheme = true) : lower scheme ≠ [] := by
  cases scheme with
  | nil => cases named
  | cons first more => simp [lower]

/-- `parse` behind a scheme and two slashes. -/
theorem parseRest_authority {scheme text : Bytes}
    (named : scheme ≠ [] ∨ ¬ ascii "///" <+: ascii "//" ++ text) :
    parseRest strictColons ipLiteral scheme (ascii "//" ++ text) = do
      let (user, host) ← parseAuthority strictColons ipLiteral (text.takeWhile (· != slash))
      let path ← unescape .path (text.dropWhile (· != slash))
      return { scheme := scheme, user := user, host := host, path := path } := by
  have starts : (ascii "//" ++ text).head? = some slash := rfl
  have two : (ascii "//" ++ text).drop 2 = text := rfl
  rw [parseRest, if_neg (by simp [starts]), if_neg (by simp [starts]),
    if_pos ⟨List.prefix_append _ _, named⟩, two]

theorem notMem_of_isScheme {scheme : Bytes} {b : UInt8} (named : isScheme scheme = true)
    (other : (isAlphanumeric b || (ascii "+-.").contains b) = false) : b ∉ scheme := by
  intro member
  cases scheme with
  | nil => cases named
  | cons first more =>
      simp only [isScheme, Bool.and_eq_true, List.all_eq_true] at named
      rcases List.mem_cons.mp member with rfl | later
      · simp [named.1.1] at other
      · rw [named.2 b later] at other
        cases other

theorem cutQuery_append {front : Bytes} (absent : questionMark ∉ front) (s : Bytes) :
    cutQuery (front ++ s) = (front ++ (cutQuery s).1, (cutQuery s).2) := by
  simp only [cutQuery_eq, cut_append_of_notMem absent, List.mem_append, absent, false_or]

theorem cutQuery_fst (s : Bytes) : (cutQuery s).1 = (cut s questionMark).1 := by
  rw [cutQuery_eq]

/-- The parts of a URL with an authority. -/
theorem parse_absolute {scheme : Bytes} (named : isScheme scheme = true) (text : Bytes) :
    parse strictColons ipLiteral (scheme ++ ascii "://" ++ text) =
      if (scheme ++ ascii "://" ++ (cut text numberSign).1).any isControl then
        .error .controlCharacter
      else do
        let (user, host) ←
          parseAuthority strictColons ipLiteral (text.takeWhile authorityByte)
        let path ← unescape .path ((hierarchy text).dropWhile (· != slash))
        let fragment ← parseFragment (cut text numberSign).2
        return {
          scheme := lower scheme, user := user, host := host, path := path
          forceQuery := (cutQuery (cut text numberSign).1).2.1
          rawQuery := (cutQuery (cut text numberSign).1).2.2
          fragment := fragment } := by
  have numbered : numberSign ∉ scheme ++ ascii "://" := by
    rw [List.mem_append, not_or]
    exact ⟨notMem_of_isScheme named (by decide), by decide⟩
  rw [parse, cut_append_of_notMem numbered, parseWithoutFragment]
  by_cases control : (scheme ++ ascii "://" ++ (cut text numberSign).1).any isControl = true
  · rw [if_pos control, if_pos control]
    rfl
  · have other : scheme ++ ascii "://" ++ (cut text numberSign).1 ≠ ascii "*" := by
      intro same
      have long := congrArg List.length same
      have three : (ascii "://").length = 3 := rfl
      have one : (ascii "*").length = 1 := rfl
      rw [List.length_append, List.length_append, three, one] at long
      omega
    have split : getScheme (scheme ++ ascii "://" ++ (cut text numberSign).1) =
        .ok (scheme, ascii "//" ++ (cut text numberSign).1) := by
      rw [List.append_assoc]
      exact getScheme_append named _
    have unmarked : questionMark ∉ ascii "//" := by decide
    rw [if_neg control, if_neg control, if_neg other, split]
    simp only [bind, Except.bind, cutQuery_append unmarked, parseRest_authority _ _
      (Or.inl (lower_ne_nil named)), cutQuery_fst]
    rw [← hierarchy, takeWhile_hierarchy]
    cases parseAuthority strictColons ipLiteral (text.takeWhile authorityByte) with
    | error error => rfl
    | ok parsed =>
        cases unescape .path ((hierarchy text).dropWhile (· != slash)) with
        | error error => rfl
        | ok path =>
            rw [parseFragment]
            split_ifs with none
            · rfl
            · cases unescape .fragment (cut text numberSign).2 <;> rfl

/-- Text that can stand behind an authority. -/
def Rooted (rest : Bytes) : Prop := rest = [] ∨ rest.head? = some slash

theorem rooted_hierarchy {rest : Bytes} (rooted : Rooted rest) : Rooted (hierarchy rest) := by
  rcases rooted with rfl | starts
  · exact Or.inl rfl
  · obtain ⟨behind, rfl⟩ := List.head?_eq_some_iff.mp starts
    right
    have marked : questionMark ∉ [slash] := by decide
    have numbered : numberSign ∉ [slash] := by decide
    rw [← List.singleton_append, hierarchy_append marked numbered]
    rfl

theorem takeWhile_authority {authority rest : Bytes}
    (inside : ∀ b ∈ authority, authorityByte b = true) (rooted : Rooted rest) :
    (authority ++ rest).takeWhile authorityByte = authority := by
  rw [List.takeWhile_append_of_pos inside]
  rcases rooted with rfl | starts
  · simp
  · obtain ⟨behind, rfl⟩ := List.head?_eq_some_iff.mp starts
    rw [List.takeWhile_cons_of_neg (by decide), List.append_nil]

theorem dropWhile_hierarchy {authority rest : Bytes}
    (inside : ∀ b ∈ authority, authorityByte b = true) (rooted : Rooted rest) :
    (hierarchy (authority ++ rest)).dropWhile (· != slash) = hierarchy rest := by
  have noSlash : slash ∉ authority := notMem_of_forall inside (by decide)
  rw [hierarchy_append (notMem_of_forall inside (by decide))
    (notMem_of_forall inside (by decide)), List.dropWhile_append_of_pos (bne_of_notMem noSlash)]
  rcases rooted_hierarchy rooted with empty | starts
  · rw [empty]
    rfl
  · obtain ⟨behind, text⟩ := List.head?_eq_some_iff.mp starts
    rw [text, List.dropWhile_cons_of_neg (by decide)]

/-- The parts of a URL whose authority is given. -/
theorem parse_authority_append {scheme authority rest : Bytes} (named : isScheme scheme = true)
    (inside : ∀ b ∈ authority, authorityByte b = true) (rooted : Rooted rest) :
    parse strictColons ipLiteral (scheme ++ ascii "://" ++ (authority ++ rest)) =
      if (scheme ++ ascii "://" ++ (authority ++ (cut rest numberSign).1)).any isControl then
        .error .controlCharacter
      else do
        let (user, host) ← parseAuthority strictColons ipLiteral authority
        let path ← unescape .path (hierarchy rest)
        let fragment ← parseFragment (cut rest numberSign).2
        return {
          scheme := lower scheme, user := user, host := host, path := path
          forceQuery := (cutQuery (cut rest numberSign).1).2.1
          rawQuery := (cutQuery (cut rest numberSign).1).2.2
          fragment := fragment } := by
  rw [parse_absolute strictColons ipLiteral named, takeWhile_authority inside rooted,
    dropWhile_hierarchy inside rooted, cut_append_of_notMem (notMem_of_forall inside (by decide)),
    cutQuery_append (notMem_of_forall inside (by decide))]

variable {strictColons ipLiteral}

/-- Where the parts of a URL with an authority come from. -/
theorem parse_absolute_eq_ok_iff {scheme text : Bytes} {url : Reference}
    (named : isScheme scheme = true) :
    parse strictColons ipLiteral (scheme ++ ascii "://" ++ text) = .ok url ↔
      (scheme ++ ascii "://" ++ (cut text numberSign).1).any isControl = false ∧
        parseAuthority strictColons ipLiteral (text.takeWhile authorityByte) =
          .ok (url.user, url.host) ∧
        unescape .path ((hierarchy text).dropWhile (· != slash)) = .ok url.path ∧
        parseFragment (cut text numberSign).2 = .ok url.fragment ∧
        url.forceQuery = (cutQuery (cut text numberSign).1).2.1 ∧
        url.rawQuery = (cutQuery (cut text numberSign).1).2.2 ∧
        url.scheme = lower scheme ∧ url.opaquePart = [] := by
  rw [parse_absolute strictColons ipLiteral named]
  constructor
  · intro parsed
    split_ifs at parsed with control
    obtain ⟨⟨user, host⟩, authority, parsed⟩ := exists_of_bind_eq_ok parsed
    obtain ⟨path, read, parsed⟩ := exists_of_bind_eq_ok parsed
    obtain ⟨fragment, ending, parsed⟩ := exists_of_bind_eq_ok parsed
    cases parsed
    exact ⟨Bool.eq_false_iff.mpr control, authority, read, ending, rfl, rfl, rfl, rfl⟩
  · rintro ⟨control, authority, path, fragment, force, query, lowered, hierarchical⟩
    rw [control, authority, path, fragment, ← force, ← query, ← lowered]
    obtain ⟨⟨scheme, opaquePart, host, path⟩, user, forceQuery, rawQuery, fragment⟩ := url
    cases hierarchical
    rfl

/-- Without its fragment, a URL is what stands before the number sign. -/
theorem parse_cut {scheme text : Bytes} {url : Reference} (named : isScheme scheme = true)
    (parsed : parse strictColons ipLiteral (scheme ++ ascii "://" ++ text) = .ok url) :
    parse strictColons ipLiteral (scheme ++ ascii "://" ++ (cut text numberSign).1) =
      .ok { url with fragment := [] } := by
  have same : hierarchy (cut text numberSign).1 = hierarchy text := by
    rw [hierarchy, cut_cut, hierarchy]
  have ends : (cut text numberSign).1.takeWhile authorityByte = text.takeWhile authorityByte := by
    rw [← takeWhile_hierarchy, same, takeWhile_hierarchy]
  obtain ⟨control, authority, path, _, rest⟩ := (parse_absolute_eq_ok_iff named).mp parsed
  rw [parse_absolute_eq_ok_iff named, cut_cut, ends, same]
  exact ⟨control, authority, path, rfl, rest⟩

end Absolute

end Reference

end Go.Url
