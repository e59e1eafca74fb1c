import CommonGo.Go.Strings
import Mathlib.Data.List.DropRight

/-!
# URLs of Go

`net/url` as far as scheme, opaque part, host and path go: escaping, `URL.String` and `Parse`.  Two
things are parameters of the parser: what it makes of a host in brackets, and whether a host may
have colons before its port, which depends on the release and on a setting.
-/

namespace Go.Url

/-! ## Escaping -/

/-- The parts of a URL that are escaped in different ways. -/
inductive Encoding where
  | path
  | host
  | userPassword
  | fragment
  deriving DecidableEq, Repr

/-- The letters and digits of ASCII. -/
def isAlphanumeric (b : UInt8) : Bool :=
  (0x61 ≤ b && b ≤ 0x7A) || (0x41 ≤ b && b ≤ 0x5A) || (0x30 ≤ b && b ≤ 0x39)

/-- `shouldEscape`. -/
def shouldEscape (b : UInt8) (mode : Encoding) : Bool :=
  if isAlphanumeric b then false
  else if mode = .host ∧ (ascii "!$&'()*+,;=:[]<>\"").contains b then false
  else if (ascii "-_.~").contains b then false
  else if (ascii "$&+,/:;=?@").contains b then
    match mode with
    -- The path is escaped as a whole, so that only the mark of the query is left to escape.
    | .path => b == 0x3F
    | .userPassword => (ascii "@/?:").contains b
    | .fragment => false
    | .host => true
  else if mode = .fragment ∧ (ascii "!()*").contains b then false
  else true

/-- The digits that `escape` writes. -/
def upperHex (n : Nat) : UInt8 := if n < 10 then UInt8.ofNat (0x30 + n) else UInt8.ofNat (0x37 + n)

/-- `ishex`. -/
def ishex (b : UInt8) : Bool :=
  (0x30 ≤ b && b ≤ 0x39) || (0x61 ≤ b && b ≤ 0x66) || (0x41 ≤ b && b ≤ 0x46)

/-- The value of a hexadecimal digit. -/
def unhex (b : UInt8) : Nat :=
  if b ≤ 0x39 then b.toNat - 0x30 else if b ≤ 0x46 then b.toNat - 0x37 else b.toNat - 0x57

/-- The byte before two digits. -/
def percent : UInt8 := 0x25

/-- `escape` of one byte. -/
def escapeByte (mode : Encoding) (b : UInt8) : Bytes :=
  if shouldEscape b mode then [percent, upperHex (b.toNat / 16), upperHex (b.toNat % 16)] else [b]

/-- `escape`. -/
def escape (s : Bytes) (mode : Encoding) : Bytes := s.flatMap (escapeByte mode)

/-- The errors of `Parse`. -/
inductive Error where
  | escape (text : Bytes)
  | invalidHost (text : Bytes)
  | invalidPort (colonPort : Bytes)
  | invalidUserinfo
  | controlCharacter
  | missingScheme
  | colonInFirstSegment
  /-- What is wrong with a host in brackets. -/
  | ipLiteral (text : Bytes)
  deriving DecidableEq, Repr

/-- `unescape`. -/
def unescape (mode : Encoding) : Bytes → Except Error Bytes
  | [] => .ok []
  | b :: rest =>
      if b = percent then
        match rest with
        | high :: low :: rest =>
            if !ishex high || !ishex low then .error (.escape [b, high, low])
            -- In a host, only bytes beyond ASCII and the percent sign are escaped.
            else if mode = .host ∧ unhex high < 8 ∧ ¬ (high = 0x32 ∧ low = 0x35) then
              .error (.escape [b, high, low])
            else (unescape mode rest).map (UInt8.ofNat (unhex high * 16 + unhex low) :: ·)
        | short => .error (.escape (b :: short))
      else if mode = .host ∧ b < 0x80 ∧ shouldEscape b .host then .error (.invalidHost [b])
      else (unescape mode rest).map (b :: ·)

/-! ## URLs -/

/-- The fields of a `URL` that are modelled. -/
structure URL where
  /-- The scheme, in lower case. -/
  scheme : Bytes := []
  /-- What follows the scheme if it is not a path. -/
  opaquePart : Bytes := []
  /-- The host, with its port, unescaped. -/
  host : Bytes := []
  /-- The path, unescaped. -/
  path : Bytes := []
  deriving DecidableEq, Repr

/-- The byte before every element of a path. -/
def slash : UInt8 := 0x2F

/-- The byte behind a scheme, before a password and before a port. -/
def colon : UInt8 := 0x3A

/-- The byte behind a user. -/
def atSign : UInt8 := 0x40

/-- `strings.Cut` at a byte. -/
def cut (s : Bytes) (b : UInt8) : Bytes × Bytes :=
  (s.takeWhile (· != b), (s.dropWhile (· != b)).drop 1)

/-- `URL.EscapedPath` of a URL without a raw path. -/
def escapedPath (path : Bytes) : Bytes := if path = ascii "*" then path else escape path .path

/-- `URL.String`. -/
def URL.string (url : URL) : Bytes :=
  let scheme := if url.scheme = [] then [] else url.scheme ++ [colon]
  if url.opaquePart ≠ [] then scheme ++ url.opaquePart
  else
    let slashes := if url.host ≠ [] ∨ url.scheme ≠ [] ∧ url.path ≠ [] then ascii "//" else []
    let front := scheme ++ slashes ++ escape url.host .host
    let path := escapedPath url.path
    let separator :=
      if path ≠ [] ∧ path.head? ≠ some slash ∧ url.host ≠ [] then [slash]
      else if front = [] ∧ (cut path slash).1.contains colon then ascii "./"
      else []
    front ++ separator ++ path

/-- The bytes of `stringContainsCTLByte`. -/
def isControl (b : UInt8) : Bool := b < 0x20 || b == 0x7F

/-- `getScheme`: a letter and letters, digits and marks after it, up to a colon. -/
def getScheme (rawURL : Bytes) : Except Error (Bytes × Bytes) :=
  let front := rawURL.takeWhile fun b => isAlphanumeric b || (ascii "+-.").contains b
  let rest := rawURL.dropWhile fun b => isAlphanumeric b || (ascii "+-.").contains b
  match front, rest with
  | [], b :: _ => if b = colon then .error .missingScheme else .ok ([], rawURL)
  | first :: _, b :: rest =>
      if b = colon ∧ isAlphanumeric first ∧ ¬ (0x30 ≤ first ∧ first ≤ 0x39) then .ok (front, rest)
      else .ok ([], rawURL)
  | _, [] => .ok ([], rawURL)

/-- `strings.ToLower` on a scheme. -/
def lower (s : Bytes) : Bytes := s.map fun b => if 0x41 ≤ b && b ≤ 0x5A then b + 0x20 else b

/-- `validOptionalPort`. -/
def validOptionalPort : Bytes → Bool
  | [] => true
  | b :: digits => b == colon && digits.all fun d => 0x30 ≤ d && d ≤ 0x39

/-- `validUserinfo`. -/
def validUserinfo (s : Bytes) : Bool :=
  s.all fun b => isAlphanumeric b || (ascii "-._:~!$&'()*+,;=%@").contains b

section Parser

variable (strictColons : Bool) (ipLiteral : Bytes → Except Error Bytes)

/-- From the colon that is taken for the one before the port. -/
def colonPort (host : Bytes) : Bytes :=
  if strictColons then host.dropWhile (· != colon) else colon :: host.rtakeWhile (· != colon)

/-- `parseHost`. -/
def parseHost (host : Bytes) : Except Error Bytes :=
  if host.contains 0x5B then ipLiteral host
  else if host.contains colon ∧ validOptionalPort (colonPort strictColons host) = false then
    .error (.invalidPort (colonPort strictColons host))
  else unescape .host host

/-- The user before the last at sign, which is checked and left out of the host. -/
def parseUserinfo (userinfo : Bytes) : Except Error Unit :=
  if !validUserinfo userinfo then .error .invalidUserinfo
  else if userinfo.contains colon then do
    let _ ← unescape .userPassword (cut userinfo colon).1
    let _ ← unescape .userPassword (cut userinfo colon).2
    return ()
  else do
    let _ ← unescape .userPassword userinfo
    return ()

/-- `parseAuthority`. -/
def parseAuthority (authority : Bytes) : Except Error Bytes := do
  let host ← parseHost strictColons ipLiteral (authority.rtakeWhile (· != atSign))
  if authority.contains atSign then
    parseUserinfo (authority.rdropWhile (· != atSign)).dropLast
  return host

/-- `parse` behind the scheme, for a URL without its query. -/
def parseRest (scheme rest : Bytes) : Except Error URL :=
  if rest.head? ≠ some slash ∧ scheme ≠ [] then
    .ok { scheme := scheme, opaquePart := rest }
  else if rest.head? ≠ some slash ∧ (cut rest slash).1.contains colon then
    .error .colonInFirstSegment
  else if ascii "//" <+: rest ∧ (scheme ≠ [] ∨ ¬ ascii "///" <+: rest) then do
    let host ← parseAuthority strictColons ipLiteral ((rest.drop 2).takeWhile (· != slash))
    let path ← unescape .path ((rest.drop 2).dropWhile (· != slash))
    return { scheme := scheme, host := host, path := path }
  else do
    let path ← unescape .path rest
    return { scheme := scheme, path := path }

/-- `parse`, for a URL that does not come from a request, without its fragment. -/
def parseWithoutFragment (rawURL : Bytes) : Except Error URL :=
  if rawURL.any isControl then .error .controlCharacter
  else if rawURL = ascii "*" then .ok { path := rawURL }
  else do
    let (scheme, rest) ← getScheme rawURL
    parseRest strictColons ipLiteral (lower scheme) (cut rest 0x3F).1

/-- `Parse`. -/
def parse (rawURL : Bytes) : Except Error URL := do
  let url ← parseWithoutFragment strictColons ipLiteral (cut rawURL 0x23).1
  if (cut rawURL 0x23).2 ≠ [] then
    let _ ← unescape .fragment (cut rawURL 0x23).2
  return url

end Parser

/-! ## Classes of bytes -/

/-- Most classes of bytes are the letters and digits with some marks: the marks are looked at one by
one. -/
theorem forall_alphanumeric_or_mark {property : UInt8 → Prop} [DecidablePred property]
    {marks : Bytes} (alphanumeric : ∀ b, isAlphanumeric b = true → property b)
    (mark : marks.all (fun b => decide (property b)) = true) (b : UInt8)
    (among : (isAlphanumeric b || marks.contains b) = true) : property b := by
  rw [Bool.or_eq_true, List.contains_iff_mem] at among
  exact among.elim (alphanumeric b) fun member =>
    of_decide_eq_true (List.all_eq_true.mp mark b member)

theorem shouldEscape_of_isAlphanumeric {b : UInt8} (alphanumeric : isAlphanumeric b = true)
    (mode : Encoding) : shouldEscape b mode = false :=
  if_pos alphanumeric

theorem isControl_of_isAlphanumeric (b : UInt8) (alphanumeric : isAlphanumeric b = true) :
    isControl b = false := by
  grind [isAlphanumeric, isControl]

/-- The bytes that are left in a path. -/
theorem kept_in_path {b : UInt8} (kept : shouldEscape b .path = false) :
    (isAlphanumeric b || (ascii "-_.~$&+,/:;=@").contains b) = true := by
  simp [shouldEscape, ascii] at kept ⊢
  grind

/-! ## Escaped bytes -/

theorem hex_digit : ∀ n < 16, ishex (upperHex n) = true ∧ unhex (upperHex n) = n ∧
    (upperHex n = 0x32 ↔ n = 2) ∧ (upperHex n = 0x35 ↔ n = 5) := by
  decide

/-- The bytes of a path that can stand in a host: others are escaped, and a host must not have them
escaped. -/
def hostByte (b : UInt8) : Bool :=
  isAlphanumeric b || (ascii "-_.~$&+,:;=%").contains b || 0x80 ≤ b

private theorem hostByte_escaped (b : UInt8) (escaped : shouldEscape b .path = true) :
    hostByte b = true ↔ 0x80 ≤ b ∨ b = percent := by
  have mark : ∀ b : UInt8, (isAlphanumeric b || (ascii "-_.~$&+,:;=%").contains b) = true →
      shouldEscape b .path = true → b = percent := by
    refine forall_alphanumeric_or_mark (fun b alphanumeric escaped => ?_) (by decide)
    rw [shouldEscape_of_isAlphanumeric alphanumeric] at escaped
    cases escaped
  rw [hostByte, Bool.or_eq_true, decide_eq_true_eq, or_comm]
  refine or_congr_right ⟨fun among => mark b among escaped, ?_⟩
  rintro rfl
  decide

private theorem hostByte_plain (b : UInt8) (kept : shouldEscape b .path = false) :
    (hostByte b = true ↔ shouldEscape b .host = false) ∧ b < 0x80 ∧ b ≠ percent := by
  replace kept := kept_in_path kept
  revert b
  refine forall_alphanumeric_or_mark (fun b alphanumeric => ⟨?_, ?_⟩) (by decide)
  · simp [hostByte, alphanumeric, shouldEscape_of_isAlphanumeric alphanumeric]
  · grind [isAlphanumeric, percent]

theorem unescape_percent (mode : Encoding) (b : UInt8) (rest : Bytes) :
    unescape mode
        (percent :: upperHex (b.toNat / 16) :: upperHex (b.toNat % 16) :: rest) =
      if mode = .host ∧ b < 0x80 ∧ b ≠ percent then
        .error (.escape [percent, upperHex (b.toNat / 16), upperHex (b.toNat % 16)])
      else (unescape mode rest).map (b :: ·) := by
  have small := b.toNat_lt
  obtain ⟨high, highValue, two, _⟩ := hex_digit (b.toNat / 16) (by omega)
  obtain ⟨low, lowValue, _, five⟩ := hex_digit (b.toNat % 16) (by omega)
  have value : UInt8.ofNat (b.toNat / 16 * 16 + b.toNat % 16) = b := by
    rw [Nat.div_add_mod']
    exact UInt8.ofNat_toNat
  have guard : (mode = .host ∧ b.toNat / 16 < 8 ∧ ¬ (b.toNat / 16 = 2 ∧ b.toNat % 16 = 5)) ↔
      mode = .host ∧ b < 0x80 ∧ b ≠ percent := by
    have same : b = percent ↔ b.toNat = 0x25 := UInt8.toNat_inj.symm
    have less : b < 0x80 ↔ b.toNat < 0x80 := UInt8.lt_iff_toNat_lt
    rw [ne_eq, same, less]
    exact and_congr_right fun _ => by omega
  rw [unescape, if_pos rfl]
  simp only [high, low, highValue, lowValue, two, five, value, Bool.not_true, Bool.or_false,
    Bool.false_eq_true, if_false, guard]

theorem unescape_plain (mode : Encoding) {b : UInt8} (plain : b ≠ percent) (rest : Bytes) :
    unescape mode (b :: rest) =
      if mode = .host ∧ b < 0x80 ∧ shouldEscape b .host then .error (.invalidHost [b])
      else (unescape mode rest).map (b :: ·) := by
  rw [unescape.eq_def]
  exact if_neg plain

/-- What is escaped is read back as it was, except in a host. -/
theorem unescape_escapeByte {mode : Encoding} {b : UInt8} (fits : mode ≠ .host ∨ hostByte b = true)
    (rest : Bytes) :
    unescape mode (escapeByte .path b ++ rest) = (unescape mode rest).map (b :: ·) := by
  cases escaped : shouldEscape b .path with
  | true =>
      rw [escapeByte, if_pos escaped]
      refine (unescape_percent mode b rest).trans (if_neg ?_)
      rintro ⟨host, low, plain⟩
      have byte := (hostByte_escaped b escaped).mp (fits.resolve_left (absurd host))
      exact byte.elim (UInt8.not_le.mpr low) plain
  | false =>
      obtain ⟨host_iff, _, plain⟩ := hostByte_plain b escaped
      rw [escapeByte, if_neg (by simp [escaped])]
      refine (unescape_plain mode plain rest).trans (if_neg ?_)
      rintro ⟨host, _, forbidden⟩
      rw [host_iff.mp (fits.resolve_left (absurd host))] at forbidden
      cases forbidden

/-- Other bytes make a host invalid. -/
theorem unescape_escapeByte_host {b : UInt8} (unfit : hostByte b = false) (rest : Bytes) :
    ∃ error, unescape .host (escapeByte .path b ++ rest) = .error error := by
  cases escaped : shouldEscape b .path with
  | true =>
      rw [escapeByte, if_pos escaped]
      refine ⟨_, (unescape_percent .host b rest).trans (if_pos ⟨rfl, ?_⟩)⟩
      have byte := (hostByte_escaped b escaped).not.mp (by simp [unfit])
      rw [not_or, UInt8.not_le] at byte
      exact byte
  | false =>
      obtain ⟨host_iff, low, plain⟩ := hostByte_plain b escaped
      rw [escapeByte, if_neg (by simp [escaped])]
      refine ⟨_, (unescape_plain .host plain rest).trans (if_pos ⟨rfl, low, ?_⟩)⟩
      have forbidden := host_iff.not.mp (by simp [unfit])
      simpa using forbidden

/-- In other parts than a host, what is escaped in any way is read back as it was. -/
theorem unescape_escapeByte_of_ne {mode : Encoding} (other : mode ≠ .host) (written : Encoding)
    (b : UInt8) (rest : Bytes) :
    unescape mode (escapeByte written b ++ rest) = (unescape mode rest).map (b :: ·) := by
  cases escaped : shouldEscape b written with
  | true =>
      rw [escapeByte, if_pos escaped]
      exact (unescape_percent mode b rest).trans (if_neg fun guard => other guard.1)
  | false =>
      have plain : b ≠ percent := by
        rintro rfl
        have marked : shouldEscape percent written = true := by cases written <;> decide
        rw [marked] at escaped
        cases escaped
      rw [escapeByte, if_neg (by simp [escaped])]
      exact (unescape_plain mode plain rest).trans (if_neg fun guard => other guard.1)

@[simp] theorem escape_nil (mode : Encoding) : escape [] mode = [] := rfl

@[simp] theorem escape_cons (b : UInt8) (s : Bytes) (mode : Encoding) :
    escape (b :: s) mode = escapeByte mode b ++ escape s mode := rfl

theorem unescape_escape {mode : Encoding} {s : Bytes}
    (fits : mode ≠ .host ∨ ∀ b ∈ s, hostByte b = true) :
    unescape mode (escape s .path) = .ok s := by
  induction s with
  | nil => rfl
  | cons b rest ih =>
      rw [escape_cons, unescape_escapeByte (fits.imp_right fun all => all b List.mem_cons_self),
        ih (fits.imp_right fun all c member => all c (List.mem_cons_of_mem _ member))]
      rfl

theorem unescape_escape_of_ne {mode : Encoding} (other : mode ≠ .host) (written : Encoding)
    (s : Bytes) : unescape mode (escape s written) = .ok s := by
  induction s with
  | nil => rfl
  | cons b rest ih =>
      rw [escape_cons, unescape_escapeByte_of_ne other, ih]
      rfl

theorem unescape_escape_host {s : Bytes} (unfit : ¬ ∀ b ∈ s, hostByte b = true) :
    ∃ error, unescape .host (escape s .path) = .error error := by
  induction s with
  | nil => simp at unfit
  | cons b rest ih =>
      rw [escape_cons]
      cases byte : hostByte b with
      | false => exact unescape_escapeByte_host byte _
      | true =>
          obtain ⟨error, failed⟩ := ih (by simpa [byte] using unfit)
          refine ⟨error, ?_⟩
          rw [unescape_escapeByte (Or.inr byte), failed]
          rfl

/-! ## Splitting escaped text -/

/-- A byte that escaped text has only where it stands for another one of its kind: it is not used in
writing other bytes. -/
def Foreign (b : UInt8) : Prop := b ≠ percent ∧ ishex b = false

/-- A byte at which escaped text is split where the text itself would be. -/
structure Separator (b : UInt8) : Prop where
  /-- The byte is not escaped. -/
  kept : shouldEscape b .path = false
  /-- It is not used in writing other bytes. -/
  foreign : Foreign b

theorem separator_slash : Separator slash := ⟨by decide, by decide, by decide⟩

theorem separator_colon : Separator colon := ⟨by decide, by decide, by decide⟩

theorem separator_atSign : Separator atSign := ⟨by decide, by decide, by decide⟩

theorem notMem_escapeByte {b c : UInt8} {mode : Encoding} (foreign : Foreign b)
    (other : shouldEscape c mode = false → c ≠ b) : b ∉ escapeByte mode c := by
  have small := c.toNat_lt
  have digit : ∀ n < 16, b ≠ upperHex n := by
    rintro n less rfl
    have hex := (hex_digit n less).1
    rw [foreign.2] at hex
    cases hex
  unfold escapeByte
  split_ifs with escaped
  · simp [foreign.1, digit (c.toNat / 16) (by omega), digit (c.toNat % 16) (by omega)]
  · simpa using (other (by simpa using escaped)).symm

theorem Separator.escapeByte_self {b : UInt8} (separator : Separator b) :
    escapeByte .path b = [b] := by
  simp [escapeByte, separator.kept]

theorem Separator.notMem_escapeByte {b c : UInt8} (separator : Separator b) (other : c ≠ b) :
    b ∉ escapeByte .path c :=
  Url.notMem_escapeByte separator.foreign fun _ => other

/-- Such a byte is in escaped text only if it was in the text and is not escaped. -/
theorem mem_of_mem_escape {b : UInt8} {mode : Encoding} {s : Bytes} (foreign : Foreign b)
    (member : b ∈ escape s mode) : b ∈ s ∧ shouldEscape b mode = false := by
  obtain ⟨c, here, within⟩ := List.mem_flatMap.mp member
  by_contra absent
  refine notMem_escapeByte foreign ?_ within
  rintro kept rfl
  exact absent ⟨here, kept⟩

/-- Bytes that are escaped are not in escaped text. -/
theorem notMem_escape {b : UInt8} {mode : Encoding} (foreign : Foreign b)
    (escaped : shouldEscape b mode = true) (s : Bytes) : b ∉ escape s mode := by
  intro member
  have kept := (mem_of_mem_escape foreign member).2
  rw [escaped] at kept
  cases kept

/-- A class of bytes with the percent sign and the digits has all bytes of an escaped text if it has
those that are not escaped. -/
theorem all_escape {p : UInt8 → Bool} {mode : Encoding} {s : Bytes} (mark : p percent = true)
    (digits : ∀ n < 16, p (upperHex n) = true)
    (kept : ∀ b ∈ s, shouldEscape b mode = false → p b = true) : (escape s mode).all p = true := by
  induction s with
  | nil => rfl
  | cons b rest ih =>
      have small := b.toNat_lt
      have behind := ih fun c member => kept c (List.mem_cons_of_mem _ member)
      rw [escape_cons, List.all_append, behind, Bool.and_true, escapeByte]
      split_ifs with escaped
      · have high := digits (b.toNat / 16) (by omega)
        have low := digits (b.toNat % 16) (by omega)
        simp [mark, high, low]
      · simpa using kept b List.mem_cons_self (by simpa using escaped)

theorem escape_append {mode : Encoding} (s t : Bytes) :
    escape (s ++ t) mode = escape s mode ++ escape t mode :=
  List.flatMap_append

theorem notMem_of_forall {p : UInt8 → Bool} {s : Bytes} {b : UInt8} (all : ∀ c ∈ s, p c = true)
    (other : p b = false) : b ∉ s := by
  intro member
  rw [all b member] at other
  cases other

theorem bne_of_notMem {s : Bytes} {b : UInt8} (absent : b ∉ s) : ∀ c ∈ s, (c != b) = true := by
  intro c member
  simp only [bne_iff_ne, ne_eq]
  rintro rfl
  exact absent member

private theorem rtakeWhile_append_of_pos {p : UInt8 → Bool} (front : Bytes) {back : Bytes}
    (passed : ∀ b ∈ back, p b = true) :
    (front ++ back).rtakeWhile p = front.rtakeWhile p ++ back := by
  rw [List.rtakeWhile, List.reverse_append, List.takeWhile_append_of_pos (by simpa using passed),
    List.reverse_append, List.reverse_reverse, List.rtakeWhile]

private theorem rdropWhile_append_of_pos {p : UInt8 → Bool} (front : Bytes) {back : Bytes}
    (passed : ∀ b ∈ back, p b = true) : (front ++ back).rdropWhile p = front.rdropWhile p := by
  rw [List.rdropWhile, List.reverse_append, List.dropWhile_append_of_pos (by simpa using passed),
    List.rdropWhile]

section Split

variable {b : UInt8} (separator : Separator b)

include separator

theorem contains_escape (s : Bytes) : (escape s .path).contains b = s.contains b := by
  induction s with
  | nil => rfl
  | cons c rest ih =>
      by_cases same : c = b
      · subst same
        simp [separator.escapeByte_self]
      · have absent := separator.notMem_escapeByte same
        simp only [escape_cons, List.contains_eq_mem, List.mem_append, absent, false_or,
          List.mem_cons, Ne.symm same] at ih ⊢
        exact ih

private theorem all_ne_escapeByte {c : UInt8} (other : c ≠ b) :
    ∀ d ∈ escapeByte .path c, (d != b) = true :=
  bne_of_notMem (separator.notMem_escapeByte other)

theorem takeWhile_escape (s : Bytes) :
    (escape s .path).takeWhile (· != b) = escape (s.takeWhile (· != b)) .path := by
  induction s with
  | nil => rfl
  | cons c rest ih =>
      by_cases same : c = b
      · subst same
        simp [separator.escapeByte_self]
      · rw [escape_cons, List.takeWhile_append_of_pos (all_ne_escapeByte separator same), ih]
        simp [same]

theorem dropWhile_escape (s : Bytes) :
    (escape s .path).dropWhile (· != b) = escape (s.dropWhile (· != b)) .path := by
  induction s with
  | nil => rfl
  | cons c rest ih =>
      by_cases same : c = b
      · subst same
        simp [separator.escapeByte_self]
      · rw [escape_cons, List.dropWhile_append_of_pos (all_ne_escapeByte separator same), ih]
        simp [same]

theorem rtakeWhile_escape (s : Bytes) :
    (escape s .path).rtakeWhile (· != b) = escape (s.rtakeWhile (· != b)) .path := by
  induction s using List.reverseRecOn with
  | nil => rfl
  | append_singleton rest c ih =>
      have last : escape [c] .path = escapeByte .path c := by simp
      by_cases same : c = b
      · subst same
        rw [escape_append, last, separator.escapeByte_self,
          List.rtakeWhile_concat_neg _ _ _ (by simp), List.rtakeWhile_concat_neg _ _ _ (by simp)]
        rfl
      · have passed := all_ne_escapeByte separator same
        rw [escape_append, last, rtakeWhile_append_of_pos _ passed, ih,
          List.rtakeWhile_concat_pos _ _ _ (by simpa using same), escape_append, last]

theorem rdropWhile_escape (s : Bytes) :
    (escape s .path).rdropWhile (· != b) = escape (s.rdropWhile (· != b)) .path := by
  induction s using List.reverseRecOn with
  | nil => rfl
  | append_singleton rest c ih =>
      have last : escape [c] .path = escapeByte .path c := by simp
      by_cases same : c = b
      · subst same
        rw [List.rdropWhile_concat_neg _ _ _ (by simp), escape_append, last,
          separator.escapeByte_self, List.rdropWhile_concat_neg _ _ _ (by simp)]
      · have passed := all_ne_escapeByte separator same
        rw [escape_append, last, rdropWhile_append_of_pos _ passed, ih,
          List.rdropWhile_concat_pos _ _ _ (by simpa using same)]

end Split

/-! ## Parsing escaped text -/

theorem cut_of_notMem {s : Bytes} {b : UInt8} (absent : b ∉ s) : cut s b = (s, []) := by
  have passed := bne_of_notMem absent
  rw [cut, List.takeWhile_eq_self_iff.mpr passed, List.dropWhile_eq_nil_iff.mpr passed]
  rfl

theorem eq_of_dropWhile {s rest : Bytes} {b c : UInt8}
    (split : s.dropWhile (· != b) = c :: rest) : c = b := by
  have nonempty : s.dropWhile (· != b) ≠ [] := by simp [split]
  have stops := List.head_dropWhile_not (· != b) nonempty
  simpa [split] using stops

/-- What comes after a separator in escaped text. -/
theorem drop_dropWhile_escape {b : UInt8} (separator : Separator b) (s : Bytes) :
    ((escape s .path).dropWhile (· != b)).drop 1 =
      escape ((s.dropWhile (· != b)).drop 1) .path := by
  rw [dropWhile_escape separator]
  cases split : s.dropWhile (· != b) with
  | nil => rfl
  | cons c rest =>
      rw [eq_of_dropWhile split, escape_cons, separator.escapeByte_self]
      rfl

theorem cut_escape {b : UInt8} (separator : Separator b) (s : Bytes) :
    cut (escape s .path) b = (escape (cut s b).1 .path, escape (cut s b).2 .path) := by
  rw [cut, takeWhile_escape separator, drop_dropWhile_escape separator]
  rfl

private theorem userinfo_byte (b : UInt8) (kept : shouldEscape b .path = false) : b ≠ slash →
    (isAlphanumeric b || (ascii "-._:~!$&'()*+,;=%@").contains b) = true := by
  replace kept := kept_in_path kept
  revert b
  refine forall_alphanumeric_or_mark (fun b alphanumeric _ => ?_) (by decide)
  rw [alphanumeric, Bool.true_or]

theorem validUserinfo_escape {s : Bytes} (absent : slash ∉ s) :
    validUserinfo (escape s .path) = true := by
  refine all_escape (by decide) (by decide) fun b member kept => userinfo_byte b kept ?_
  rintro rfl
  exact absent member

/-- A user in escaped text is always accepted. -/
theorem parseUserinfo_escape {s : Bytes} (absent : slash ∉ s) :
    parseUserinfo (escape s .path) = .ok () := by
  have read : ∀ t, unescape .userPassword (escape t .path) = .ok t :=
    fun t => unescape_escape (Or.inl (by decide))
  simp only [parseUserinfo, validUserinfo_escape absent, cut_escape separator_colon, read,
    Bool.not_true, Bool.false_eq_true, if_false]
  split_ifs <;> rfl

/-! ### Hosts -/

/-- The colon before a port has digits after it only. -/
def acceptsPort (strictColons : Bool) (host : Bytes) : Bool :=
  !host.contains colon || validOptionalPort (colonPort strictColons host)

private theorem digit_byte (b : UInt8) :
    (escapeByte .path b).all (fun d => 0x30 ≤ d && d ≤ 0x39) = (0x30 ≤ b && b ≤ 0x39) := by
  cases escaped : shouldEscape b .path with
  | true =>
      have other : (0x30 ≤ b && b ≤ 0x39) = false := by
        by_contra digit
        rw [Bool.not_eq_false] at digit
        simp [shouldEscape, isAlphanumeric, digit] at escaped
      rw [escapeByte, if_pos escaped, other]
      rfl
  | false => simp [escapeByte, escaped]

private theorem all_digits_escape (s : Bytes) :
    (escape s .path).all (fun d => 0x30 ≤ d && d ≤ 0x39) =
      s.all fun d => 0x30 ≤ d && d ≤ 0x39 := by
  induction s with
  | nil => rfl
  | cons b rest ih => rw [escape_cons, List.all_append, digit_byte, ih, List.all_cons]

theorem acceptsPort_escape (strictColons : Bool) (host : Bytes) :
    acceptsPort strictColons (escape host .path) = acceptsPort strictColons host := by
  unfold acceptsPort colonPort
  rw [contains_escape separator_colon]
  cases strictColons with
  | false =>
      simp only [Bool.false_eq_true, if_false, rtakeWhile_escape separator_colon,
        validOptionalPort, all_digits_escape]
  | true =>
      simp only [if_true, dropWhile_escape separator_colon]
      cases split : host.dropWhile (· != colon) with
      | nil => rfl
      | cons b rest =>
          rw [eq_of_dropWhile split, escape_cons, separator_colon.escapeByte_self,
            List.singleton_append, validOptionalPort, validOptionalPort, all_digits_escape]

section Parsed

variable (strictColons : Bool) (ipLiteral : Bytes → Except Error Bytes)

/-- Text that is a host when it has been escaped as a path. -/
def acceptsHost (host : Bytes) : Bool := host.all hostByte && acceptsPort strictColons host

private theorem parseHost_eq (host : Bytes) :
    parseHost strictColons ipLiteral (escape host .path) =
      if acceptsPort strictColons host = false then
        .error (.invalidPort (colonPort strictColons (escape host .path)))
      else unescape .host (escape host .path) := by
  have unbracketed : 0x5B ∉ escape host .path :=
    notMem_escape ⟨by decide, by decide⟩ (by decide) host
  rw [← acceptsPort_escape, parseHost, if_neg (by simpa using unbracketed), acceptsPort]
  simp

theorem parseHost_escape {host : Bytes} (accepted : acceptsHost strictColons host = true) :
    parseHost strictColons ipLiteral (escape host .path) = .ok host := by
  rw [acceptsHost, Bool.and_eq_true, List.all_eq_true] at accepted
  rw [parseHost_eq, if_neg (by simp [accepted.2]), unescape_escape (Or.inr accepted.1)]

theorem parseHost_escape_error {host : Bytes} (refused : acceptsHost strictColons host = false) :
    ∃ error, parseHost strictColons ipLiteral (escape host .path) = .error error := by
  rw [parseHost_eq]
  split_ifs with port
  · exact ⟨_, rfl⟩
  · apply unescape_escape_host
    rw [← List.all_eq_true]
    simpa [acceptsHost, port] using refused

/-- The host in escaped text is what stands after the last at sign. -/
theorem parseAuthority_escape {authority : Bytes} (absent : slash ∉ authority) :
    parseAuthority strictColons ipLiteral (escape authority .path) =
      parseHost strictColons ipLiteral (escape (authority.rtakeWhile (· != atSign)) .path) := by
  have user :
      parseUserinfo ((escape authority .path).rdropWhile (· != atSign)).dropLast = .ok () := by
    rw [rdropWhile_escape separator_atSign]
    rcases List.eq_nil_or_concat (authority.rdropWhile (· != atSign)) with empty |
      ⟨front, last, split⟩
    · rw [empty]
      exact parseUserinfo_escape (s := []) (by simp)
    · rw [List.concat_eq_append] at split
      have stops := List.rdropWhile_last_not (· != atSign) authority (by simp [split])
      have stop : last = atSign := by simpa [split] using stops
      have part : slash ∉ front := by
        intro member
        have whole := (List.rdropWhile_prefix (· != atSign) (l := authority)).subset
        exact absent (whole (by simp [split, member]))
      have last : escape [last] .path = [last] := by
        rw [stop, escape_cons, separator_atSign.escapeByte_self]
        rfl
      rw [split, escape_append, last, List.dropLast_concat]
      exact parseUserinfo_escape part
  rw [parseAuthority, rtakeWhile_escape separator_atSign, user]
  cases parseHost strictColons ipLiteral (escape (authority.rtakeWhile (· != atSign)) .path) with
  | error error => rfl
  | ok host =>
      split_ifs <;> rfl

private theorem isControl_byte (b : UInt8) (kept : shouldEscape b .path = false) :
    isControl b = false := by
  replace kept := kept_in_path kept
  revert b
  exact forall_alphanumeric_or_mark isControl_of_isAlphanumeric (by decide)

private theorem any_isControl_escape (s : Bytes) : (escape s .path).any isControl = false := by
  have plain : (escape s .path).all (!isControl ·) = true :=
    all_escape (by decide) (by decide) fun b _ kept => by rw [isControl_byte b kept]; rfl
  rw [List.all_eq_true] at plain
  rw [List.any_eq_false]
  intro b member
  simpa using plain b member

/-- The URL of a path in a scheme: what stands before the first slash is taken for an authority. -/
theorem parse_file (s : Bytes) :
    parse strictColons ipLiteral (ascii "file://" ++ escape s .path) =
      (parseHost strictColons ipLiteral
        (escape ((s.takeWhile (· != slash)).rtakeWhile (· != atSign)) .path)).map
        fun host => { scheme := ascii "file", host := host, path := s.dropWhile (· != slash) } := by
  have plain : (escape s .path).any isControl = false := any_isControl_escape s
  have other : ascii "file://" ++ escape s .path ≠ ascii "*" := by
    intro same
    have first : some (0x66 : UInt8) = some 0x2A := congrArg List.head? same
    revert first
    decide
  have unmarked : ∀ b, Foreign b → shouldEscape b .path = true → b ∉ ascii "file://" →
      b ∉ ascii "file://" ++ escape s .path := by
    intro b foreign escaped absent
    rw [List.mem_append, not_or]
    exact ⟨absent, notMem_escape foreign escaped s⟩
  have fragment := cut_of_notMem (unmarked 0x23 ⟨by decide, by decide⟩ (by decide) (by decide))
  have query : cut (ascii "//" ++ escape s .path) 0x3F = (ascii "//" ++ escape s .path, []) := by
    apply cut_of_notMem
    rw [List.mem_append, not_or]
    exact ⟨by decide, notMem_escape ⟨by decide, by decide⟩ (by decide) s⟩
  have scheme : getScheme (ascii "file://" ++ escape s .path) =
      .ok (ascii "file", ascii "//" ++ escape s .path) := rfl
  have authority : slash ∉ s.takeWhile (· != slash) := fun member => by
    simpa using List.mem_takeWhile_imp member
  have front : (ascii "file://").any isControl = false := by decide
  have two : (ascii "//" ++ escape s .path).drop 2 = escape s .path := rfl
  have read : unescape .path (escape (s.dropWhile (· != slash)) .path) =
      .ok (s.dropWhile (· != slash)) := unescape_escape (Or.inl (by decide))
  have rest : parseRest strictColons ipLiteral (ascii "file") (ascii "//" ++ escape s .path) =
      (parseHost strictColons ipLiteral
        (escape ((s.takeWhile (· != slash)).rtakeWhile (· != atSign)) .path)).map
        fun host => { scheme := ascii "file", host := host, path := s.dropWhile (· != slash) } := by
    have starts : (ascii "//" ++ escape s .path).head? = some slash := rfl
    have named : ascii "file" ≠ [] := by decide
    rw [parseRest, if_neg (by simp [starts]), if_neg (by simp [starts]),
      if_pos ⟨List.prefix_append _ _, Or.inl named⟩, two,
      takeWhile_escape separator_slash, dropWhile_escape separator_slash, read,
      parseAuthority_escape strictColons ipLiteral authority]
    rfl
  rw [parse, fragment, parseWithoutFragment, List.any_append, plain, front, if_neg (by decide),
    if_neg other, scheme]
  have lowered : lower (ascii "file") = ascii "file" := by decide
  simp only [bind, Except.bind, query, lowered, rest]
  cases parseHost strictColons ipLiteral
    (escape ((s.takeWhile (· != slash)).rtakeWhile (· != atSign)) .path) <;> rfl

end Parsed

end Go.Url
