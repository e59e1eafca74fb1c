import CommonGo.Go.Reference
import CommonGo.Go.Strconv

/-!
# URIs with credentials

`BuildURI` puts a URI together from its parts.  A user with a password is escaped; a user without
one is written as it is, and a password without a user is left out.  So the credentials are read
back from the URI in some cases only, and this file says in which.
-/

namespace CommonGo.UrlUtil

open Go Go.Url

/-- `BuildURI`. -/
def buildURI (scheme user pass host port path : Bytes) : Bytes :=
  let uri := scheme ++ ascii "://"
  let uri :=
    if user ≠ [] then
      let uriPart :=
        if pass ≠ [] then Userinfo.string { username := user, password := some pass } else user
      uri ++ (uriPart ++ [atSign])
    else uri
  let uri := uri ++ host
  let uri := if port ≠ [] then uri ++ colon :: port else uri
  if path ≠ [] then uri ++ path else uri

/-! ## Parts that need no escaping -/

/-- The letters of ASCII. -/
def isLetter (b : UInt8) : Bool := (0x61 ≤ b && b ≤ 0x7A) || (0x41 ≤ b && b ≤ 0x5A)

/-- Letters, digits, hyphens and dots. -/
def hostnameByte (b : UInt8) : Bool := isAlphanumeric b || (ascii "-.").contains b

/-- Unreserved characters and slashes. -/
def pathByte (b : UInt8) : Bool := isAlphanumeric b || (ascii "-_.~/").contains b

/-- Host, port and path of a URI; the port and the path may be empty. -/
structure Location where
  /-- The host. -/
  host : Bytes
  /-- The port, or nothing. -/
  port : Bytes
  /-- The path, or nothing. -/
  path : Bytes
  /-- The host is a name. -/
  hostname : ∀ b ∈ host, hostnameByte b = true
  /-- The port is a number. -/
  digits : ∀ b ∈ port, isDecimal b = true
  /-- The path is empty or begins with a slash. -/
  rooted : Reference.Rooted path
  /-- The path has no byte that is read as something else. -/
  unreserved : ∀ b ∈ path, pathByte b = true

/-- The host with its port. -/
def Location.hostPort (location : Location) : Bytes :=
  location.host ++ if location.port = [] then [] else colon :: location.port

/-- The credentials and the at sign behind them. -/
def credentials (user pass : Bytes) : Bytes :=
  if user = [] then []
  else
    (if pass = [] then user else Userinfo.string { username := user, password := some pass }) ++
      [atSign]

theorem buildURI_eq (scheme user pass : Bytes) (location : Location) :
    buildURI scheme user pass location.host location.port location.path =
      scheme ++ ascii "://" ++ (credentials user pass ++ (location.hostPort ++ location.path)) := by
  unfold buildURI credentials Location.hostPort
  by_cases noUser : user = [] <;> by_cases noPass : pass = [] <;>
    by_cases noPort : location.port = [] <;> by_cases noPath : location.path = [] <;>
    simp [noUser, noPass, noPort, noPath]

/-! ## Classes of bytes -/

/-- The bytes of a host with its port. -/
def hostPortByte (b : UInt8) : Bool := hostnameByte b || b == colon

private theorem hostPortByte_plain (b : UInt8) (among : hostPortByte b = true) :
    shouldEscape b .host = false ∧ Reference.authorityByte b = true ∧ isControl b = false := by
  rw [hostPortByte, hostnameByte, Bool.or_eq_true, beq_iff_eq] at among
  rcases among with among | rfl
  · revert b
    refine forall_alphanumeric_or_mark (fun b alphanumeric => ?_) (by decide)
    exact ⟨shouldEscape_of_isAlphanumeric alphanumeric .host,
      Reference.authorityByte_of_isAlphanumeric b alphanumeric⟩
  · decide

private theorem pathByte_plain : ∀ b : UInt8, pathByte b = true → isControl b = false :=
  forall_alphanumeric_or_mark isControl_of_isAlphanumeric (by decide)

private theorem isDecimal_hostname {b : UInt8} (digit : isDecimal b = true) :
    hostnameByte b = true := by
  simp only [isDecimal, Bool.and_eq_true, decide_eq_true_eq] at digit
  simp [hostnameByte, isAlphanumeric, UInt8.le_iff_toNat_le, digit]

private theorem isLetter_scheme (b : UInt8) : isLetter b = true →
    (isAlphanumeric b && !(0x30 ≤ b && b ≤ 0x39)) = true ∧ isControl b = false := by
  grind [isLetter, isAlphanumeric, isControl]

/-! ## Host and port -/

namespace Location

variable (location : Location)

theorem colon_notMem_host : colon ∉ location.host :=
  notMem_of_forall location.hostname (by decide)

theorem colon_notMem_port : colon ∉ location.port :=
  notMem_of_forall location.digits (by decide)

theorem hostPortByte_of_mem : ∀ b ∈ location.hostPort, hostPortByte b = true := by
  intro b member
  rw [hostPort, List.mem_append] at member
  rcases member with inHost | inPort
  · simp [hostPortByte, location.hostname b inHost]
  · split_ifs at inPort with noPort
    · cases inPort
    · rcases List.mem_cons.mp inPort with rfl | digit
      · decide
      · simp [hostPortByte, isDecimal_hostname (location.digits b digit)]

/-- A port that is not empty is found behind the only colon. -/
theorem validOptionalPort_port : validOptionalPort (colon :: location.port) = true := by
  simp only [validOptionalPort, beq_self_eq_true, Bool.true_and, List.all_eq_true]
  exact location.digits

theorem parseHost_hostPort (strictColons : Bool) (ipLiteral : Bytes → Except Url.Error Bytes) :
    parseHost strictColons ipLiteral location.hostPort = .ok location.hostPort := by
  have unbracketed : location.hostPort.contains 0x5B = false := by
    rw [List.contains_eq_mem, decide_eq_false_iff_not]
    exact notMem_of_forall location.hostPortByte_of_mem (by decide)
  have accepted : ¬ (location.hostPort.contains colon = true ∧
      validOptionalPort (colonPort strictColons location.hostPort) = false) := by
    rintro ⟨separated, invalid⟩
    rw [hostPort] at separated invalid
    split_ifs at separated invalid with noPort
    · rw [List.append_nil, List.contains_eq_mem, decide_eq_true_eq] at separated
      exact location.colon_notMem_host separated
    · have found : colonPort strictColons (location.host ++ colon :: location.port) =
          colon :: location.port := by
        unfold colonPort
        split_ifs
        · exact dropWhile_append_cons location.colon_notMem_host location.port
        · rw [rtakeWhile_append_cons location.colon_notMem_port]
      rw [found, location.validOptionalPort_port] at invalid
      cases invalid
  rw [parseHost, unbracketed, if_neg (by decide), if_neg accepted]
  have noPercent : percent ∉ location.hostPort :=
    notMem_of_forall location.hostPortByte_of_mem (by decide)
  refine unescape_literal fun b member => ⟨fun same => noPercent (same ▸ member), fun _ => ?_⟩
  exact (hostPortByte_plain b (location.hostPortByte_of_mem b member)).1

theorem splitHostPort_hostPort :
    Reference.splitHostPort location.hostPort = (location.host, location.port) := by
  have split : Reference.cutPort location.hostPort = (location.host, location.port) := by
    rw [Reference.cutPort, hostPort]
    by_cases noPort : location.port = []
    · have absent := location.colon_notMem_host
      rw [if_pos noPort, List.append_nil, if_neg (by simp [absent]), noPort]
    · rw [if_neg noPort, rtakeWhile_append_cons location.colon_notMem_port,
        rdropWhile_append_cons location.colon_notMem_port, List.dropLast_concat,
        if_pos ⟨by simp, location.validOptionalPort_port⟩]
  have noBracket : 0x5B ∉ location.host := notMem_of_forall location.hostname (by decide)
  have unbracketed : location.host.head? ≠ some 0x5B := fun first =>
    noBracket (List.mem_of_head? first)
  rw [Reference.splitHostPort, split]
  simp [unbracketed]

end Location

/-! ## Parsing -/

section Parsing

variable {strictColons : Bool} {ipLiteral : Bytes → Except Url.Error Bytes} {scheme : Bytes}
  (location : Location)

theorem isScheme_of_letters (alphabetic : ∀ b ∈ scheme, isLetter b = true)
    (nonempty : scheme ≠ []) :
    Reference.isScheme scheme = true := by
  cases scheme with
  | nil => exact absurd rfl nonempty
  | cons first rest =>
      obtain ⟨letter, letters⟩ := List.forall_mem_cons.mp alphabetic
      simp only [Reference.isScheme, (isLetter_scheme first letter).1, Bool.true_and,
        List.all_eq_true]
      intro b member
      have alphanumeric := (isLetter_scheme b (letters b member)).1
      rw [Bool.and_eq_true] at alphanumeric
      simp [alphanumeric.1]

/-- No control characters but those in front of the host. -/
theorem any_isControl (alphabetic : ∀ b ∈ scheme, isLetter b = true) (front : Bytes) :
    (scheme ++ ascii "://" ++ (front ++ (location.hostPort ++ location.path))).any isControl =
      front.any isControl := by
  have letters : scheme.any isControl = false := by
    simpa using fun b member => (isLetter_scheme b (alphabetic b member)).2
  have host : location.hostPort.any isControl = false := by
    simpa using fun b member =>
      (hostPortByte_plain b (location.hostPortByte_of_mem b member)).2.2
  have path : location.path.any isControl = false := by
    simpa using fun b member => pathByte_plain b (location.unreserved b member)
  have slashes : (ascii "://").any isControl = false := by decide
  simp only [List.any_append, letters, host, path, slashes, Bool.or_false, Bool.false_or]

/-- The parts of a URI in which nothing before the host ends the authority. -/
theorem parse_front (named : Reference.isScheme scheme = true)
    (alphabetic : ∀ b ∈ scheme, isLetter b = true) {front : Bytes}
    (inside : ∀ b ∈ front, Reference.authorityByte b = true) :
    Reference.parse strictColons ipLiteral
        (scheme ++ ascii "://" ++ (front ++ (location.hostPort ++ location.path))) =
      if front.any isControl then .error .controlCharacter
      else do
        let (user, host) ←
          Reference.parseAuthority strictColons ipLiteral (front ++ location.hostPort)
        return { scheme := lower scheme, user := user, host := host, path := location.path } := by
  have authority : ∀ b ∈ front ++ location.hostPort, Reference.authorityByte b = true := by
    intro b member
    rcases List.mem_append.mp member with inFront | inHost
    · exact inside b inFront
    · exact (hostPortByte_plain b (location.hostPortByte_of_mem b inHost)).2.1
  have noMark : questionMark ∉ location.path := notMem_of_forall location.unreserved (by decide)
  have noNumber : numberSign ∉ location.path := notMem_of_forall location.unreserved (by decide)
  have noPercent : percent ∉ location.path := notMem_of_forall location.unreserved (by decide)
  have read : unescape .path location.path = .ok location.path :=
    unescape_literal (literal_of_notMem (by decide) noPercent)
  rw [← List.append_assoc front, Reference.parse_authority_append _ _ named authority
    location.rooted, Reference.hierarchy, Reference.cutQuery_eq, cut_of_notMem noNumber,
    cut_of_notMem noMark, read, List.append_assoc front, any_isControl location alphabetic]
  simp only [noMark, false_and, decide_false]
  split_ifs
  · rfl
  · cases Reference.parseAuthority strictColons ipLiteral (front ++ location.hostPort) <;> rfl

/-- The URL that is read back for a host that is not preceded by anything that ends it. -/
def Location.url (location : Location) (scheme : Bytes) (user : Option Userinfo) : Reference :=
  { scheme := lower scheme, user := user, host := location.hostPort, path := location.path }

theorem atSign_notMem_hostPort : atSign ∉ location.hostPort :=
  notMem_of_forall location.hostPortByte_of_mem (by decide)

theorem parse_without_user (named : Reference.isScheme scheme = true)
    (alphabetic : ∀ b ∈ scheme, isLetter b = true) :
    Reference.parse strictColons ipLiteral
        (scheme ++ ascii "://" ++ ([] ++ (location.hostPort ++ location.path))) =
      .ok (location.url scheme none) := by
  rw [parse_front location named alphabetic (by simp), List.nil_append,
    Reference.parseAuthority_of_notMem _ _ (atSign_notMem_hostPort location),
    location.parseHost_hostPort]
  rfl

theorem parse_with_user (named : Reference.isScheme scheme = true)
    (alphabetic : ∀ b ∈ scheme, isLetter b = true) {userinfo : Bytes}
    (inside : ∀ b ∈ userinfo, Reference.authorityByte b = true) :
    Reference.parse strictColons ipLiteral
        (scheme ++ ascii "://" ++ (userinfo ++ [atSign] ++ (location.hostPort ++ location.path))) =
      if userinfo.any isControl then .error .controlCharacter
      else (Reference.parseUserinfo userinfo).map fun user => location.url scheme (some user) := by
  have front : ∀ b ∈ userinfo ++ [atSign], Reference.authorityByte b = true := by
    intro b member
    rcases List.mem_append.mp member with inUser | last
    · exact inside b inUser
    · rw [List.mem_singleton.mp last]
      decide
  have mark : [atSign].any isControl = false := by decide
  rw [parse_front location named alphabetic front, List.any_append, mark, Bool.or_false,
    List.append_assoc, List.singleton_append,
    Reference.parseAuthority_append _ _ (atSign_notMem_hostPort location),
    location.parseHost_hostPort]
  split_ifs
  · rfl
  · cases Reference.parseUserinfo userinfo <;> rfl

/-! ## Credentials -/

/-- What is written for a user with a password ends no authority and has no control characters. -/
theorem string_plain {user : Bytes} (nonempty : user ≠ []) (pass : Bytes) :
    ∀ b ∈ Userinfo.string { username := user, password := some pass },
      Reference.authorityByte b = true ∧ isControl b = false := by
  have escaped : ∀ s : Bytes, ∀ b ∈ escape s .userPassword,
      (Reference.authorityByte b && !isControl b) = true := by
    intro s
    rw [← List.all_eq_true]
    refine all_escape (by decide) (by decide) fun b _ kept => ?_
    simp [Reference.userinfoByte_plain b (Reference.kept_in_userinfo kept)]
  intro b member
  rw [Userinfo.string_password nonempty] at member
  rw [← Bool.not_eq_true', ← Bool.and_eq_true]
  rcases List.mem_append.mp member with inUser | behind
  · exact escaped user b inUser
  · rcases List.mem_cons.mp behind with rfl | inPass
    · decide
    · exact escaped pass b inPass

/-- The bytes of a user that is read back as it is: those that the parser accepts, without the colon
and the percent sign. -/
def bareUserByte (b : UInt8) : Bool :=
  isAlphanumeric b || (ascii "-._~!$&'()*+,;=@").contains b

private theorem bareUserByte_iff (b : UInt8) :
    bareUserByte b = true ↔
      (isAlphanumeric b || (ascii "-._:~!$&'()*+,;=%@").contains b) = true ∧ b ≠ colon ∧
        b ≠ percent := by
  constructor
  · revert b
    refine forall_alphanumeric_or_mark (fun b alphanumeric => ⟨?_, ?_⟩) (by decide)
    · rw [alphanumeric, Bool.true_or]
    · constructor <;> rintro rfl <;> cases alphanumeric
  · have kept : ∀ b : UInt8,
        (isAlphanumeric b || (ascii "-._:~!$&'()*+,;=%@").contains b) = true →
          b ≠ colon → b ≠ percent → bareUserByte b = true := by
      refine forall_alphanumeric_or_mark (fun b alphanumeric _ _ => ?_) (by decide)
      rw [bareUserByte, alphanumeric, Bool.true_or]
    rintro ⟨among, noColon, noPercent⟩
    exact kept b among noColon noPercent

private theorem bareUserByte_plain (b : UInt8) (bare : bareUserByte b = true) :
    Reference.authorityByte b = true ∧ isControl b = false :=
  Reference.userinfoByte_plain b ((bareUserByte_iff b).mp bare).1

theorem bare_of_parseUserinfo {user : Bytes} {info : Userinfo}
    (parsed : Reference.parseUserinfo user = .ok info) (same : info.username = user) :
    ∀ b ∈ user, bareUserByte b = true := by
  intro b member
  have valid := (Reference.eq_of_parseUserinfo parsed).1
  obtain ⟨noColon, noPercent⟩ :=
    (Reference.length_username_le parsed).2 (congrArg List.length same)
  rw [validUserinfo, List.all_eq_true] at valid
  refine (bareUserByte_iff b).mpr ⟨valid b member, ?_, ?_⟩
  · rintro rfl
    exact noColon member
  · rintro rfl
    exact noPercent member

theorem parseUserinfo_bare {user : Bytes} (bare : ∀ b ∈ user, bareUserByte b = true) :
    Reference.parseUserinfo user = .ok { username := user, password := none } := by
  have valid : validUserinfo user = true :=
    List.all_eq_true.mpr fun b member => ((bareUserByte_iff b).mp (bare b member)).1
  have noColon : colon ∉ user := notMem_of_forall bare (by decide)
  have noPercent : percent ∉ user := notMem_of_forall bare (by decide)
  have read : unescape .userPassword user = .ok user :=
    unescape_literal (literal_of_notMem (by decide) noPercent)
  simp only [Reference.parseUserinfo, valid, List.contains_eq_mem, noColon, read, Bool.not_true,
    decide_false, Bool.false_eq_true, if_false]
  rfl

/-! ## The round trip -/

/-- The parts of a URI are what parsing it gives. -/
def RoundTrips (strictColons : Bool) (ipLiteral : Bytes → Except Url.Error Bytes)
    (scheme user pass : Bytes) (location : Location) : Prop :=
  ∃ url,
    Reference.parse strictColons ipLiteral
        (buildURI scheme user pass location.host location.port location.path) = .ok url ∧
      url.username = user ∧ url.password = pass ∧ url.hostname = location.host ∧
      url.port = location.port ∧ url.path = location.path ∧
      (url.user = none ↔ user = [] ∧ pass = [])

/-- The user and the password that a `Userinfo` stands for. -/
def Stands (info : Option Userinfo) (user pass : Bytes) : Prop :=
  (info.map (·.username)).getD [] = user ∧ (info.bind (·.password)).getD [] = pass ∧
    (info = none ↔ user = [] ∧ pass = [])

theorem roundTrips_of_parse {user pass : Bytes} {outcome : Option Userinfo}
    (parsed : Reference.parse strictColons ipLiteral
      (scheme ++ ascii "://" ++ (credentials user pass ++ (location.hostPort ++ location.path))) =
        .ok (location.url scheme outcome)) :
    RoundTrips strictColons ipLiteral scheme user pass location ↔ Stands outcome user pass := by
  have split := location.splitHostPort_hostPort
  rw [RoundTrips, buildURI_eq, parsed]
  constructor
  · rintro ⟨url, same, username, password, _, _, _, absent⟩
    cases same
    exact ⟨username, password, absent⟩
  · rintro ⟨username, password, absent⟩
    refine ⟨_, rfl, username, password, ?_, ?_, rfl, absent⟩
    · exact congrArg Prod.fst split
    · exact congrArg Prod.snd split

theorem not_roundTrips_of_error {user pass : Bytes} {error : Url.Error}
    (failed : Reference.parse strictColons ipLiteral
      (scheme ++ ascii "://" ++ (credentials user pass ++ (location.hostPort ++ location.path))) =
        .error error) :
    ¬ RoundTrips strictColons ipLiteral scheme user pass location := by
  rintro ⟨url, parsed, _⟩
  rw [buildURI_eq, failed] at parsed
  cases parsed

/-- A URI without a scheme is an error. -/
theorem parse_without_scheme (text : Bytes) :
    ∃ error, Reference.parse strictColons ipLiteral (ascii "://" ++ text) = .error error := by
  have noNumber : numberSign ∉ ascii "://" := by decide
  have missing : getScheme (ascii "://" ++ (cut text numberSign).1) = .error .missingScheme := rfl
  have other : ascii "://" ++ (cut text numberSign).1 ≠ ascii "*" := by
    intro same
    have first : some colon = some 0x2A := congrArg List.head? same
    revert first
    decide
  have failed : ∃ error, Reference.parseWithoutFragment strictColons ipLiteral
      (ascii "://" ++ (cut text numberSign).1) = .error error := by
    rw [Reference.parseWithoutFragment, missing, if_neg other]
    split_ifs
    · exact ⟨_, rfl⟩
    · exact ⟨_, rfl⟩
  obtain ⟨error, failed⟩ := failed
  rw [Reference.parse, cut_append_of_notMem noNumber, failed]
  exact ⟨error, rfl⟩

/-- A user with a slash, a question mark or a number sign in it is cut there. -/
theorem not_roundTrips_of_ending {user : Bytes} (named : Reference.isScheme scheme = true)
    (ending : ¬ ∀ b ∈ user, Reference.authorityByte b = true) :
    ¬ RoundTrips strictColons ipLiteral scheme user [] location := by
  have part := List.takeWhile_prefix Reference.authorityByte (l := user)
  have shorter : (user.takeWhile Reference.authorityByte).length < user.length := by
    refine lt_of_le_of_ne part.length_le fun same => ending ?_
    exact List.takeWhile_eq_self_iff.mp (part.eq_of_length same)
  have nonempty : user ≠ [] := by
    rintro rfl
    exact ending (by simp)
  rintro ⟨url, parsed, username, _⟩
  rw [buildURI_eq, credentials, if_neg nonempty, if_pos rfl] at parsed
  have authority := ((Reference.parse_absolute_eq_ok_iff named).mp parsed).2.1
  rw [List.append_assoc, List.takeWhile_append, if_neg shorter.ne] at authority
  have bounded := Reference.length_username_le_authority authority
  rw [← Reference.username, username] at bounded
  omega

/-- A password without a user is lost. -/
theorem roundTrips_anonymous_iff (named : Reference.isScheme scheme = true)
    (alphabetic : ∀ b ∈ scheme, isLetter b = true) (pass : Bytes) :
    RoundTrips strictColons ipLiteral scheme [] pass location ↔ pass = [] := by
  have parsed := @parse_without_user strictColons ipLiteral scheme location named alphabetic
  have written : credentials [] pass = [] := if_pos rfl
  rw [← written] at parsed
  rw [roundTrips_of_parse location parsed]
  simp [Stands, eq_comm]

/-- A user without a password is read back exactly if all of its bytes stand for themselves. -/
theorem roundTrips_bare_iff {user : Bytes} (named : Reference.isScheme scheme = true)
    (alphabetic : ∀ b ∈ scheme, isLetter b = true) (nonempty : user ≠ []) :
    RoundTrips strictColons ipLiteral scheme user [] location ↔
      ∀ b ∈ user, bareUserByte b = true := by
  have written : credentials user [] = user ++ [atSign] := by
    rw [credentials, if_neg nonempty, if_pos rfl]
  by_cases inside : ∀ b ∈ user, Reference.authorityByte b = true
  · have parsed := @parse_with_user strictColons ipLiteral scheme location named alphabetic user
      inside
    rw [← written] at parsed
    constructor
    · intro trips
      split_ifs at parsed
      · exact absurd trips (not_roundTrips_of_error location parsed)
      · cases outcome : Reference.parseUserinfo user with
        | error error =>
            rw [outcome] at parsed
            exact absurd trips (not_roundTrips_of_error location parsed)
        | ok info =>
            rw [outcome] at parsed
            have stands := (roundTrips_of_parse location parsed).mp trips
            exact bare_of_parseUserinfo outcome stands.1
    · intro bare
      rw [if_neg (by simpa using fun b member => (bareUserByte_plain b (bare b member)).2),
        parseUserinfo_bare bare] at parsed
      rw [roundTrips_of_parse location parsed]
      simp [Stands, nonempty]
  · refine iff_of_false (not_roundTrips_of_ending location named inside) fun bare => inside ?_
    exact fun b member => (bareUserByte_plain b (bare b member)).1

/-- A user and a password are always read back. -/
theorem roundTrips_password {user pass : Bytes} (named : Reference.isScheme scheme = true)
    (alphabetic : ∀ b ∈ scheme, isLetter b = true) (someUser : user ≠ []) (somePass : pass ≠ []) :
    RoundTrips strictColons ipLiteral scheme user pass location := by
  have plain := string_plain someUser pass
  have parsed := @parse_with_user strictColons ipLiteral scheme location named alphabetic _
    fun b member => (plain b member).1
  rw [if_neg (by simpa using fun b member => (plain b member).2),
    Reference.parseUserinfo_string (by simp [someUser])] at parsed
  have written : credentials user pass =
      Userinfo.string { username := user, password := some pass } ++ [atSign] := by
    rw [credentials, if_neg someUser, if_neg somePass]
  rw [← written] at parsed
  rw [roundTrips_of_parse location parsed]
  simp [Stands, someUser]

/-- The credentials are read back exactly if there are none, if there are a user and a password, or
if there is a user without one all of whose bytes stand for themselves. -/
theorem roundTrips_iff (alphabetic : ∀ b ∈ scheme, isLetter b = true) (user pass : Bytes) :
    RoundTrips strictColons ipLiteral scheme user pass location ↔
      scheme ≠ [] ∧
        (user = [] ∧ pass = [] ∨ user ≠ [] ∧ pass ≠ [] ∨
          user ≠ [] ∧ pass = [] ∧ ∀ b ∈ user, bareUserByte b = true) := by
  by_cases anonymous : scheme = []
  · subst anonymous
    obtain ⟨error, failed⟩ : ∃ error, Reference.parse strictColons ipLiteral
        (ascii "://" ++ (credentials user pass ++ (location.hostPort ++ location.path))) =
          .error error :=
      parse_without_scheme _
    have refused : ¬ RoundTrips strictColons ipLiteral [] user pass location :=
      not_roundTrips_of_error location failed
    simp [refused]
  · have named := isScheme_of_letters alphabetic anonymous
    by_cases noUser : user = []
    · subst noUser
      rw [roundTrips_anonymous_iff location named alphabetic]
      simp [anonymous]
    · by_cases noPass : pass = []
      · subst noPass
        rw [roundTrips_bare_iff location named alphabetic noUser]
        simp [anonymous, noUser]
      · refine iff_of_true (roundTrips_password location named alphabetic noUser noPass) ?_
        exact ⟨anonymous, Or.inr (Or.inl ⟨noUser, noPass⟩)⟩

end Parsing

/-- The address `db.local:5432/app`. -/
def database : Location where
  host := ascii "db.local"
  port := ascii "5432"
  path := ascii "/app"
  hostname := List.all_eq_true.mp rfl
  digits := List.all_eq_true.mp rfl
  rooted := Or.inr rfl
  unreserved := List.all_eq_true.mp rfl

theorem roundTrips_reserved :
    (∀ b ∈ ascii "postgres", isLetter b = true) ∧
      RoundTrips true .ok (ascii "postgres") (ascii "a@b/c") (ascii "p:w?#%") database :=
  ⟨List.all_eq_true.mp rfl,
    (roundTrips_iff database (List.all_eq_true.mp rfl) _ _).mpr
      ⟨by decide, Or.inr (Or.inl ⟨by decide, by decide⟩)⟩⟩

/-- A user that ends with a slash takes the place of the host, and the host becomes part of the
path. -/
def diverted : Reference where
  scheme := ascii "https"
  host := ascii "evil.com"
  path := ascii "/@db.local:5432/app"

theorem parse_diverted :
    Reference.parse true .ok
        (buildURI (ascii "https") (ascii "evil.com/") [] database.host database.port
          database.path) =
      .ok diverted := by
  decide +kernel

theorem slash_moves_host :
    ¬ RoundTrips true .ok (ascii "https") (ascii "evil.com/") [] database ∧
      diverted.hostname ≠ database.host := by
  refine ⟨?_, by decide⟩
  rintro ⟨url, parsed, username, _⟩
  obtain rfl : diverted = url := Except.ok.inj (parse_diverted.symm.trans parsed)
  revert username
  decide

end CommonGo.UrlUtil
