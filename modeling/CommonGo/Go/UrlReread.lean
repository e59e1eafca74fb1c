import CommonGo.Go.UrlString

/-!
# URLs read back

A URL that has been parsed is read back from the text that `String` writes for it, with a query put
in its place: host and user are escaped and unescaped, and the path is written as it was or escaped.
Three URLs come back as others, and are left out: one with an empty user and an empty password, one
without a host whose path, as `String` escapes it, begins with two slashes and so with a host, and
one whose path is taken for a scheme.
-/

namespace Go.Url

variable {strictColons : Bool} {ipLiteral : Bytes → Except Error Bytes}

/-! ## Unescaped text -/

section Unescapes

variable {mode : Encoding} {s text : Bytes}

/-- The bytes of a host that has been read: those that may be escaped in it, and those of its text
that stand for themselves. -/
theorem Unescapes.mem_host (steps : Unescapes .host s text) {b : UInt8} (member : b ∈ text) :
    (0x80 ≤ b ∨ b = percent) ∨ b ∈ s ∧ shouldEscape b .host = false := by
  induction steps with
  | nil => cases member
  | plain _ allowed rest ih =>
      rcases List.mem_cons.mp member with rfl | later
      · exact (allowed rfl).imp Or.inl fun kept => ⟨List.mem_cons_self, kept⟩
      · exact (ih later).imp_right fun found => ⟨List.mem_cons_of_mem _ found.1, found.2⟩
  | escaped _ allowed rest ih =>
      rcases List.mem_cons.mp member with rfl | later
      · exact Or.inl (allowed rfl)
      · refine (ih later).imp_right fun found => ⟨?_, found.2⟩
        exact List.mem_cons_of_mem _ (List.mem_cons_of_mem _ (List.mem_cons_of_mem _ found.1))

theorem Unescapes.eq_of_notMem (steps : Unescapes mode s text) (plain : percent ∉ s) :
    text = s := by
  induction steps with
  | nil => rfl
  | plain _ _ rest ih => rw [ih fun member => plain (List.mem_cons_of_mem _ member)]
  | escaped _ _ rest ih => exact absurd List.mem_cons_self plain

/-- A byte that is not used in escaping splits what is read where it splits the text. -/
theorem Unescapes.split {front back : Bytes} {b : UInt8} (foreign : Foreign b)
    (steps : Unescapes mode (front ++ b :: back) text) :
    ∃ first second, text = first ++ b :: second ∧ Unescapes mode front first ∧
      Unescapes mode back second := by
  have digit : ∀ {c}, ishex c = true → c ≠ b := by
    rintro c hex rfl
    rw [foreign.2] at hex
    cases hex
  generalize whole : front ++ b :: back = s at steps
  induction steps generalizing front with
  | nil => simp at whole
  | plain plain allowed rest ih =>
      rcases front with _ | ⟨c, front⟩
      · cases whole
        exact ⟨[], _, rfl, .nil, rest⟩
      · obtain ⟨rfl, rfl⟩ := List.cons.inj whole
        obtain ⟨first, second, rfl, before, behind⟩ := ih rfl
        exact ⟨_ :: first, second, rfl, .plain plain allowed before, behind⟩
  | escaped digits allowed rest ih =>
      -- The byte is neither the percent sign nor one of the digits.
      rcases front with _ | ⟨c, _ | ⟨high, _ | ⟨low, front⟩⟩⟩
      · exact absurd (List.cons.inj whole).1 foreign.1
      · simp only [List.cons_append, List.nil_append, List.cons.injEq] at whole
        exact absurd whole.2.1.symm (digit digits.1)
      · simp only [List.cons_append, List.nil_append, List.cons.injEq] at whole
        exact absurd whole.2.2.1.symm (digit digits.2)
      · simp only [List.cons_append, List.cons.injEq] at whole
        obtain ⟨rfl, rfl, rfl, rfl⟩ := whole
        obtain ⟨first, second, rfl, before, behind⟩ := ih rfl
        exact ⟨_ :: first, second, rfl, .escaped digits allowed before, behind⟩

end Unescapes

/-! ## Hosts -/

/-- What is read as a host in brackets has one, and is read back. -/
def Rereads (ipLiteral : Bytes → Except Error Bytes) : Prop :=
  ∀ text host, ipLiteral text = .ok host → 0x5B ∈ host ∧ ipLiteral (escape host .host) = .ok host

theorem unescape_escape_of_forall {host : Bytes}
    (fits : ∀ b ∈ host, (0x80 ≤ b ∨ b = percent) ∨ shouldEscape b .host = false) :
    unescape .host (escape host .host) = .ok host := by
  induction host with
  | nil => rfl
  | cons b rest ih =>
      obtain ⟨here, behind⟩ := List.forall_mem_cons.mp fits
      have read : unescape .host (escapeByte .host b ++ escape rest .host) =
          (unescape .host (escape rest .host)).map (b :: ·) := by
        cases escaped : shouldEscape b .host with
        | true =>
            rw [escapeByte, if_pos escaped]
            refine (unescape_percent .host b _).trans (if_neg ?_)
            rintro ⟨_, low, plain⟩
            rcases here with (high | mark) | kept
            · exact UInt8.not_le.mpr low high
            · exact plain mark
            · rw [escaped] at kept
              cases kept
        | false =>
            have plain : b ≠ percent := by
              rintro rfl
              revert escaped
              decide
            rw [escapeByte, if_neg (by simp [escaped])]
            refine (unescape_plain .host plain _).trans (if_neg ?_)
            rintro ⟨_, _, forbidden⟩
            rw [escaped] at forbidden
            cases forbidden
      rw [escape_cons, read, ih behind]
      rfl

/-- A port is what stands after a colon, the first one if there must be no other. -/
theorem acceptsPort_iff {host : Bytes} :
    acceptsPort strictColons host = true ↔
      colon ∉ host ∨ ∃ front digits, host = front ++ colon :: digits ∧
        (∀ d ∈ digits, (0x30 ≤ d && d ≤ 0x39) = true) ∧ (strictColons = true → colon ∉ front) := by
  have colonless : ∀ {digits : Bytes}, (∀ d ∈ digits, (0x30 ≤ d && d ≤ 0x39) = true) →
      colon ∉ digits := fun all => notMem_of_forall all (by decide)
  constructor
  · intro accepted
    by_cases member : colon ∈ host
    · right
      cases strictColons with
      | true =>
          obtain ⟨front, digits, rfl, absent⟩ := List.eq_append_cons_of_mem member
          refine ⟨front, digits, rfl, ?_, fun _ => absent⟩
          simpa [acceptsPort, colonPort, dropWhile_append_cons absent, validOptionalPort] using
            accepted
      | false =>
          obtain ⟨back, front, reversed, absent⟩ :=
            List.eq_append_cons_of_mem (List.mem_reverse.mpr member)
          obtain rfl : host = front.reverse ++ colon :: back.reverse := by
            rw [← List.reverse_reverse host, reversed]
            simp
          have last : colon ∉ back.reverse := by simpa using absent
          refine ⟨front.reverse, back.reverse, rfl, ?_, by simp⟩
          simpa [acceptsPort, colonPort, rtakeWhile_append_cons last, validOptionalPort] using
            accepted
    · exact Or.inl member
  · rintro (absent | ⟨front, digits, rfl, all, single⟩)
    · simp [acceptsPort, absent]
    · cases strictColons with
      | true =>
          simpa [acceptsPort, colonPort, dropWhile_append_cons (single rfl),
            validOptionalPort] using all
      | false =>
          simpa [acceptsPort, colonPort, rtakeWhile_append_cons (colonless all),
            validOptionalPort] using all

private theorem foreign_colon : Foreign colon := separator_colon.foreign

private theorem digit_kept (b : UInt8) : (0x30 ≤ b && b ≤ 0x39) = true →
    escapeByte .host b = [b] ∧ b ≠ percent := by
  intro digit
  have alphanumeric : isAlphanumeric b = true := by rw [isAlphanumeric, digit, Bool.or_true]
  refine ⟨by rw [escapeByte, shouldEscape_of_isAlphanumeric alphanumeric]; rfl, ?_⟩
  rintro rfl
  cases alphanumeric

private theorem escape_digits {digits : Bytes}
    (all : ∀ d ∈ digits, (0x30 ≤ d && d ≤ 0x39) = true) : escape digits .host = digits := by
  induction digits with
  | nil => rfl
  | cons d rest ih =>
      obtain ⟨here, behind⟩ := List.forall_mem_cons.mp all
      rw [escape_cons, (digit_kept d here).1, ih behind]
      rfl

/-- A colon of the host stands in its text. -/
private theorem colon_mem_of_unescapes {s host : Bytes} (steps : Unescapes .host s host)
    (member : colon ∈ host) : colon ∈ s := by
  rcases steps.mem_host member with outside | here
  · exact absurd outside (by decide)
  · exact here.1

/-- The port is written as it was. -/
theorem acceptsPort_reread {s host : Bytes} (steps : Unescapes .host s host)
    (accepted : acceptsPort strictColons s = true) :
    acceptsPort strictColons (escape host .host) = true := by
  rw [acceptsPort_iff] at accepted ⊢
  rcases accepted with absent | ⟨front, digits, rfl, all, single⟩
  · left
    intro member
    exact absent (colon_mem_of_unescapes steps (mem_of_mem_escape foreign_colon member).1)
  · right
    obtain ⟨first, second, rfl, before, behind⟩ := steps.split foreign_colon
    obtain rfl : second = digits := behind.eq_of_notMem fun member =>
      (digit_kept _ (all _ member)).2 rfl
    refine ⟨escape first .host, second, ?_, all, fun strict member => ?_⟩
    · rw [escape_append, escape_cons, escape_digits all]
      rfl
    · exact single strict (colon_mem_of_unescapes before (mem_of_mem_escape foreign_colon member).1)

/-- A host is read back from what is written for it. -/
theorem parseHost_reread {s host : Bytes} (literals : Rereads ipLiteral)
    (parsed : parseHost strictColons ipLiteral s = .ok host) :
    parseHost strictColons ipLiteral (escape host .host) = .ok host := by
  unfold parseHost at parsed
  split_ifs at parsed with bracket port
  · obtain ⟨member, again⟩ := literals s host parsed
    have kept : (0x5B : UInt8) ∈ escape host .host :=
      List.mem_flatMap.mpr ⟨0x5B, member, by decide⟩
    rw [parseHost, if_pos (by simpa using kept), again]
  · have steps := unescapes_of_eq_ok parsed
    have unbracketed : (0x5B : UInt8) ∉ escape host .host := by
      intro member
      rcases steps.mem_host (mem_of_mem_escape ⟨by decide, by decide⟩ member).1 with
        outside | here
      · exact absurd outside (by decide)
      · exact bracket (by simpa using here.1)
    have accepted : acceptsPort strictColons s = true := by
      rw [acceptsPort, Bool.or_eq_true, Bool.not_eq_true']
      by_contra refused
      rw [not_or, Bool.not_eq_false, Bool.not_eq_true] at refused
      exact port refused
    have again := acceptsPort_reread steps accepted
    rw [parseHost, if_neg (by simpa using unbracketed), if_neg,
      unescape_escape_of_forall fun b member => (steps.mem_host member).imp_right And.right]
    rintro ⟨member, refused⟩
    rw [acceptsPort, member, refused] at again
    cases again

/-! ## Authorities -/

/-- The user and the host, as they are written. -/
def authorityText : Option Userinfo → Bytes → Bytes
  | some user, host => user.string ++ atSign :: escape host .host
  | none, host => escape host .host

theorem slash_notMem_authorityText (user : Option Userinfo) (host : Bytes) :
    slash ∉ authorityText user host := by
  have absent : ∀ {mode : Encoding}, shouldEscape slash mode = true → ∀ s, slash ∉ escape s mode :=
    notMem_escape separator_slash.foreign
  cases user with
  | none => exact absent (by decide) host
  | some user =>
      rw [authorityText, List.mem_append, List.mem_cons, not_or, not_or]
      refine ⟨?_, by decide, absent (by decide) host⟩
      unfold Userinfo.string
      split_ifs
      · cases user.password with
        | none => simpa using absent (by decide) user.username
        | some password =>
            rw [List.mem_append, List.mem_cons, not_or, not_or]
            exact ⟨absent (by decide) _, by decide, absent (by decide) _⟩
      · simp

theorem escape_eq_nil_iff {mode : Encoding} {s : Bytes} : escape s mode = [] ↔ s = [] := by
  refine ⟨fun empty => ?_, fun empty => by rw [empty]; rfl⟩
  cases s with
  | nil => rfl
  | cons b rest =>
      rw [escape_cons, List.append_eq_nil_iff, escapeByte] at empty
      split_ifs at empty <;> simp at empty

theorem authorityText_eq_nil_iff {user : Option Userinfo} {host : Bytes} :
    authorityText user host = [] ↔ user = none ∧ host = [] := by
  cases user <;> simp [authorityText, escape_eq_nil_iff]

namespace Reference

variable {authority host : Bytes} {user : Option Userinfo}

/-- An authority is read back from what is written for it. -/
theorem parseAuthority_reread (literals : Rereads ipLiteral)
    (shown : user ≠ some { username := [], password := some [] })
    (parsed : parseAuthority strictColons ipLiteral authority = .ok (user, host)) :
    parseAuthority strictColons ipLiteral (authorityText user host) = .ok (user, host) := by
  obtain ⟨name, hosted, parsed⟩ := exists_of_bind_eq_ok parsed
  have absent : atSign ∉ escape host .host :=
    notMem_escape separator_atSign.foreign (by decide) host
  split_ifs at parsed
  · obtain ⟨info, _, parsed⟩ := exists_of_bind_eq_ok parsed
    cases parsed
    have known : info ≠ { username := [], password := some [] } := by
      rintro rfl
      exact shown rfl
    rw [authorityText, parseAuthority_append strictColons ipLiteral absent,
      parseHost_reread literals hosted, parseUserinfo_string known]
    rfl
  · cases parsed
    rw [authorityText, parseAuthority_of_notMem strictColons ipLiteral absent,
      parseHost_reread literals hosted]
    rfl

/-- Only an empty authority has neither a user nor a host. -/
theorem eq_nil_of_parseAuthority (literals : Rereads ipLiteral)
    (parsed : parseAuthority strictColons ipLiteral authority = .ok (none, [])) :
    authority = [] := by
  obtain ⟨name, hosted, parsed⟩ := exists_of_bind_eq_ok parsed
  split_ifs at parsed with marked
  · obtain ⟨info, _, parsed⟩ := exists_of_bind_eq_ok parsed
    cases parsed
  · cases parsed
    have whole : authority.rtakeWhile (· != atSign) = authority :=
      List.rtakeWhile_eq_self_iff.mpr (bne_of_notMem (by simpa using marked))
    rw [whole, parseHost] at hosted
    split_ifs at hosted
    · exact absurd (literals _ _ hosted).1 (by simp)
    · have steps := unescapes_of_eq_ok hosted
      cases steps
      rfl

end Reference

/-! ## Paths -/

theorem Unescapes.head_slash {mode : Encoding} {s text : Bytes} (steps : Unescapes mode s text)
    (starts : s.head? = some slash) : text.head? = some slash := by
  cases steps with
  | nil => cases starts
  | plain => exact starts
  | escaped => exact absurd (Option.some.inj starts) (by decide)

private theorem head_escape_path (s : Bytes) :
    (escape s .path).head? = some slash ↔ s.head? = some slash := by
  cases s with
  | nil => rfl
  | cons b rest =>
      rw [escape_cons, escapeByte]
      split_ifs with escaped
      · have other : b ≠ slash := by
          rintro rfl
          revert escaped
          decide
        simpa [other] using show percent ≠ slash by decide
      · rfl

/-- Two slashes are written for two slashes only. -/
private theorem slashes_of_escape {s : Bytes} (starts : ascii "//" <+: escape s .path) :
    ascii "//" <+: s := by
  obtain ⟨behind, text⟩ := starts
  rcases s with _ | ⟨b, rest⟩
  · cases text
  · have first : (escape (b :: rest) .path).head? = some slash := by
      rw [← text]
      rfl
    obtain rfl : b = slash := Option.some.inj ((head_escape_path _).mp first)
    rw [escape_cons, separator_slash.escapeByte_self] at text
    have behind_eq : slash :: behind = escape rest .path := (List.cons.inj text).2
    have second : (escape rest .path).head? = some slash := by
      rw [← behind_eq]
      rfl
    obtain ⟨more, rfl⟩ := List.head?_eq_some_iff.mp ((head_escape_path _).mp second)
    exact ⟨more, rfl⟩

/-- Text behind a scheme that is read as a path. -/
structure Pathlike (scheme rest : Bytes) : Prop where
  /-- There is a slash at the head, or no scheme. -/
  rooted : rest.head? = some slash ∨ scheme = []
  /-- The first segment has no colon. -/
  segment : colon ∉ (cut rest slash).1
  /-- No host follows. -/
  bare : ¬ (ascii "//" <+: rest ∧ (scheme ≠ [] ∨ ¬ ascii "///" <+: rest))

theorem cut_slash_of_head {rest : Bytes} (starts : rest.head? = some slash) :
    (cut rest slash).1 = [] := by
  obtain ⟨behind, rfl⟩ := List.head?_eq_some_iff.mp starts
  simp [cut]

theorem Reference.parseRest_of_pathlike {scheme rest path : Bytes} (plain : Pathlike scheme rest)
    (read : unescape .path rest = .ok path) :
    Reference.parseRest strictColons ipLiteral scheme rest =
      .ok { scheme := scheme, path := path } := by
  rw [parseRest, if_neg, if_neg, if_neg plain.bare, read]
  · rfl
  · rintro ⟨_, marked⟩
    exact plain.segment (by simpa using marked)
  · rintro ⟨unrooted, named⟩
    exact plain.rooted.elim unrooted named

namespace RawURL

variable {url base : RawURL} {scheme rest text : Bytes}

theorem unescape_escapedPath (url : RawURL) : unescape .path url.escapedPath = .ok url.path := by
  unfold escapedPath writtenOr
  split_ifs with written
  · exact written.2.2
  · unfold Url.escapedPath
    split_ifs with star
    · rw [star]
      rfl
    · exact unescape_escape_of_ne (by decide) _ _

/-- Without the text it was read from, a path is escaped, except for the star. -/
private theorem escapedPath_cases (path : Bytes) :
    Url.escapedPath path = ascii "*" ∧ path = ascii "*" ∨
      Url.escapedPath path = escape path .path := by
  unfold Url.escapedPath
  split_ifs with star
  · exact Or.inl ⟨star, star⟩
  · exact Or.inr rfl

theorem toReference_setPath (read : base.setPath text = .ok url) :
    url.toReference = { base.toReference with path := url.path } ∧
      url.omitHost = base.omitHost := by
  obtain ⟨path, _, is⟩ := exists_of_bind_eq_ok read
  cases is
  exact ⟨rfl, rfl⟩

/-- A path that has been read is written as it was, or escaped if it has a byte that a path must not
have. -/
theorem escapedPath_setPath (read : base.setPath text = .ok url) :
    url.escapedPath = text ∨ url.escapedPath = ascii "*" ∧ url.path = ascii "*" ∨
      url.escapedPath = escape url.path .path ∧ validEncoded url.rawPath .path = false := by
  obtain ⟨path, found, is⟩ := exists_of_bind_eq_ok read
  cases is
  unfold escapedPath writtenOr
  by_cases same : text = escape path .path
  · simp only [if_pos same, ne_eq, not_true_eq_false, false_and, if_false]
    rcases escapedPath_cases path with star | escaped
    · exact Or.inr (Or.inl star)
    · exact Or.inl (escaped.trans same.symm)
  · have nonempty : text ≠ [] := by
      rintro rfl
      cases found
      exact same rfl
    simp only [if_neg same, found, nonempty, ne_eq, not_false_eq_true, true_and, and_true]
    cases valid : validEncoded text .path with
    | true => exact Or.inl rfl
    | false => exact Or.inr ((escapedPath_cases path).imp_right fun escaped => ⟨escaped, rfl⟩)

/-- The path of a URL is kept by `String`: behind a host, or written with the bytes of a path, or in
no danger of being taken for a host or a scheme when it has been escaped. -/
def PathKept (url : RawURL) : Prop :=
  url.host ≠ [] ∨ validEncoded url.rawPath .path = true ∨
    ¬ ascii "//" <+: url.path ∧ colon ∉ (cut url.path slash).1

instance (url : RawURL) : Decidable url.PathKept := inferInstanceAs (Decidable (_ ∨ _ ∨ _))

theorem head_setPath (read : base.setPath text = .ok url) (starts : text.head? = some slash) :
    url.path.head? = some slash := by
  obtain ⟨path, found, is⟩ := exists_of_bind_eq_ok read
  cases is
  exact (unescapes_of_eq_ok found).head_slash starts

/-- A path with a slash at its head is written with one. -/
theorem head_escapedPath (read : base.setPath text = .ok url) (starts : text.head? = some slash) :
    url.escapedPath.head? = some slash := by
  have head := head_setPath read starts
  rcases escapedPath_setPath read with same | ⟨-, star⟩ | ⟨escaped, -⟩
  · rw [same, starts]
  · rw [star] at head
    exact absurd head (by decide)
  · rw [escaped, head_escape_path, head]

theorem escapedPath_eq_nil (empty : url.path = []) : url.escapedPath = [] := by
  have steps := unescapes_of_eq_ok url.unescape_escapedPath
  rw [empty] at steps
  generalize url.escapedPath = written at steps
  cases steps
  rfl

theorem path_eq_nil_of_setPath (read : base.setPath [] = .ok url) : url.path = [] := by
  obtain ⟨path, found, is⟩ := exists_of_bind_eq_ok read
  cases found
  cases is
  rfl

theorem rooted_escapedPath (read : base.setPath text = .ok url)
    (rooted : Reference.Rooted text) : Reference.Rooted url.escapedPath := by
  rcases rooted with rfl | starts
  · exact Or.inl (escapedPath_eq_nil (path_eq_nil_of_setPath read))
  · exact Or.inr (head_escapedPath read starts)

theorem rooted_dropWhile (text : Bytes) : Reference.Rooted (text.dropWhile (· != slash)) := by
  cases split : text.dropWhile (· != slash) with
  | nil => exact Or.inl rfl
  | cons b more => exact Or.inr (by rw [eq_of_dropWhile split]; rfl)

/-- What is written for a path is read as a path. -/
theorem pathlike_escapedPath (path : Pathlike scheme text) (read : base.setPath text = .ok url)
    (hostless : url.host = []) (kept : url.PathKept) : Pathlike scheme url.escapedPath := by
  rcases escapedPath_setPath read with same | ⟨written, star⟩ | ⟨escaped, invalid⟩
  · rw [same]
    exact path
  · rw [written]
    refine ⟨Or.inr (path.rooted.resolve_left fun starts => ?_), by decide, fun host => ?_⟩
    · have head := head_setPath read starts
      rw [star] at head
      exact absurd head (by decide)
    · exact absurd host.1 (by decide)
  · obtain ⟨single, segment⟩ := (kept.resolve_left (not_not.mpr hostless)).resolve_left
      (by simp [invalid])
    rw [escaped]
    refine ⟨path.rooted.imp_left fun starts => ?_, ?_, fun host => single ?_⟩
    · rw [head_escape_path, head_setPath read starts]
    · rw [cut_escape separator_slash]
      exact fun member => segment (mem_of_mem_escape foreign_colon member).1
    · exact slashes_of_escape host.1

/-! ## What stands before the query -/

/-- The scheme, as it is written. -/
def schemeText (scheme : Bytes) : Bytes := if scheme = [] then [] else scheme ++ [colon]

theorem authority_eq_nil (hostless : url.host = []) (userless : url.user = none)
    (omits : url.scheme = [] ∨ url.omitHost = true ∨ url.path = []) : url.authority = [] := by
  unfold authority
  rcases omits with unnamed | omitted | empty
  · rw [if_pos ⟨unnamed, hostless, userless⟩]
  · rw [if_pos (⟨omitted, hostless, userless⟩ : _ ∧ _ ∧ _), ite_self]
  · simp [hostless, userless, empty]

theorem front_of_path (hierarchical : url.opaquePart = []) (hostless : url.host = [])
    (none : url.authority = []) (segment : colon ∉ (cut url.escapedPath slash).1) :
    url.front = schemeText url.scheme ++ url.escapedPath := by
  simp [front, hierarchical, hostless, none, segment, schemeText]

theorem front_of_nothing (hierarchical : url.opaquePart = []) (hostless : url.host = [])
    (userless : url.user = none) (empty : url.path = []) : url.front = schemeText url.scheme := by
  have nothing := escapedPath_eq_nil empty
  rw [front_of_path hierarchical hostless
    (authority_eq_nil hostless userless (Or.inr (Or.inr empty))) (by rw [nothing]; simp [cut]),
    nothing, List.append_nil]

theorem front_of_authority (hierarchical : url.opaquePart = []) (shown : url.omitHost = false)
    (hosted : ¬ (url.scheme = [] ∧ url.host = [] ∧ url.user = none))
    (slashes : url.host ≠ [] ∨ url.path ≠ [] ∨ url.user ≠ none)
    (rooted : Reference.Rooted url.escapedPath) :
    url.front = schemeText url.scheme ++
      (ascii "//" ++ (authorityText url.user url.host ++ url.escapedPath)) := by
  have written : url.authority = ascii "//" ++ authorityText url.user url.host := by
    rw [authority, if_neg hosted, if_neg (by simp [shown]), if_pos slashes]
    cases url.user <;> simp [authorityText]
  have unslashed : ¬ (url.escapedPath ≠ [] ∧ url.escapedPath.head? ≠ some slash ∧
      url.host ≠ []) := by
    rintro ⟨nonempty, unrooted, _⟩
    exact rooted.elim nonempty unrooted
  have begun : ¬ (schemeText url.scheme ++ url.authority = [] ∧
      (cut url.escapedPath slash).1.contains colon = true) := by
    rintro ⟨empty, _⟩
    rw [written] at empty
    exact absurd (List.append_eq_nil_iff.mp (List.append_eq_nil_iff.mp empty).2).1 (by decide)
  have parts : url.front =
      (let before := schemeText url.scheme ++ url.authority
        let slashed := before ++ if url.escapedPath ≠ [] ∧ url.escapedPath.head? ≠ some slash ∧
          url.host ≠ [] then [slash] else []
        slashed ++ (if slashed = [] ∧ (cut url.escapedPath slash).1.contains colon then ascii "./"
          else []) ++ url.escapedPath) := if_neg (not_not.mpr hierarchical)
  simp only [parts, if_neg unslashed, List.append_nil]
  rw [if_neg begun, List.append_nil, written, List.append_assoc, List.append_assoc]

theorem parseRest_authorityText {user : Option Userinfo} {host path written : Bytes}
    (parsed : Reference.parseAuthority strictColons ipLiteral (authorityText user host) =
      .ok (user, host))
    (rooted : Reference.Rooted written) (read : unescape .path written = .ok path)
    (named : scheme ≠ [] ∨ authorityText user host ≠ []) :
    Reference.parseRest strictColons ipLiteral scheme
        (ascii "//" ++ (authorityText user host ++ written)) =
      .ok { scheme := scheme, user := user, host := host, path := path } := by
  have passed := bne_of_notMem (slash_notMem_authorityText user host)
  have ends : written.takeWhile (· != slash) = [] ∧ written.dropWhile (· != slash) = written := by
    rcases rooted with rfl | starts
    · exact ⟨rfl, rfl⟩
    · obtain ⟨behind, rfl⟩ := List.head?_eq_some_iff.mp starts
      exact ⟨rfl, rfl⟩
  have two : scheme ≠ [] ∨
      ¬ ascii "///" <+: ascii "//" ++ (authorityText user host ++ written) := by
    refine named.imp_right fun nonempty three => ?_
    obtain ⟨b, more, is⟩ := List.exists_cons_of_ne_nil nonempty
    rw [is] at three
    have third : slash = b := by
      obtain ⟨behind, text⟩ := three
      exact (List.cons.inj (List.cons.inj (List.cons.inj text).2).2).1
    refine slash_notMem_authorityText user host ?_
    rw [is, third]
    exact List.mem_cons_self
  rw [Reference.parseRest_authority _ _ two, List.takeWhile_append_of_pos passed,
    List.dropWhile_append_of_pos passed, ends.1, ends.2, List.append_nil, parsed, read]
  rfl

theorem parseRest_nil (scheme : Bytes) :
    Reference.parseRest strictColons ipLiteral scheme [] = .ok { scheme := scheme } := by
  unfold Reference.parseRest
  split_ifs with named segment host
  · rfl
  · exact absurd segment.2 (by decide)
  · exact absurd host.1 (by decide)
  · rfl

variable (literals : Rereads ipLiteral)
  (shown : url.user ≠ some { username := [], password := some [] })

include literals shown in
/-- Behind the scheme, an authority and a path are read back from what is written for them. -/
theorem parseRest_front_authority {user : Option Userinfo} {host : Bytes}
    (named : scheme ≠ [] ∨ ¬ ascii "///" <+: ascii "//" ++ rest)
    (parsed : Reference.parseAuthority strictColons ipLiteral (rest.takeWhile (· != slash)) =
      .ok (user, host))
    (read : setPath { scheme := scheme, user := user, host := host }
      (rest.dropWhile (· != slash)) = .ok url) :
    ∃ text, url.front = schemeText scheme ++ text ∧
      Reference.parseRest strictColons ipLiteral scheme text = .ok url.toReference := by
  have start := rooted_dropWhile rest
  have rooted := rooted_escapedPath read start
  have whole := @List.takeWhile_append_dropWhile _ (· != slash) rest
  obtain ⟨is, omits⟩ := toReference_setPath read
  have reread : Reference.parseAuthority strictColons ipLiteral (authorityText user host) =
      .ok (user, host) := by
    refine Reference.parseAuthority_reread literals ?_ parsed
    rw [is] at shown
    exact shown
  have written : ∀ (hosted : scheme ≠ [] ∨ authorityText user host ≠ [])
      (_ : host ≠ [] ∨ url.path ≠ [] ∨ user ≠ none),
      ∃ text, url.front = schemeText scheme ++ text ∧
        Reference.parseRest strictColons ipLiteral scheme text = .ok url.toReference := by
    intro hosted slashes
    have front : url.front = schemeText url.scheme ++
        (ascii "//" ++ (authorityText url.user url.host ++ url.escapedPath)) := by
      refine front_of_authority (by rw [is]) omits ?_ (by rw [is]; exact slashes) rooted
      rw [is]
      rintro ⟨unnamed, hostless, userless⟩
      exact hosted.elim (fun named => named unnamed) fun nonempty =>
        nonempty (authorityText_eq_nil_iff.mpr ⟨userless, hostless⟩)
    rw [is] at front ⊢
    exact ⟨_, front, parseRest_authorityText reread rooted url.unescape_escapedPath hosted⟩
  by_cases bare : user = none ∧ host = []
  · obtain ⟨rfl, rfl⟩ := bare
    rw [Reference.eq_nil_of_parseAuthority literals parsed, List.nil_append] at whole
    by_cases empty : url.path = []
    · -- Nothing is left but the scheme.
      have front := @front_of_nothing url (by rw [is]) (by rw [is]) (by rw [is]) empty
      rw [is] at front ⊢
      rw [empty]
      exact ⟨[], front.trans (List.append_nil _).symm, parseRest_nil scheme⟩
    · -- Without a scheme, a path would be behind three slashes.
      refine written (Or.inl (named.resolve_right (not_not.mpr ?_))) (Or.inr (Or.inl empty))
      rw [whole] at start read
      rcases start with rfl | starts
      · exact absurd (path_eq_nil_of_setPath read) empty
      · obtain ⟨behind, rfl⟩ := List.head?_eq_some_iff.mp starts
        exact ⟨behind, rfl⟩
  · refine written (Or.inr fun none => bare (authorityText_eq_nil_iff.mp none)) ?_
    by_contra nothing
    rw [not_or, not_or, not_not, not_not, not_not] at nothing
    exact bare ⟨nothing.2.2, nothing.1⟩

include literals shown in
/-- What stands before the query is read back from what is written for it. -/
theorem parseRest_front (kept : url.PathKept)
    (parsed : parseRest strictColons ipLiteral scheme rest = .ok url) :
    ∃ text, url.front = schemeText scheme ++ text ∧
      Reference.parseRest strictColons ipLiteral scheme text = .ok url.toReference := by
  unfold parseRest at parsed
  split_ifs at parsed with opaquely segment hosted
  · -- An opaque part is written as it was.
    cases parsed
    refine ⟨rest, ?_, if_pos opaquely⟩
    by_cases empty : rest = []
    · subst empty
      exact (front_of_nothing rfl rfl rfl rfl).trans (List.append_nil _).symm
    · exact if_pos empty
  · obtain ⟨⟨user, host⟩, found, read⟩ := exists_of_bind_eq_ok parsed
    obtain ⟨⟨behind, rfl⟩, named⟩ := hosted
    exact parseRest_front_authority literals shown named found read
  · obtain ⟨is, omits⟩ := toReference_setPath parsed
    have plain : Pathlike scheme rest := by
      have rooted : rest.head? = some slash ∨ scheme = [] := by
        by_contra neither
        rw [not_or] at neither
        exact opaquely neither
      refine ⟨rooted, fun member => ?_, hosted⟩
      by_cases starts : rest.head? = some slash
      · rw [cut_slash_of_head starts] at member
        cases member
      · exact segment ⟨starts, by simpa using member⟩
    have again := pathlike_escapedPath plain parsed (by rw [is]) kept
    have front := @front_of_path url (by rw [is]) (by rw [is])
      (authority_eq_nil (by rw [is]) (by rw [is]) ?_) again.segment
    · rw [is] at front ⊢
      exact ⟨_, front, Reference.parseRest_of_pathlike again url.unescape_escapedPath⟩
    · rw [is, omits]
      by_cases unnamed : scheme = []
      · exact Or.inl unnamed
      · exact Or.inr (Or.inl (decide_eq_true ⟨unnamed, plain.rooted.resolve_right unnamed⟩))

/-! ## Whole URLs -/

private def lowerByte (b : UInt8) : UInt8 := if 0x41 ≤ b && b ≤ 0x5A then b + 0x20 else b

private theorem lowerByte_spec (b : UInt8) : lowerByte (lowerByte b) = lowerByte b ∧
    isAlphanumeric (lowerByte b) = isAlphanumeric b ∧
    ((0x30 ≤ lowerByte b && lowerByte b ≤ 0x39) = (0x30 ≤ b && b ≤ 0x39)) ∧
    schemeByte (lowerByte b) = schemeByte b := by
  revert b
  exact forall_byte (by decide +kernel)

theorem isScheme_lower (scheme : Bytes) :
    Reference.isScheme (lower scheme) = Reference.isScheme scheme := by
  cases scheme with
  | nil => rfl
  | cons first more =>
      obtain ⟨_, letter, digit, _⟩ := lowerByte_spec first
      have marks : (more.map lowerByte).all schemeByte = more.all schemeByte := by
        rw [List.all_map]
        congr 1
        funext b
        exact (lowerByte_spec b).2.2.2
      change (isAlphanumeric (lowerByte first) &&
        !(0x30 ≤ lowerByte first && lowerByte first ≤ 0x39) &&
          (more.map lowerByte).all schemeByte) = _
      rw [letter, digit, marks]
      rfl

theorem lower_lower (scheme : Bytes) : lower (lower scheme) = lower scheme := by
  rw [lower, lower, List.map_map]
  congr 1
  funext b
  exact (lowerByte_spec b).1

theorem head_of_getScheme_error {error : Error} (failed : getScheme text = .error error) :
    text.head? = some colon := by
  have whole := @List.takeWhile_append_dropWhile _ schemeByte text
  simp only [getScheme] at failed
  split at failed
  · rename_i b behind starts ends
    split_ifs at failed with marked
    change text.takeWhile schemeByte = [] at starts
    change text.dropWhile schemeByte = b :: behind at ends
    rw [← whole, starts, ends, marked]
    rfl
  · split_ifs at failed
  · cases failed

/-- Text without a colon in its first segment has no scheme. -/
theorem getScheme_of_segment (segment : colon ∉ (cut text slash).1) (query : Bytes) :
    getScheme (text ++ questionMark :: query) = .ok ([], text ++ questionMark :: query) := by
  have absent : ∀ {scheme behind : Bytes}, slash ∉ scheme → text ≠ scheme ++ colon :: behind := by
    rintro scheme behind unslashed rfl
    refine segment ?_
    rw [cut_append_of_notMem unslashed]
    exact List.mem_append_right _ List.mem_cons_self
  cases outcome : getScheme (text ++ questionMark :: query) with
  | error error =>
      have head := head_of_getScheme_error outcome
      rcases text with _ | ⟨b, behind⟩
      · exact absurd (Option.some.inj head) (by decide)
      · cases head
        exact absurd rfl (@absent [] behind (by simp))
  | ok found =>
      obtain ⟨scheme, rest⟩ := found
      rcases getScheme_eq_ok outcome with ⟨rfl, rfl⟩ | ⟨named, whole⟩
      · rfl
      · -- The colon stands before the query.
        have unslashed : slash ∉ scheme := Reference.notMem_of_isScheme named (by decide)
        have unmarked : questionMark ∉ scheme := Reference.notMem_of_isScheme named (by decide)
        rcases List.append_eq_append_iff.mp whole with ⟨more, is, behind⟩ | ⟨more, is, behind⟩
        · rcases more with _ | ⟨b, more⟩
          · exact absurd (List.cons.inj behind).1 (by decide)
          · obtain ⟨rfl, _⟩ := List.cons.inj behind
            exact absurd (is ▸ List.mem_append_right _ List.mem_cons_self) unmarked
        · rcases more with _ | ⟨b, more⟩
          · exact absurd (List.cons.inj behind).1 (by decide)
          · obtain ⟨rfl, _⟩ := List.cons.inj behind
            exact absurd is (absent unslashed)

theorem fragment_parseRest {parts : Reference}
    (parsed : Reference.parseRest strictColons ipLiteral scheme rest = .ok parts) :
    parts.fragment = [] := by
  unfold Reference.parseRest at parsed
  split_ifs at parsed
  · cases parsed
    rfl
  · obtain ⟨_, _, parsed⟩ := exists_of_bind_eq_ok parsed
    obtain ⟨_, _, parsed⟩ := exists_of_bind_eq_ok parsed
    cases parsed
    rfl
  · obtain ⟨_, _, parsed⟩ := exists_of_bind_eq_ok parsed
    cases parsed
    rfl

theorem segment_of_parseRest {parts : Reference}
    (parsed : Reference.parseRest strictColons ipLiteral [] rest = .ok parts) :
    colon ∉ (cut rest slash).1 := by
  unfold Reference.parseRest at parsed
  by_cases starts : rest.head? = some slash
  · rw [cut_slash_of_head starts]
    simp
  · intro member
    rw [if_neg (by simp), if_pos ⟨starts, by simpa using member⟩] at parsed
    cases parsed

/-- A scheme and what is behind it are read back, with a query put behind them. -/
theorem parseWithoutFragment_front {front query : Bytes} {parts : Reference}
    (named : scheme = [] ∨ Reference.isScheme scheme = true) (lowered : lower scheme = scheme)
    (written : front = schemeText scheme ++ text) (unmarked : Unmarked front)
    (nonempty : query ≠ []) (calm : query.any isControl = false)
    (parsed : Reference.parseRest strictColons ipLiteral scheme text = .ok parts) :
    Reference.parseWithoutFragment strictColons ipLiteral (front ++ questionMark :: query) =
      .ok { parts with forceQuery := false, rawQuery := query } := by
  have control : ¬ (front ++ questionMark :: query).any isControl = true := by
    rw [List.any_append, unmarked.any_isControl, List.any_cons, calm]
    decide
  have other : front ++ questionMark :: query ≠ ascii "*" := by
    intro star
    have member : questionMark ∈ ascii "*" := star ▸ List.mem_append_right _ List.mem_cons_self
    exact absurd member (by decide)
  have plain : questionMark ∉ text := fun member =>
    unmarked.questionMark_notMem (written ▸ List.mem_append_right _ member)
  have found : getScheme (front ++ questionMark :: query) =
      .ok (scheme, text ++ questionMark :: query) := by
    rw [written, schemeText]
    rcases named with rfl | named
    · exact getScheme_of_segment (segment_of_parseRest parsed) query
    · have nonempty : scheme ≠ [] := by
        rintro rfl
        cases named
      rw [if_neg nonempty, List.append_assoc, List.append_assoc]
      exact Reference.getScheme_append named _
  have split : Reference.cutQuery (text ++ questionMark :: query) = (text, false, query) := by
    rw [Reference.cutQuery_eq, cut_append_cons plain]
    simp [nonempty]
  rw [Reference.parseWithoutFragment, if_neg control, if_neg other, found]
  simp only [bind, Except.bind, split, lowered, parsed]
  rfl

theorem fragment_parseWithoutFragment {parts : Reference}
    (parsed : Reference.parseWithoutFragment strictColons ipLiteral text = .ok parts) :
    parts.fragment = [] := by
  unfold Reference.parseWithoutFragment at parsed
  split_ifs at parsed
  · cases parsed
    rfl
  · obtain ⟨_, _, parsed⟩ := exists_of_bind_eq_ok parsed
    obtain ⟨_, found, is⟩ := exists_of_bind_eq_ok parsed
    have unended := fragment_parseRest found
    cases is
    exact unended

theorem unescape_escapedFragment (url : RawURL) :
    unescape .fragment url.escapedFragment = .ok url.fragment := by
  unfold escapedFragment writtenOr
  split_ifs with written
  · exact written.2.2
  · exact unescape_escape_of_ne (by decide) _ _

include literals shown in
/-- What stands before the query of a URL is read back, whichever query is put behind it. -/
theorem parseWithoutFragment_reread {query : Bytes} (kept : url.PathKept)
    (nonempty : query ≠ []) (calm : query.any isControl = false) (plain : numberSign ∉ text)
    (parsed : parseWithoutFragment strictColons ipLiteral text = .ok url) :
    Reference.parseWithoutFragment strictColons ipLiteral (url.front ++ questionMark :: query) =
      .ok { url.toReference with forceQuery := false, rawQuery := query } := by
  have marks := kept_parseWithoutFragment plain parsed
  have unmarked := unmarked_front marks.scheme marks.opaquePart marks.rawPath
  unfold parseWithoutFragment at parsed
  split_ifs at parsed with control star
  · cases parsed
    subst star
    have written : ({ path := ascii "*" } : RawURL).front = schemeText [] ++ ascii "*" := by decide
    have path : Pathlike [] (ascii "*") := ⟨Or.inr rfl, by decide, by decide⟩
    exact parseWithoutFragment_front (Or.inl rfl) rfl written unmarked nonempty calm
      (Reference.parseRest_of_pathlike path rfl)
  · obtain ⟨⟨scheme, rest⟩, found, parsed⟩ := exists_of_bind_eq_ok parsed
    obtain ⟨result, behind, is⟩ := exists_of_bind_eq_ok parsed
    cases is
    have known : result.user ≠ some { username := [], password := some [] } := shown
    have keeps : result.PathKept := kept
    obtain ⟨text, written, again⟩ := parseRest_front literals known keeps behind
    have named : lower scheme = [] ∨ Reference.isScheme (lower scheme) = true := by
      rcases getScheme_eq_ok found with ⟨rfl, _⟩ | ⟨named, _⟩
      · exact Or.inl rfl
      · exact Or.inr (by rw [isScheme_lower, named])
    have whole := parseWithoutFragment_front named (lower_lower scheme) written unmarked nonempty
      calm again
    exact whole

include literals shown in
/-- A URL is read back from the text that `String` writes for it, whichever query is put in it. -/
theorem parse_string {query : Bytes} (kept : url.PathKept) (nonempty : query ≠ [])
    (calm : query.any isControl = false) (plain : numberSign ∉ query)
    (parsed : parse strictColons ipLiteral text = .ok url) :
    (parse strictColons ipLiteral (string { url with rawQuery := query })).map toReference =
      .ok { url.toReference with forceQuery := false, rawQuery := query } := by
  have marks := kept_parse parsed
  have parts := @cut_numberSign_string { url with rawQuery := query }
    ⟨marks.scheme, marks.opaquePart, marks.rawPath⟩ plain
  rw [if_pos (Or.inr nonempty)] at parts
  change cut _ numberSign = (url.front ++ questionMark :: query,
    if url.fragment ≠ [] then url.escapedFragment else []) at parts
  obtain ⟨result, found, ending⟩ := exists_of_bind_eq_ok parsed
  obtain ⟨fragment, rawFragment, rfl⟩ : ∃ fragment rawFragment,
      url = { result with fragment := fragment, rawFragment := rawFragment } := by
    split_ifs at ending
    · cases ending
      exact ⟨_, _, rfl⟩
    · obtain ⟨fragment, _, is⟩ := exists_of_bind_eq_ok ending
      cases is
      exact ⟨_, _, rfl⟩
  have known : result.user ≠ some { username := [], password := some [] } := shown
  have keeps : result.PathKept := kept
  have front := parseWithoutFragment_reread literals known keeps nonempty calm
    (notMem_cut text numberSign) found
  have unended := fragment_parseWithoutFragment front
  change result.fragment = [] at unended
  rw [parse_toReference, Reference.parse, parts]
  change (Reference.parseWithoutFragment strictColons ipLiteral
    (result.front ++ questionMark :: query) >>= _) = _
  rw [front]
  by_cases empty : fragment = []
  · subst empty
    simp only [ne_eq, not_true_eq_false, if_false, if_true, bind, Except.bind]
    rw [unended]
    rfl
  · have read := unescape_escapedFragment
      { result with fragment := fragment, rawFragment := rawFragment }
    have written : escapedFragment
        { result with fragment := fragment, rawFragment := rawFragment } ≠ [] := by
      intro nothing
      rw [nothing] at read
      cases read
      exact empty rfl
    simp only [ne_eq, empty, not_false_eq_true, if_true, bind, Except.bind, if_neg written, read]
    rfl

end RawURL

end Go.Url
