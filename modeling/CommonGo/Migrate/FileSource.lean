import CommonGo.Go.Filepath
import CommonGo.Go.Url

/-!
# Migrations from the file system

`newMigrator` hands a path of the file system to golang-migrate as a `file` URL, and the file source
takes the path out of the URL again.  In a URL, what stands between the slashes after the scheme and
the next slash is an authority, so that the first element of a relative path is parsed as one.
-/

namespace CommonGo.Migrate

open Go

/-- The URL that `newMigrator` makes of a path. -/
def migrationURL (path : Bytes) : Bytes :=
  Url.URL.string { scheme := ascii "file", path := path }

/-- What the file source makes of host and path, in a working directory. -/
def makeAbsolute (wd p : Bytes) : Bytes :=
  if p = [] then wd
  else if p.head? = some 0x2E ∨ p.head? ≠ some Filepath.slash then Filepath.abs wd p
  else p

section Source

variable (strictColons : Bool) (ipLiteral : Bytes → Except Url.Error Bytes)

/-- `parseURL` of the file source. -/
def parseURL (wd url : Bytes) : Except Url.Error Bytes := do
  let u ← Url.parse strictColons ipLiteral url
  return makeAbsolute wd (if u.opaquePart = [] then u.host ++ u.path else u.opaquePart)

/-- The path that `newMigrator` is given reaches the file source: the directory opened is the one
that the path denotes. -/
def Reaches {δ : Type} (tree : Filepath.Tree δ) (wd path : Bytes) (dir : δ) : Prop :=
  ∃ opened, parseURL strictColons ipLiteral wd (migrationURL path) = .ok opened ∧
    tree.denotes opened = some dir

end Source

/-! ## The round trip -/

/-- The first element of a path. -/
def firstElement (path : Bytes) : Bytes := path.takeWhile (· != Url.slash)

/-- The part of the first element that is parsed as a host: what stands after its last at sign. -/
def hostPart (path : Bytes) : Bytes := (firstElement path).rtakeWhile (· != Url.atSign)

/-- A path without what stands before the last at sign of its first element. -/
def withoutUser (path : Bytes) : Bytes := hostPart path ++ path.dropWhile (· != Url.slash)

/-- The first element is accepted as an authority; a path that is an asterisk is not escaped. -/
def AcceptsPath (strictColons : Bool) (path : Bytes) : Prop :=
  path = ascii "*" ∨ Url.acceptsHost strictColons (hostPart path) = true

theorem withoutUser_of_notMem {path : Bytes} (absent : Url.atSign ∉ firstElement path) :
    withoutUser path = path := by
  have whole : hostPart path = firstElement path := by
    rw [hostPart, List.rtakeWhile_eq_self_iff]
    exact Url.bne_of_notMem absent
  rw [withoutUser, whole]
  exact List.takeWhile_append_dropWhile

theorem migrationURL_eq {path : Bytes} (nonempty : path ≠ []) :
    migrationURL path = ascii "file://" ++ Url.escapedPath path := by
  have named : ascii "file" ≠ [] := by decide
  have front : ascii "file" ++ [Url.colon] ++ ascii "//" ++ Url.escape [] .host ≠ [] := by decide
  simp only [migrationURL, Url.URL.string, named, if_false, ne_eq, not_true, nonempty,
    not_false_eq_true, and_self, or_true, if_true, and_false, front, false_and, List.append_nil]
  rfl

section Source

variable {strictColons : Bool} {ipLiteral : Bytes → Except Url.Error Bytes} {wd path : Bytes}

/-- The path that is an asterisk is parsed as a host, too, but as one that is not escaped. -/
theorem parseURL_asterisk :
    parseURL strictColons ipLiteral wd (migrationURL (ascii "*")) =
      .ok (makeAbsolute wd (ascii "*")) := by
  rw [migrationURL_eq (by decide)]
  rfl

theorem parseURL_eq (nonempty : path ≠ []) (plain : path ≠ ascii "*") :
    parseURL strictColons ipLiteral wd (migrationURL path) =
      (Url.parseHost strictColons ipLiteral (Url.escape (hostPart path) .path)).map
        fun host => makeAbsolute wd (host ++ path.dropWhile (· != Url.slash)) := by
  rw [migrationURL_eq nonempty, Url.escapedPath, if_neg plain, parseURL, Url.parse_file, hostPart,
    firstElement]
  cases Url.parseHost strictColons ipLiteral _ <;> rfl

/-- What the file source opens for a path that is accepted. -/
theorem parseURL_of_accepts (nonempty : path ≠ []) (accepted : AcceptsPath strictColons path) :
    parseURL strictColons ipLiteral wd (migrationURL path) =
      .ok (makeAbsolute wd (withoutUser path)) := by
  by_cases plain : path = ascii "*"
  · subst plain
    exact parseURL_asterisk
  · rw [parseURL_eq nonempty plain, Url.parseHost_escape _ _ (accepted.resolve_left plain)]
    rfl

theorem parseURL_of_refused (nonempty : path ≠ []) (refused : ¬ AcceptsPath strictColons path) :
    ∃ error, parseURL strictColons ipLiteral wd (migrationURL path) = .error error := by
  rw [AcceptsPath, not_or, Bool.not_eq_true] at refused
  obtain ⟨error, failed⟩ := Url.parseHost_escape_error strictColons ipLiteral refused.2
  refine ⟨error, ?_⟩
  rw [parseURL_eq nonempty refused.1, failed]
  rfl

/-- An absolute path has an empty authority. -/
theorem accepts_of_absolute (absolute : path.head? = some Filepath.slash) :
    AcceptsPath strictColons path ∧ makeAbsolute wd (withoutUser path) = path := by
  obtain ⟨rest, rfl⟩ := List.head?_eq_some_iff.mp absolute
  refine ⟨Or.inr (by cases strictColons <;> rfl), ?_⟩
  have whole : withoutUser (Filepath.slash :: rest) = Filepath.slash :: rest :=
    withoutUser_of_notMem (by simp [firstElement, Filepath.slash, Url.slash])
  rw [whole]
  simp [makeAbsolute, Filepath.slash]

theorem makeAbsolute_of_relative (nonempty : path ≠ [])
    (relative : path.head? ≠ some Filepath.slash) :
    makeAbsolute wd path = Filepath.abs wd path := by
  rw [makeAbsolute, if_neg nonempty, if_pos (Or.inr relative)]

section Tree

variable {δ : Type} {tree : Filepath.Tree δ} {dir : δ}

theorem reaches_iff_accepts (nonempty : path ≠ []) :
    Reaches strictColons ipLiteral tree wd path dir ↔
      AcceptsPath strictColons path ∧
        tree.denotes (makeAbsolute wd (withoutUser path)) = some dir := by
  constructor
  · rintro ⟨opened, parsed, found⟩
    by_cases accepted : AcceptsPath strictColons path
    · rw [parseURL_of_accepts nonempty accepted] at parsed
      cases parsed
      exact ⟨accepted, found⟩
    · obtain ⟨error, failed⟩ := parseURL_of_refused nonempty accepted
      rw [failed] at parsed
      cases parsed
  · rintro ⟨accepted, found⟩
    exact ⟨_, parseURL_of_accepts nonempty accepted, found⟩

/-- A path reaches the file source exactly if it is absolute, or if its first element is accepted
as an authority and either has no at sign and cleaning the path keeps the directory it denotes, or
has one and the path without what stands before it happens to denote the same directory. -/
theorem reaches_iff (nonempty : path ≠ []) (found : tree.stat wd path = some dir) :
    Reaches strictColons ipLiteral tree wd path dir ↔
      path.head? = some Filepath.slash ∨
        (AcceptsPath strictColons path ∧ Url.atSign ∉ firstElement path ∧
          tree.denotes (Filepath.abs wd path) = some dir) ∨
        (AcceptsPath strictColons path ∧ Url.atSign ∈ firstElement path ∧
          tree.denotes (makeAbsolute wd (withoutUser path)) = some dir) := by
  rw [reaches_iff_accepts nonempty]
  by_cases absolute : path.head? = some Filepath.slash
  · obtain ⟨accepted, whole⟩ := accepts_of_absolute absolute
    rw [Filepath.Tree.stat, if_pos absolute] at found
    rw [whole]
    exact iff_of_true ⟨accepted, found⟩ (Or.inl absolute)
  · by_cases user : Url.atSign ∈ firstElement path
    · simp [absolute, user]
    · have whole := withoutUser_of_notMem user
      simp [absolute, user, whole, makeAbsolute_of_relative nonempty absolute]

/-- Without links, and without an at sign in the first element, it is only the bytes of the first
element that matter. -/
theorem reaches_iff_of_linkFree (linkFree : tree.LinkFree) (nonempty : path ≠ [])
    (rooted : wd.head? = some Filepath.slash) (plain : Url.atSign ∉ firstElement path)
    (found : tree.stat wd path = some dir) :
    Reaches strictColons ipLiteral tree wd path dir ↔
      path.head? = some Filepath.slash ∨ AcceptsPath strictColons path := by
  rw [reaches_iff_accepts nonempty, withoutUser_of_notMem plain]
  by_cases absolute : path.head? = some Filepath.slash
  · obtain ⟨accepted, whole⟩ := @accepts_of_absolute strictColons wd path absolute
    rw [withoutUser_of_notMem plain] at whole
    rw [Filepath.Tree.stat, if_pos absolute] at found
    rw [whole]
    exact iff_of_true ⟨accepted, found⟩ (Or.inl absolute)
  · rw [Filepath.Tree.stat, if_neg absolute] at found
    have under : (wd ++ Filepath.slash :: path).head? = some Filepath.slash := by
      simp [List.head?_append, rooted]
    have kept := linkFree.denotes_clean under found
    simp [absolute, makeAbsolute_of_relative nonempty absolute, Filepath.abs, kept]

end Tree

end Source

/-- A file system in which every name is a directory. -/
def everyName : Filepath.Tree (List Bytes) where
  root := []
  enter place name :=
    some (if name = Filepath.dot then place
      else if name = Filepath.dotDot then place.dropLast
      else place ++ [name])

/-- No host in brackets is accepted. -/
def noLiteral (host : Bytes) : Except Url.Error Bytes := .error (.ipLiteral host)

/-- A relative path with nothing to escape in its first element. -/
theorem reaches_relative :
    let place := [ascii "srv", ascii "db", ascii "my migrations"]
    everyName.stat (ascii "/srv") (ascii "db/my migrations") = some place ∧
      Reaches true noLiteral everyName (ascii "/srv") (ascii "db/my migrations") place := by
  have found : everyName.stat (ascii "/srv") (ascii "db/my migrations") =
      some [ascii "srv", ascii "db", ascii "my migrations"] := by decide +kernel
  refine ⟨found, (reaches_iff (by decide) found).mpr (Or.inr (Or.inl ⟨Or.inr ?_, ?_, ?_⟩))⟩ <;>
    decide +kernel

/-- An at sign leads to another directory, and a blank in the first element to an error. -/
theorem relative_paths_lost :
    (everyName.stat (ascii "/srv") (ascii "db@v2/up") =
        some [ascii "srv", ascii "db@v2", ascii "up"] ∧
      parseURL true noLiteral (ascii "/srv") (migrationURL (ascii "db@v2/up")) =
        .ok (ascii "/srv/v2/up") ∧
      ¬ Reaches true noLiteral everyName (ascii "/srv") (ascii "db@v2/up")
        [ascii "srv", ascii "db@v2", ascii "up"]) ∧
    everyName.stat (ascii "/srv") (ascii "my migrations") =
        some [ascii "srv", ascii "my migrations"] ∧
      parseURL true noLiteral (ascii "/srv") (migrationURL (ascii "my migrations")) =
        .error (.escape (ascii "%20")) ∧
      ¬ Reaches true noLiteral everyName (ascii "/srv") (ascii "my migrations")
        [ascii "srv", ascii "my migrations"] := by
  have other : parseURL true noLiteral (ascii "/srv") (migrationURL (ascii "db@v2/up")) =
      .ok (ascii "/srv/v2/up") := by decide +kernel
  have failed : parseURL true noLiteral (ascii "/srv") (migrationURL (ascii "my migrations")) =
      .error (.escape (ascii "%20")) := by decide +kernel
  refine ⟨⟨by decide +kernel, other, ?_⟩, by decide +kernel, failed, ?_⟩
  · rintro ⟨opened, parsed, found⟩
    rw [other] at parsed
    cases parsed
    revert found
    decide +kernel
  · rintro ⟨opened, parsed, _⟩
    rw [failed] at parsed
    cases parsed

end CommonGo.Migrate
