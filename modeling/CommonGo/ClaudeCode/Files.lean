import CommonGo.CtxErrors
import CommonGo.Go.Reference

/-!
# Files of a Claude Code instance

The client writes the path of a file behind its base URL without escaping it.  What is read back is
the path exactly if it has no character with a meaning in a URL.  Other paths are cut or decoded,
and a fragment is not even sent, so that an operation may act on another file.
-/

namespace CommonGo.ClaudeCode

open Go Go.Url

variable {ε : Type}

/-! ## The client -/

/-- `Client`. -/
structure Client where
  /-- The address of the server, without a slash at its end. -/
  baseURL : Bytes
  /-- The bearer token, or nothing. -/
  token : Bytes
  /-- The timeout of the HTTP client, in nanoseconds. -/
  timeout : Int
  deriving DecidableEq, Repr

/-- The values of type `Option`. -/
inductive Setting where
  | withToken (token : Bytes)
  | withTimeout (d : Int)
  deriving DecidableEq, Repr

/-- What an option does to the client. -/
def Setting.apply (c : Client) : Setting → Client
  | .withToken token => { c with token := token }
  | .withTimeout d => { c with timeout := d }

/-- `defaultTimeout`, in nanoseconds. -/
def defaultTimeout : Int := 5 * 60 * 1000000000

/-- `New`. -/
def new (baseURL : Bytes) (opts : List Setting) : Client :=
  opts.foldl Setting.apply
    { baseURL := trimRightByte baseURL slash, token := [], timeout := defaultTimeout }

/-- `Client.filesURL`. -/
def Client.filesURL (c : Client) (path : Bytes) : Bytes :=
  let path := trimLeftByte path slash
  c.baseURL ++ ascii "/files/" ++ path

/-- No option changes the base URL. -/
theorem foldl_apply_baseURL (opts : List Setting) (c : Client) :
    (opts.foldl Setting.apply c).baseURL = c.baseURL := by
  induction opts generalizing c with
  | nil => rfl
  | cons opt opts ih =>
      rw [List.foldl_cons, ih]
      cases opt <;> rfl

/-! ## Requests -/

/-- The methods of the requests. -/
inductive Method where
  | put
  | get
  | delete
  deriving DecidableEq, Repr

/-- `http.Request`, as far as it is set. -/
structure Request where
  /-- The method. -/
  method : Method
  /-- The URL as it was parsed. -/
  url : Reference
  /-- The text of the URL, of which `RawPath` is a part. -/
  text : Bytes
  /-- The header fields. -/
  header : List (String × Bytes)
  /-- The body, if there is one. -/
  body : Option Bytes
  deriving DecidableEq, Repr

/-- The host without a colon that has no port behind it. -/
def removeEmptyPort (host : Bytes) : Bytes :=
  if (host.rtakeWhile (· != 0x5D)).contains colon ∧ host.getLast? = some colon then host.dropLast
  else host

/-- `http.NewRequestWithContext` for a context that is not nil. -/
def newRequest (strictColons : Bool) (ipLiteral : Bytes → Except Url.Error Bytes)
    (method : Method) (url : Bytes) (body : Option Bytes) : Except Url.Error Request := do
  let u ← Reference.parse strictColons ipLiteral url
  return {
    method := method, url := { u with host := removeEmptyPort u.host }, text := url
    header := [], body := body }

/-- `Header.Set`. -/
def Request.setHeader (request : Request) (key : String) (value : Bytes) : Request :=
  { request with header := (key, value) :: request.header.filter (·.1 ≠ key) }

/-- `Client.setHeaders`. -/
def Client.setHeaders (c : Client) (request : Request) : Request :=
  let request := request.setHeader "Content-Type" (ascii "application/json")
  if c.token ≠ [] then request.setHeader "Authorization" (ascii "Bearer " ++ c.token) else request

/-- What is left of a request when it is sent: the fragment of the URL is not. -/
def Request.sent (request : Request) : Request :=
  { request with
    url := { request.url with fragment := [] }
    text := (cut request.text numberSign).1 }

/-! ## Operations on files -/

/-- `FileInfo`. -/
structure FileInfo where
  /-- The field `status`. -/
  status : Bytes
  /-- The field `path`. -/
  path : Bytes
  /-- The field `size`. -/
  size : Int
  deriving DecidableEq, Repr

/-- The response of a server. -/
structure Response (ε : Type) where
  /-- The status code. -/
  statusCode : Nat
  /-- What the JSON decoder finds in the body. -/
  info : Except ε FileInfo
  /-- What `io.ReadAll` reads of the body. -/
  data : Except ε Bytes

/-- Errors of parsing a URL, errors from elsewhere, and new ones. -/
inductive Cause (ε : Type) where
  | url (err : Url.Error)
  | other (err : ε)
  | new (text : Bytes)
  deriving DecidableEq, Repr

/-- The operations on one file. -/
inductive Operation where
  | upload (content : Bytes)
  | download
  | delete
  deriving DecidableEq, Repr

/-- The method of an operation. -/
def Operation.method : Operation → Method
  | .upload _ => .put
  | .download => .get
  | .delete => .delete

/-- The body that an operation sends. -/
def Operation.body : Operation → Option Bytes
  | .upload content => some content
  | .download | .delete => none

/-- `ctxerrors.Wrap` around an error that is returned. -/
def wrapping {ι α : Type} (cause : ι → Cause ε) (message : String) (result : Except ι α) :
    Except (Error (Cause ε)) α :=
  result.mapError fun err => .wrapped message (.base (cause err))

section Operations

variable (strictColons : Bool) (ipLiteral : Bytes → Except Url.Error Bytes)

/-- The request of an operation. -/
def Client.request (c : Client) (operation : Operation) (filePath : Bytes) :
    Except Url.Error Request := do
  let req ← newRequest strictColons ipLiteral operation.method (c.filesURL filePath) operation.body
  return c.setHeaders req

variable (send : Request → Except ε (Response ε))

/-- The part that the operations share: a request is created and sent. -/
def Client.exchange (c : Client) (operation : Operation) (filePath : Bytes)
    (create act : String) : Except (Error (Cause ε)) (Response ε) := do
  let req ← wrapping .url create (c.request strictColons ipLiteral operation filePath)
  wrapping .other act (send req.sent)

/-- `Client.UploadFile`. -/
def Client.uploadFile (c : Client) (filePath content : Bytes) :
    Except (Error (Cause ε)) FileInfo := do
  let resp ← c.exchange strictColons ipLiteral send (.upload content) filePath
    "create upload request" "upload file"
  if resp.statusCode ≠ 200 then
    throw (.base (.new (ascii ("upload failed: HTTP " ++ toString resp.statusCode))))
  else wrapping .other "decode upload response" resp.info

/-- `Client.DownloadFile`. -/
def Client.downloadFile (c : Client) (filePath : Bytes) : Except (Error (Cause ε)) Bytes := do
  let resp ← c.exchange strictColons ipLiteral send .download filePath
    "create download request" "download file"
  if resp.statusCode = 404 then
    throw (.base (.new (ascii "file not found: " ++ filePath)))
  else if resp.statusCode ≠ 200 then
    throw (.base (.new (ascii ("download failed: HTTP " ++ toString resp.statusCode))))
  else wrapping .other "read file body" resp.data

/-- `Client.DeleteFile`. -/
def Client.deleteFile (c : Client) (filePath : Bytes) : Except (Error (Cause ε)) Unit := do
  let resp ← c.exchange strictColons ipLiteral send .delete filePath
    "create delete request" "delete file"
  if resp.statusCode ≠ 200 then
    throw (.base (.new (ascii ("delete failed: HTTP " ++ toString resp.statusCode))))
  else return ()

variable {strictColons ipLiteral send}

/-- The request of an operation is made of the URL that its text is read as. -/
theorem exists_of_request {c : Client} {operation : Operation} {filePath : Bytes}
    {request : Request}
    (created : c.request strictColons ipLiteral operation filePath = .ok request) :
    ∃ url, Reference.parse strictColons ipLiteral (c.filesURL filePath) = .ok url ∧
      request = c.setHeaders {
        method := operation.method, url := { url with host := removeEmptyPort url.host }
        text := c.filesURL filePath, header := [], body := operation.body } := by
  obtain ⟨req, made, headed⟩ := exists_of_bind_eq_ok created
  obtain ⟨url, parsed, made⟩ := exists_of_bind_eq_ok made
  cases made
  cases headed
  exact ⟨url, parsed, rfl⟩

theorem setHeaders_fields (c : Client) (request : Request) :
    (c.setHeaders request).method = request.method ∧ (c.setHeaders request).url = request.url ∧
      (c.setHeaders request).body = request.body := by
  rw [Client.setHeaders]
  split_ifs
  · exact ⟨rfl, rfl, rfl⟩
  · exact ⟨rfl, rfl, rfl⟩

theorem sent_setHeaders (c : Client) (request : Request) :
    (c.setHeaders request).sent = c.setHeaders request.sent := by
  rw [Client.setHeaders, Client.setHeaders]
  split_ifs
  · rfl
  · rfl

theorem sent_sent (request : Request) : request.sent.sent = request.sent := by
  simp only [Request.sent, cut_cut]

theorem wrapping_eq_ok_iff {ι α : Type} {cause : ι → Cause ε} {message : String}
    {result : Except ι α} {value : α} :
    wrapping cause message result = .ok value ↔ result = .ok value := by
  cases result with
  | error error => simp [wrapping, Except.mapError]
  | ok found => simp [wrapping, Except.mapError]

/-- The server sees what is sent, and nothing else of a request. -/
theorem exchange_of_request {c : Client} {operation : Operation} {filePath : Bytes}
    {request : Request}
    (created : c.request strictColons ipLiteral operation filePath = .ok request)
    (create act : String) :
    c.exchange strictColons ipLiteral send operation filePath create act =
      wrapping .other act (send request.sent) := by
  rw [Client.exchange, created]
  rfl

theorem exists_of_exchange {c : Client} {operation : Operation} {filePath : Bytes}
    {create act : String} {α : Type} {next : Response ε → Except (Error (Cause ε)) α} {result : α}
    (done : c.exchange strictColons ipLiteral send operation filePath create act >>= next =
      .ok result) :
    ∃ request resp, c.request strictColons ipLiteral operation filePath = .ok request ∧
      send request.sent = .ok resp ∧ next resp = .ok result := by
  obtain ⟨resp, exchanged, done⟩ := exists_of_bind_eq_ok done
  obtain ⟨request, created, sent⟩ := exists_of_bind_eq_ok exchanged
  exact ⟨request, resp, wrapping_eq_ok_iff.mp created, wrapping_eq_ok_iff.mp sent, done⟩

end Operations

/-! ## The URL of a file -/

/-- No byte has a meaning of its own in a URL. -/
def Plain (path : Bytes) : Prop :=
  questionMark ∉ path ∧ numberSign ∉ path ∧ percent ∉ path

instance (path : Bytes) : Decidable (Plain path) :=
  inferInstanceAs (Decidable (questionMark ∉ path ∧ numberSign ∉ path ∧ percent ∉ path))

/-- A base URL: a scheme, a host and a path that may be empty. -/
structure BaseURL where
  /-- The scheme. -/
  scheme : Bytes
  /-- The host, with its port. -/
  host : Bytes
  /-- The path. -/
  path : Bytes
  /-- The scheme is one. -/
  named : Reference.isScheme scheme = true
  /-- There is a host. -/
  hosted : host ≠ []
  /-- The host does not end early. -/
  inside : ∀ b ∈ host, Reference.authorityByte b = true
  /-- The path is empty or begins with a slash. -/
  rooted : Reference.Rooted path
  /-- The path has no byte that is read as something else. -/
  plain : Plain path

namespace BaseURL

variable (base : BaseURL)

/-- The base URL as it is given to `New`. -/
def text : Bytes := base.scheme ++ ascii "://" ++ (base.host ++ base.path)

/-- What stands in front of the name of a file. -/
def directory : Bytes := trimRightByte base.path slash ++ ascii "/files/"

theorem filesURL_eq (opts : List Setting) (filePath : Bytes) :
    (new base.text opts).filesURL filePath =
      base.scheme ++ ascii "://" ++
        (base.host ++ (base.directory ++ trimLeftByte filePath slash)) := by
  have noSlash : slash ∉ base.host := notMem_of_forall base.inside (by decide)
  have other : (base.scheme ++ ascii "://" ++ base.host).getLast? ≠ some slash := by
    rw [List.getLast?_append_of_ne_nil _ base.hosted]
    exact fun last => noSlash (List.mem_of_getLast? last)
  rw [Client.filesURL, new, foldl_apply_baseURL, text, ← List.append_assoc,
    trimRightByte_append other]
  simp only [directory, List.append_assoc]

theorem plain_directory : Plain base.directory := by
  have absent : ∀ b, b ∉ base.path → b ∉ ascii "/files/" → b ∉ base.directory := by
    intro b notPath notFiles
    rw [directory, List.mem_append, not_or]
    refine ⟨fun member => notPath ?_, notFiles⟩
    exact (List.rdropWhile_prefix (· == slash) base.path).subset member
  obtain ⟨marked, numbered, escaped⟩ := base.plain
  exact ⟨absent _ marked (by decide), absent _ numbered (by decide), absent _ escaped (by decide)⟩

theorem rooted_directory (name : Bytes) : Reference.Rooted (base.directory ++ name) := by
  right
  cases trimmed : trimRightByte base.path slash with
  | nil =>
      rw [directory, trimmed]
      rfl
  | cons b rest =>
      obtain ⟨behind, path⟩ := List.rdropWhile_prefix (· == slash) base.path
      rw [← trimRightByte, trimmed] at path
      rw [directory, trimmed]
      rcases base.rooted with empty | starts
      · rw [empty] at path
        cases path
      · rw [← path] at starts
        exact starts

end BaseURL

/-- The URL is that of the named file, and has nothing behind its path. -/
def Addresses (base : BaseURL) (filePath : Bytes) (url : Reference) : Prop :=
  url.path = trimRightByte base.path slash ++ ascii "/files/" ++ trimLeftByte filePath slash ∧
    url.forceQuery = false ∧ url.rawQuery = [] ∧ url.fragment = []

/-- The URLs agree in all that is sent to a server. -/
def SameResource (url other : Reference) : Prop :=
  url.scheme = other.scheme ∧ url.host = other.host ∧ url.path = other.path ∧
    url.forceQuery = other.forceQuery ∧ url.rawQuery = other.rawQuery

section Addresses

variable {strictColons : Bool} {ipLiteral : Bytes → Except Url.Error Bytes} {base : BaseURL}

/-- Behind the directory, the name of a file is read as any path is. -/
theorem path_of_parse {name : Bytes} {url : Reference}
    (parsed : Reference.parse strictColons ipLiteral
      (base.scheme ++ ascii "://" ++ (base.host ++ (base.directory ++ name))) = .ok url) :
    ∃ found, unescape .path (Reference.hierarchy name) = .ok found ∧
      url.path = base.directory ++ found := by
  obtain ⟨marked, numbered, escaped⟩ := base.plain_directory
  have path := ((Reference.parse_absolute_eq_ok_iff base.named).mp parsed).2.2.1
  rw [Reference.dropWhile_hierarchy base.inside (base.rooted_directory name),
    Reference.hierarchy_append marked numbered,
    unescape_append (literal_of_notMem (by decide) escaped)] at path
  exact exists_of_map_eq_ok path

/-- A name without a question mark or a number sign has nothing behind it. -/
theorem ends_of_parse {name : Bytes} {url : Reference} (plain : Plain name)
    (parsed : Reference.parse strictColons ipLiteral
      (base.scheme ++ ascii "://" ++ (base.host ++ (base.directory ++ name))) = .ok url) :
    url.forceQuery = false ∧ url.rawQuery = [] ∧ url.fragment = [] := by
  have absent : ∀ b, Reference.authorityByte b = false → b ∉ base.directory → b ∉ name →
      b ∉ base.host ++ (base.directory ++ name) := by
    intro b ends notDirectory notName
    simp only [List.mem_append, not_or]
    exact ⟨notMem_of_forall base.inside ends, notDirectory, notName⟩
  have numbered := absent numberSign (by decide) base.plain_directory.2.1 plain.2.1
  have marked := absent questionMark (by decide) base.plain_directory.1 plain.1
  obtain ⟨-, -, -, fragment, force, query, -⟩ :=
    (Reference.parse_absolute_eq_ok_iff base.named).mp parsed
  rw [cut_of_notMem numbered] at fragment force query
  rw [Reference.cutQuery_eq, cut_of_notMem marked] at force query
  refine ⟨?_, query, ?_⟩
  · simpa [marked] using force
  · exact (Except.ok.inj fragment).symm

theorem addresses_iff_plain {opts : List Setting} {operation : Operation} {filePath : Bytes}
    {request : Request}
    (created : (new base.text opts).request strictColons ipLiteral operation filePath =
      .ok request) :
    Addresses base filePath request.url ↔ Plain (trimLeftByte filePath slash) := by
  obtain ⟨url, parsed, rfl⟩ := exists_of_request created
  rw [base.filesURL_eq] at parsed
  rw [(setHeaders_fields _ _).2.1]
  obtain ⟨found, read, path⟩ := path_of_parse parsed
  constructor
  · rintro ⟨same, _⟩
    rw [← BaseURL.directory] at same
    rw [List.append_cancel_left (path.symm.trans same)] at read
    exact (Reference.unescape_hierarchy_iff _).mp read
  · intro plain
    have ends := ends_of_parse plain parsed
    have whole := (Reference.unescape_hierarchy_iff _).mpr plain
    cases read.symm.trans whole
    exact ⟨path, ends⟩

/-- What stands behind a number sign is not sent. -/
theorem request_cut {opts : List Setting} {operation : Operation} {filePath : Bytes}
    {request : Request}
    (created : (new base.text opts).request strictColons ipLiteral operation filePath =
      .ok request) :
    (new base.text opts).request strictColons ipLiteral operation (cut filePath numberSign).1 =
      .ok request.sent := by
  obtain ⟨url, parsed, rfl⟩ := exists_of_request created
  have noNumber : numberSign ∉ base.host := notMem_of_forall base.inside (by decide)
  have text : (new base.text opts).filesURL (cut filePath numberSign).1 =
      (cut ((new base.text opts).filesURL filePath) numberSign).1 := by
    have scheme : numberSign ∉ base.scheme ++ ascii "://" := by
      rw [List.mem_append, not_or]
      exact ⟨Reference.notMem_of_isScheme base.named (by decide), by decide⟩
    rw [base.filesURL_eq, base.filesURL_eq, cut_append_of_notMem scheme,
      cut_append_of_notMem noNumber, cut_append_of_notMem base.plain_directory.2.1,
      cut_trimLeftByte (by decide)]
  have short : Reference.parse strictColons ipLiteral
      ((new base.text opts).filesURL (cut filePath numberSign).1) =
        .ok { url with fragment := [] } := by
    rw [base.filesURL_eq] at parsed ⊢
    have without := Reference.parse_cut base.named parsed
    rw [cut_append_of_notMem noNumber, cut_append_of_notMem base.plain_directory.2.1,
      cut_trimLeftByte (by decide)] at without
    exact without
  rw [sent_setHeaders, Client.request, newRequest, short, text]
  rfl

/-- An operation acts on the file whose path ends at the number sign, whatever the server does. -/
theorem exchange_cut {opts : List Setting} {operation : Operation} {filePath : Bytes}
    {request : Request} (send : Request → Except ε (Response ε))
    (created : (new base.text opts).request strictColons ipLiteral operation filePath =
      .ok request) (create act : String) :
    (new base.text opts).exchange strictColons ipLiteral send operation filePath create act =
      (new base.text opts).exchange strictColons ipLiteral send operation
        (cut filePath numberSign).1 create act := by
  rw [exchange_of_request created, exchange_of_request (request_cut created), sent_sent]

/-- What a server gets for an operation on a file. -/
structure Names (base : BaseURL) (operation : Operation) (filePath : Bytes) (sent : Request) :
    Prop where
  /-- The method is that of the operation. -/
  method : sent.method = operation.method
  /-- The body is what the operation sends. -/
  body : sent.body = operation.body
  /-- The URL leads to the file. -/
  addressed : Addresses base filePath sent.url

theorem names_sent {opts : List Setting} {operation : Operation} {filePath : Bytes}
    {request : Request} (plain : Plain (trimLeftByte filePath slash))
    (created : (new base.text opts).request strictColons ipLiteral operation filePath =
      .ok request) :
    Names base operation filePath request.sent := by
  obtain ⟨path, force, query, _⟩ := (addresses_iff_plain created).mpr plain
  obtain ⟨url, -, rfl⟩ := exists_of_request created
  obtain ⟨method, -, body⟩ := setHeaders_fields (new base.text opts) {
    method := operation.method, url := { url with host := removeEmptyPort url.host }
    text := (new base.text opts).filesURL filePath, header := [], body := operation.body }
  exact ⟨method, body, path, force, query, rfl⟩

section Results

variable {send : Request → Except ε (Response ε)} {opts : List Setting} {filePath : Bytes}

/-- A file that has been uploaded has been put where its path says. -/
theorem uploadFile_names {content : Bytes} {info : FileInfo}
    (plain : Plain (trimLeftByte filePath slash))
    (done : (new base.text opts).uploadFile strictColons ipLiteral send filePath content =
      .ok info) :
    ∃ sent resp, Names base (.upload content) filePath sent ∧ send sent = .ok resp ∧
      resp.statusCode = 200 ∧ resp.info = .ok info := by
  obtain ⟨request, resp, created, answer, rest⟩ := exists_of_exchange done
  split_ifs at rest with status
  exact ⟨_, resp, names_sent plain created, answer, not_not.mp status, wrapping_eq_ok_iff.mp rest⟩

theorem downloadFile_names {data : Bytes} (plain : Plain (trimLeftByte filePath slash))
    (done : (new base.text opts).downloadFile strictColons ipLiteral send filePath = .ok data) :
    ∃ sent resp, Names base .download filePath sent ∧ send sent = .ok resp ∧
      resp.statusCode = 200 ∧ resp.data = .ok data := by
  obtain ⟨request, resp, created, answer, rest⟩ := exists_of_exchange done
  split_ifs at rest with missing status
  exact ⟨_, resp, names_sent plain created, answer, not_not.mp status, wrapping_eq_ok_iff.mp rest⟩

theorem deleteFile_names (plain : Plain (trimLeftByte filePath slash))
    (done : (new base.text opts).deleteFile strictColons ipLiteral send filePath = .ok ()) :
    ∃ sent resp, Names base .delete filePath sent ∧ send sent = .ok resp ∧
      resp.statusCode = 200 := by
  obtain ⟨request, resp, created, answer, rest⟩ := exists_of_exchange done
  split_ifs at rest with status
  exact ⟨_, resp, names_sent plain created, answer, not_not.mp status⟩

end Results

/-- An operation addresses the named file exactly if no byte of its path has a meaning of its own in
a URL.  Different files of that kind are different resources. -/
theorem files_addressed {opts : List Setting} {operation : Operation} {filePath : Bytes}
    {request : Request}
    (created : (new base.text opts).request strictColons ipLiteral operation filePath =
      .ok request) :
    (Addresses base filePath request.url ↔ Plain (trimLeftByte filePath slash)) ∧
      ∀ otherOperation otherPath other,
        (new base.text opts).request strictColons ipLiteral otherOperation otherPath = .ok other →
        Plain (trimLeftByte filePath slash) → Plain (trimLeftByte otherPath slash) →
        SameResource request.url other.url →
        trimLeftByte filePath slash = trimLeftByte otherPath slash := by
  refine ⟨addresses_iff_plain created, ?_⟩
  intro otherOperation otherPath other otherCreated plain otherPlain same
  have path := ((addresses_iff_plain created).mpr plain).1
  have otherPathSent := ((addresses_iff_plain otherCreated).mpr otherPlain).1
  rw [same.2.2.1] at path
  exact List.append_cancel_left (path.symm.trans otherPathSent)

end Addresses

/-- The base URL `http://localhost:8080/api/`. -/
def localInstance : BaseURL where
  scheme := ascii "http"
  host := ascii "localhost:8080"
  path := ascii "/api/"
  named := by decide
  hosted := by decide
  inside := List.all_eq_true.mp rfl
  rooted := Or.inr rfl
  plain := by decide

/-- The request to upload `my-project/config.yaml`. -/
def configUpload : Request where
  method := .put
  url :=
    { scheme := ascii "http"
      host := ascii "localhost:8080"
      path := ascii "/api/files/my-project/config.yaml" }
  text := ascii "http://localhost:8080/api/files/my-project/config.yaml"
  header := [("Content-Type", ascii "application/json")]
  body := some (ascii "a: 1")

theorem files_addressed_config :
    Addresses localInstance (ascii "/my-project/config.yaml") configUpload.url :=
  ((@files_addressed true .ok localInstance [] (.upload (ascii "a: 1"))
    (ascii "/my-project/config.yaml") configUpload (by decide +kernel)).1).mpr (by decide)

/-- The request to delete a file whose name has a number sign in it. -/
def reportDelete (behind : Bytes) : Request where
  method := .delete
  url :=
    { scheme := ascii "http"
      host := ascii "localhost:8080"
      path := ascii "/api/files/report"
      fragment := behind }
  text := ascii "http://localhost:8080/api/files/report#" ++ behind
  header := [("Content-Type", ascii "application/json")]
  body := none

/-- The number sign and what follows it are lost: to a server the two files are one. -/
theorem numberSign_conflates :
    (new localInstance.text []).request true .ok .delete (ascii "report#1") =
        .ok (reportDelete (ascii "1")) ∧
      (new localInstance.text []).request true .ok .delete (ascii "report#2") =
        .ok (reportDelete (ascii "2")) ∧
      ¬ Addresses localInstance (ascii "report#1") (reportDelete (ascii "1")).url ∧
      SameResource (reportDelete (ascii "1")).url (reportDelete (ascii "2")).url ∧
      trimLeftByte (ascii "report#1") slash ≠ trimLeftByte (ascii "report#2") slash ∧
      ∀ (ε : Type) (send : Request → Except ε (Response ε)),
        (new localInstance.text []).deleteFile true .ok send (ascii "report#1") =
          (new localInstance.text []).deleteFile true .ok send (ascii "report#2") := by
  have first : (new localInstance.text []).request true .ok .delete (ascii "report#1") =
      .ok (reportDelete (ascii "1")) := by
    decide +kernel
  have second : (new localInstance.text []).request true .ok .delete (ascii "report#2") =
      .ok (reportDelete (ascii "2")) := by
    decide +kernel
  refine ⟨first, second, ?_, ⟨rfl, rfl, rfl, rfl, rfl⟩, by decide, ?_⟩
  · rintro ⟨_, _, _, fragment⟩
    cases fragment
  · intro ε send
    have same : (cut (ascii "report#1") numberSign).1 = (cut (ascii "report#2") numberSign).1 := by
      decide
    rw [Client.deleteFile, Client.deleteFile, exchange_cut send first, exchange_cut send second,
      same]

end CommonGo.ClaudeCode
