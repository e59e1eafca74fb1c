import CommonGo.CtxErrors
import CommonGo.Go.Strconv
import CommonGo.Postgres.ConnString

/-!
# The PostgreSQL connection string

The configuration of the PostgreSQL package and the connection string made of it, read back with
the parser of the driver it is handed to.
-/

namespace CommonGo.Postgres

open Go

/-- What `Config.validate` refuses. -/
inductive ConfigError where
  | hostnameRequired
  | portRequired
  | usernameRequired
  | passwordRequired
  | databaseRequired
  deriving DecidableEq, Repr

/-- `Config`. -/
structure Config where
  /-- The host. -/
  hostname : Bytes
  /-- The port. -/
  port : Int
  /-- The user. -/
  username : Bytes
  /-- The password. -/
  password : Bytes
  /-- The database. -/
  database : Bytes
  /-- Whether the connection is encrypted. -/
  isSSL : Bool
  deriving DecidableEq, Repr

namespace Config

/-- `Config.validate`. -/
def validate (c : Config) : Option (Error ConfigError) :=
  if c.hostname = [] then wrap (some (.base .hostnameRequired)) "hostname"
  else if c.port = 0 then wrap (some (.base .portRequired)) "port"
  else if c.username = [] then wrap (some (.base .usernameRequired)) "username"
  else if c.password = [] then wrap (some (.base .passwordRequired)) "password"
  else if c.database = [] then wrap (some (.base .databaseRequired)) "database"
  else none

end Config

/-- The value of `sslmode`. -/
def sslMode (cfg : Config) : Bytes := if cfg.isSSL then ascii "require" else ascii "disable"

/-- The database of the connection: that of the server itself, or the one of the configuration. -/
def dbName (cfg : Config) (usePostgresDatabase : Bool) : Bytes :=
  if usePostgresDatabase then ascii "postgres" else cfg.database

/-- `getDSN`. -/
def getDSN (cfg : Config) (usePostgresDatabase : Bool) : Bytes :=
  ascii "host=" ++ cfg.hostname ++ ascii " user=" ++ cfg.username ++ ascii " password=" ++
    cfg.password ++ ascii " dbname=" ++ dbName cfg usePostgresDatabase ++ ascii " port=" ++
    formatInt cfg.port ++ ascii " sslmode=" ++ sslMode cfg

/-- The six settings with the values of the configuration, under the driver's own keys. -/
def Config.settings (cfg : Config) (usePostgresDatabase : Bool) : Settings := fun key =>
  [(ascii "host", cfg.hostname), (ascii "user", cfg.username), (ascii "password", cfg.password),
    (ascii "database", dbName cfg usePostgresDatabase), (ascii "port", formatInt cfg.port),
    (ascii "sslmode", sslMode cfg)].lookup key

/-! ## Values the package writes itself -/

/-- A value without whitespace, quotes and backslashes is plain. -/
theorem plain_of_ordinary {value : Bytes} (nonempty : value ≠ [])
    (ordinary : ∀ b ∈ value, isAsciiSpace b = false ∧ b ≠ quote ∧ b ≠ backslash) :
    plain value = true := by
  have scanned : plainFrom value = true := by
    clear nonempty
    induction value using plainFrom.induct with
    | case1 => rfl
    | case2 b => simp [plainFrom, ordinary b]
    | case3 c more ih => exact absurd rfl (ordinary backslash (by simp)).2.2
    | case4 b c more other ih =>
        rw [plainFrom, if_neg other, ih fun d member => ordinary d (by simp_all)]
        simp [ordinary b]
  cases value with
  | nil => exact absurd rfl nonempty
  | cons b value => simp [plain, scanned, ordinary b]

private theorem ordinary_isDecimal (b : UInt8) : isDecimal b = true →
    isAsciiSpace b = false ∧ b ≠ quote ∧ b ≠ backslash := by
  revert b
  exact forall_byte (by decide +kernel)

theorem plain_formatInt (n : Int) : plain (formatInt n) = true := by
  have ordinary : ∀ b ∈ formatNat n.natAbs, isAsciiSpace b = false ∧ b ≠ quote ∧ b ≠ backslash :=
    fun b member =>
      ordinary_isDecimal b (List.all_eq_true.mp (all_isDecimal_formatNat n.natAbs) b member)
  unfold formatInt
  split_ifs with negative
  · refine plain_of_ordinary (by simp) fun b member => ?_
    rcases List.mem_cons.mp member with rfl | member
    · decide
    · exact ordinary b member
  · obtain ⟨first, rest, shape, _⟩ := formatNat_cons n.natAbs
    exact plain_of_ordinary (by simp [shape]) ordinary

theorem plain_sslMode (cfg : Config) : plain (sslMode cfg) = true := by
  unfold sslMode
  split_ifs <;> decide

/-! ## Reading the string back -/

private theorem keyword_host : Keyword (ascii "host") := ⟨by decide, by decide, by decide⟩

private theorem keyword_user : Keyword (ascii "user") := ⟨by decide, by decide, by decide⟩

private theorem keyword_password : Keyword (ascii "password") := ⟨by decide, by decide, by decide⟩

private theorem keyword_dbname : Keyword (ascii "dbname") := ⟨by decide, by decide, by decide⟩

private theorem keyword_port : Keyword (ascii "port") := ⟨by decide, by decide, by decide⟩

private theorem keyword_sslmode : Keyword (ascii "sslmode") := ⟨by decide, by decide, by decide⟩

/-- The two settings behind the spliced values. -/
def portAndMode (cfg : Config) : Bytes :=
  ascii "port" ++ equals ::
    (formatInt cfg.port ++ 0x20 :: (ascii "sslmode" ++ equals :: sslMode cfg))

theorem getDSN_eq (cfg : Config) (usePostgresDatabase : Bool) :
    getDSN cfg usePostgresDatabase =
      ascii "host" ++ equals :: (cfg.hostname ++ 0x20 ::
        (ascii "user" ++ equals :: (cfg.username ++ 0x20 ::
          (ascii "password" ++ equals :: (cfg.password ++ 0x20 ::
            (ascii "dbname" ++ equals :: (dbName cfg usePostgresDatabase ++ 0x20 ::
              portAndMode cfg))))))) := by
  have host : ascii "host=" = ascii "host" ++ [equals] := rfl
  have user : ascii " user=" = 0x20 :: (ascii "user" ++ [equals]) := rfl
  have password : ascii " password=" = 0x20 :: (ascii "password" ++ [equals]) := rfl
  have dbname : ascii " dbname=" = 0x20 :: (ascii "dbname" ++ [equals]) := rfl
  have port : ascii " port=" = 0x20 :: (ascii "port" ++ [equals]) := rfl
  have mode : ascii " sslmode=" = 0x20 :: (ascii "sslmode" ++ [equals]) := rfl
  simp only [getDSN, portAndMode, host, user, password, dbname, port, mode, List.append_assoc,
    List.cons_append, List.nil_append]

/-- The keys of the six settings. -/
def keys : Finset Bytes :=
  {ascii "host", ascii "user", ascii "password", ascii "database", ascii "port", ascii "sslmode"}

/-- The settings of the configuration, stored one after another. -/
theorem store_settings (cfg : Config) (usePostgresDatabase : Bool) (named : cfg.username ≠ []) :
    store (store (store (store (store (store (fun _ => none) (ascii "host") cfg.hostname)
      (ascii "user") cfg.username) (ascii "password") cfg.password)
      (ascii "database") (dbName cfg usePostgresDatabase)) (ascii "port") (formatInt cfg.port))
      (ascii "sslmode") (sslMode cfg) = cfg.settings usePostgresDatabase := by
  have user : ¬(ascii "user" = ascii "user" ∧ cfg.username = []) := fun both => named both.2
  have other : ∀ key ∈ keys, key ≠ ascii "user" → ∀ value : Bytes,
      ¬(key = ascii "user" ∧ value = []) := fun _ _ different _ both => different both.1
  unfold store
  rw [if_neg user, if_neg (other _ (by decide) (by decide) _),
    if_neg (other _ (by decide) (by decide) _), if_neg (other _ (by decide) (by decide) _),
    if_neg (other _ (by decide) (by decide) _), if_neg (other _ (by decide) (by decide) _)]
  funext key
  by_cases member : key ∈ keys
  · simp only [keys, Finset.mem_insert, Finset.mem_singleton] at member
    rcases member with rfl | rfl | rfl | rfl | rfl | rfl <;> rfl
  · simp only [keys, Finset.mem_insert, Finset.mem_singleton, not_or] at member
    obtain ⟨host, user, password, database, port, mode⟩ := member
    simp [Function.update_of_ne, Config.settings, List.lookup_cons, beq_false_of_ne, *]

/-- The string is just long enough for the settings of the configuration. -/
theorem size_settings (cfg : Config) (usePostgresDatabase : Bool) :
    size keys (cfg.settings usePostgresDatabase) = (getDSN cfg usePostgresDatabase).length + 1 := by
  have total : size keys (cfg.settings usePostgresDatabase) =
      weight (ascii "host") (some cfg.hostname) + (weight (ascii "user") (some cfg.username) +
        (weight (ascii "password") (some cfg.password) +
          (weight (ascii "database") (some (dbName cfg usePostgresDatabase)) +
            (weight (ascii "port") (some (formatInt cfg.port)) +
              weight (ascii "sslmode") (some (sslMode cfg)))))) := by
    unfold size keys
    rw [Finset.sum_insert (by decide), Finset.sum_insert (by decide), Finset.sum_insert (by decide),
      Finset.sum_insert (by decide), Finset.sum_insert (by decide), Finset.sum_singleton]
    rfl
  rw [total]
  simp only [weight, getDSN, List.length_append,
    show keyLength (ascii "host") = 4 by decide, show keyLength (ascii "user") = 4 by decide,
    show keyLength (ascii "password") = 8 by decide,
    show keyLength (ascii "database") = 6 by decide,
    show keyLength (ascii "port") = 4 by decide, show keyLength (ascii "sslmode") = 7 by decide,
    show (ascii "host=").length = 5 by decide, show (ascii " user=").length = 6 by decide,
    show (ascii " password=").length = 10 by decide, show (ascii " dbname=").length = 8 by decide,
    show (ascii " port=").length = 6 by decide, show (ascii " sslmode=").length = 9 by decide]
  omega

/-- With plain values the parser returns the settings of the configuration. -/
theorem parse_getDSN (cfg : Config) (usePostgresDatabase : Bool)
    (hostname : plain cfg.hostname = true) (username : plain cfg.username = true)
    (password : plain cfg.password = true)
    (database : plain (dbName cfg usePostgresDatabase) = true) :
    parseKeywordValueSettings (getDSN cfg usePostgresDatabase) =
      .ok (cfg.settings usePostgresDatabase) := by
  have named : cfg.username ≠ [] := by
    intro empty
    rw [empty] at username
    cases username
  rw [parseKeywordValueSettings, getDSN_eq, keyword_host.trimLeftSpace_append,
    keyword_host.parseLoop_plain keyword_user _ hostname,
    keyword_user.parseLoop_plain keyword_password _ username,
    keyword_password.parseLoop_plain keyword_dbname _ password, portAndMode,
    keyword_dbname.parseLoop_plain keyword_port _ database,
    keyword_port.parseLoop_plain keyword_sslmode _ (plain_formatInt _),
    keyword_sslmode.parseLoop_last _ (plain_sslMode cfg)]
  exact congrArg Except.ok (store_settings cfg usePostgresDatabase named)

/-- If the parser returns the settings of the configuration then its values are plain. -/
theorem plain_of_parse_getDSN (cfg : Config) (usePostgresDatabase : Bool)
    (parsed : parseKeywordValueSettings (getDSN cfg usePostgresDatabase) =
      .ok (cfg.settings usePostgresDatabase)) :
    plain cfg.hostname = true ∧ plain cfg.username = true ∧ plain cfg.password = true ∧
      plain (dbName cfg usePostgresDatabase) = true := by
  have start : size keys (fun _ => none) = 0 := Finset.sum_eq_zero fun _ _ => rfl
  have tight := size_settings cfg usePostgresDatabase
  rw [getDSN_eq] at parsed tight
  rw [parseKeywordValueSettings, keyword_host.trimLeftSpace_append] at parsed
  -- each turn is paid for exactly, so each one reads its own value
  obtain ⟨hostname, later, parsed, tight⟩ := keyword_host.plain_of_parseLoop rfl keys parsed
    (by omega) rfl
  obtain ⟨username, later, parsed, tight⟩ := keyword_user.plain_of_parseLoop rfl keys parsed
    tight rfl
  obtain ⟨password, later, parsed, tight⟩ := keyword_password.plain_of_parseLoop rfl keys parsed
    tight rfl
  obtain ⟨database, -⟩ := keyword_dbname.plain_of_parseLoop rfl keys parsed tight rfl
  exact ⟨hostname, username, password, database⟩

theorem plain_dbName_iff (cfg : Config) (usePostgresDatabase : Bool) :
    plain (dbName cfg usePostgresDatabase) = true ↔
      (usePostgresDatabase = false → plain cfg.database = true) := by
  cases usePostgresDatabase with
  | false => simp [dbName]
  | true =>
      have postgres : plain (ascii "postgres") = true := by decide
      simp [dbName, postgres]

/-- The connection string carries exactly the configuration just when the strings spliced into it
are plain. -/
theorem parse_getDSN_iff (cfg : Config) (usePostgresDatabase : Bool) :
    parseKeywordValueSettings (getDSN cfg usePostgresDatabase) =
        .ok (cfg.settings usePostgresDatabase) ↔
      plain cfg.hostname = true ∧ plain cfg.username = true ∧ plain cfg.password = true ∧
        (usePostgresDatabase = false → plain cfg.database = true) := by
  rw [← plain_dbName_iff]
  constructor
  · exact plain_of_parse_getDSN cfg usePostgresDatabase
  · rintro ⟨hostname, username, password, database⟩
    exact parse_getDSN cfg usePostgresDatabase hostname username password database

/-- A configuration with a second host in its password. -/
def redirected : Config where
  hostname := ascii "db"
  port := 5432
  username := ascii "app"
  password := ascii "x host=evil"
  database := ascii "app"
  isSSL := true

/-- The configuration is accepted, and its connection string leads to the other host. -/
theorem redirected_host :
    redirected.validate = none ∧
      (parseKeywordValueSettings (getDSN redirected false)).toOption.bind (· (ascii "host")) =
        some (ascii "evil") ∧
      parseKeywordValueSettings (getDSN redirected false) ≠ .ok (redirected.settings false) := by
  have host : (parseKeywordValueSettings (getDSN redirected false)).toOption.bind
      (· (ascii "host")) = some (ascii "evil") := by decide +kernel
  refine ⟨by decide, host, fun same => ?_⟩
  rw [same] at host
  revert host
  decide +kernel

end CommonGo.Postgres
