import CommonGo.Cache.Memory
import CommonGo.Go.Strings

/-!
# The Redis cache

`cache.Redis` puts a key prefix in front of every key and leaves the rest to a server: a map from
keys to values that may have an expiry.  The client library decides how a ttl goes over the wire,
in seconds or milliseconds, as a request to keep the expiry there is, or not at all.
-/

namespace CommonGo.Cache

open Go

/-! ## The client library -/

/-- `time.Millisecond`, in nanoseconds. -/
def millisecond : Int := 1000000

/-- `time.Second`, in nanoseconds. -/
def second : Int := 1000000000

/-- `KeepTTL`. -/
def keepTTL : Int := -1

/-- `usePrecise`: whether a duration is sent in milliseconds. -/
def usePrecise (dur : Int) : Bool := dur < second || dur.tmod second != 0

/-- `formatMs`: whole milliseconds, but at least one of a positive duration. -/
def formatMs (dur : Int) : Int :=
  if 0 < dur ∧ dur < millisecond then 1 else dur.tdiv millisecond

/-- `formatSec`: whole seconds, but at least one of a positive duration. -/
def formatSec (dur : Int) : Int :=
  if 0 < dur ∧ dur < second then 1 else dur.tdiv second

/-- What a `SET` command says about the expiry. -/
inductive SetOption where
  | forever
  | px (milliseconds : Int)
  | ex (seconds : Int)
  | keepttl
  deriving DecidableEq, Repr

/-- The option that `Set` of the client library sends for an expiration. -/
def setOption (expiration : Int) : SetOption :=
  if 0 < expiration then
    if usePrecise expiration then .px (formatMs expiration) else .ex (formatSec expiration)
  else if expiration = keepTTL then .keepttl
  else .forever

/-- How long the server keeps what was set with a positive ttl. -/
def sent (ttl : Int) : Int :=
  if usePrecise ttl then formatMs ttl * millisecond else formatSec ttl * second

/-! ## The server -/

/-- What the server holds for a key. -/
structure Item where
  /-- The value. -/
  value : Bytes
  /-- When it expires, if it does. -/
  expiresAt : Option Int
  deriving DecidableEq, Repr

/-- Whether an item is still there.  A server that `lingers` has it at the instant of its expiry. -/
def Item.live (lingers : Bool) (now : Int) (item : Item) : Bool :=
  item.expiresAt.all fun expiry => now < expiry || (lingers && now == expiry)

/-- The items of the server. -/
abbrev Server := Bytes → Option Item

namespace Server

/-- What a key holds at a time. -/
def find (lingers : Bool) (server : Server) (now : Int) (key : Bytes) : Option Item :=
  (server key).filter (Item.live lingers now)

/-- The expiry that `SET` gives a key. -/
def expiry (lingers : Bool) (server : Server) (now : Int) (key : Bytes) : SetOption → Option Int
  | .forever => none
  | .px milliseconds => some (now + milliseconds * millisecond)
  | .ex seconds => some (now + seconds * second)
  | .keepttl => (server.find lingers now key).bind Item.expiresAt

/-- The command `SET`. -/
def set (lingers : Bool) (server : Server) (now : Int) (key value : Bytes) (option : SetOption) :
    Server :=
  Function.update server key (some ⟨value, server.expiry lingers now key option⟩)

/-- The command `DEL`. -/
def del (server : Server) (key : Bytes) : Server := Function.update server key none

end Server

/-! ## The cache -/

/-- `redisKeyPrefix`. -/
def redisKeyPrefix : Bytes := ascii "cache:"

/-- `Redis`; the client is the server it is called with. -/
structure Redis where
  /-- What comes before the keys of this cache. -/
  keyPrefix : Bytes
  deriving DecidableEq, Repr

namespace Redis

variable (lingers : Bool) (r : Redis) (server : Server)

/-- `Redis.buildKey`. -/
def buildKey (key : Bytes) : Bytes := r.keyPrefix ++ redisKeyPrefix ++ key

/-- `Redis.Get`, where `redis.Nil` is what the client makes of a missing key. -/
def get (now : Int) (key : Bytes) : Except Error Bytes :=
  match server.find lingers now (r.buildKey key) with
  | none => .error .cacheMiss
  | some item => .ok item.value

/-- `Redis.Set`. -/
def set (now : Int) (key value : Bytes) (ttl : Int) : Server :=
  server.set lingers now (r.buildKey key) value (setOption ttl)

/-- `Redis.Delete`. -/
def delete (key : Bytes) : Server := server.del (r.buildKey key)

/-- One call; the purge is a call of the in-memory cache only. -/
def perform (call : Call Bytes Bytes) : Server × Reply Bytes :=
  match call.op with
  | .set key value ttl => (r.set lingers server call.time key value ttl, .done)
  | .get key => (server, .ofValue (r.get lingers server call.time key))
  | .delete key => (r.delete server key, .done)
  | .removeExpired _ => (server, .done)

theorem buildKey_inj {key other : Bytes} : r.buildKey key = r.buildKey other ↔ key = other :=
  List.append_right_inj _

end Redis

end CommonGo.Cache
