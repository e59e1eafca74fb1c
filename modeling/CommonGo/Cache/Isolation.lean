import CommonGo.Cache.Redis

/-!
# Redis caches that share a server

Two caches with different key prefixes on one server.  Calls through one leave the other alone
exactly when no key of the one is a key of the other on the server, and that is a matter of the
prefixes only.
-/

namespace CommonGo.Cache

open Go

/-- Which of the two caches a call goes through. -/
inductive Side where
  | p
  | q
  deriving DecidableEq, Repr

namespace Redis

variable (lingers : Bool) (p q : Redis)

/-- What the calls through the first cache return, in a run of calls through both. -/
def replies : Server → List (Side × Call Bytes Bytes) → List (Reply Bytes)
  | _, [] => []
  | server, (.p, call) :: calls =>
      (p.perform lingers server call).2 :: replies (p.perform lingers server call).1 calls
  | server, (.q, call) :: calls => replies (q.perform lingers server call).1 calls

/-- The calls through the first cache. -/
def own (calls : List (Side × Call Bytes Bytes)) : List (Side × Call Bytes Bytes) :=
  calls.filter fun call => call.1 = .p

/-- What the first cache returns does not depend on the calls through the second. -/
def Isolated : Prop :=
  ∀ server calls, replies lingers p q server calls = replies lingers p q server (own calls)

/-! ## Keys that meet -/

/-- A key of the first cache is a key of the second on the server. -/
def Meet : Prop := ∃ key other, p.buildKey key = q.buildKey other

variable {lingers p q}

theorem Meet.symm (meet : Meet p q) : Meet q p := by
  obtain ⟨key, other, same⟩ := meet
  exact ⟨other, key, same.symm⟩

theorem meet_of_starts (longer : p.keyPrefix ++ redisKeyPrefix <+: q.keyPrefix) : Meet p q := by
  obtain ⟨rest, split⟩ := longer
  exact ⟨rest ++ redisKeyPrefix, [], by simp [buildKey, ← split]⟩

/-- `cache:` starts nowhere inside itself. -/
theorem starts_of_shifted {shift key other : Bytes} (moved : shift ≠ [])
    (same : redisKeyPrefix ++ key = shift ++ (redisKeyPrefix ++ other)) :
    redisKeyPrefix <+: shift := by
  by_cases long : redisKeyPrefix.length ≤ shift.length
  · exact List.prefix_of_prefix_length_le ⟨key, rfl⟩ ⟨redisKeyPrefix ++ other, same.symm⟩ long
  · exfalso
    have six : redisKeyPrefix = [0x63, 0x61, 0x63, 0x68, 0x65, 0x3A] := by decide
    rw [six] at same long
    rcases shift with _ | ⟨_, _ | ⟨_, _ | ⟨_, _ | ⟨_, _ | ⟨_, _ | ⟨_, shift⟩⟩⟩⟩⟩⟩
    · exact moved rfl
    · simp at same
    · simp at same
    · simp at same
    · simp at same
    · simp at same
    · simp at long

/-- If keys meet, the longer prefix starts with the shorter one and `cache:`. -/
theorem starts_of_meet (differ : p.keyPrefix ≠ q.keyPrefix)
    (shorter : p.keyPrefix.length ≤ q.keyPrefix.length) (meet : Meet p q) :
    p.keyPrefix ++ redisKeyPrefix <+: q.keyPrefix := by
  obtain ⟨key, other, same⟩ := meet
  simp only [buildKey, List.append_assoc] at same
  obtain ⟨shift, split⟩ := List.prefix_of_prefix_length_le ⟨_, same⟩ ⟨_, rfl⟩ shorter
  rw [← split, List.append_assoc, List.append_cancel_left_eq] at same
  rw [← split, List.prefix_append_right_inj]
  refine starts_of_shifted ?_ same
  rintro rfl
  exact differ (by simpa using split)

theorem meet_iff (differ : p.keyPrefix ≠ q.keyPrefix) :
    Meet p q ↔ p.keyPrefix ++ redisKeyPrefix <+: q.keyPrefix ∨
      q.keyPrefix ++ redisKeyPrefix <+: p.keyPrefix := by
  constructor
  · intro meet
    rcases Nat.le_total p.keyPrefix.length q.keyPrefix.length with shorter | longer
    · exact Or.inl (starts_of_meet differ shorter meet)
    · exact Or.inr (starts_of_meet differ.symm longer meet.symm)
  · rintro (longer | shorter)
    · exact meet_of_starts longer
    · exact (meet_of_starts shorter).symm

/-! ## Two runs -/

/-- The servers hold the same under every key of a cache. -/
def Alike (p : Redis) (server other : Server) : Prop :=
  ∀ key, server (p.buildKey key) = other (p.buildKey key)

/-- A call through the cache returns the same on alike servers, and keeps them alike. -/
theorem Alike.perform {server other : Server} (alike : Alike p server other)
    (call : Call Bytes Bytes) :
    (p.perform lingers server call).2 = (p.perform lingers other call).2 ∧
      Alike p (p.perform lingers server call).1 (p.perform lingers other call).1 := by
  have found : ∀ now key, server.find lingers now (p.buildKey key) =
      other.find lingers now (p.buildKey key) := fun now key => by
    rw [Server.find, Server.find, alike key]
  have updated : ∀ key item, Alike p (Function.update server (p.buildKey key) item)
      (Function.update other (p.buildKey key) item) := by
    intro key item again
    by_cases same : again = key
    · rw [same, Function.update_self, Function.update_self]
    · have apart : p.buildKey again ≠ p.buildKey key := fun equal =>
        same ((p.buildKey_inj).mp equal)
      rw [Function.update_of_ne apart, Function.update_of_ne apart, alike again]
  obtain ⟨time, op⟩ := call
  cases op with
  | set key value ttl =>
      refine ⟨rfl, ?_⟩
      have expiry : server.expiry lingers time (p.buildKey key) (setOption ttl) =
          other.expiry lingers time (p.buildKey key) (setOption ttl) := by
        unfold Server.expiry
        rw [found time key]
      simp only [Redis.perform, Redis.set, Server.set, expiry]
      exact updated key _
  | get key =>
      refine ⟨?_, alike⟩
      simp only [Redis.perform, Redis.get, found time key]
  | delete key => exact ⟨rfl, updated key none⟩
  | removeExpired order => exact ⟨rfl, alike⟩

/-- A call through a cache whose keys do not meet changes nothing for the other. -/
theorem Alike.frame {server other : Server} (alike : Alike p server other) (apart : ¬ Meet p q)
    (call : Call Bytes Bytes) : Alike p (q.perform lingers server call).1 other := by
  have untouched : ∀ key again item,
      Function.update server (q.buildKey key) item (p.buildKey again) =
        other (p.buildKey again) := fun key again item => by
    rw [Function.update_of_ne fun same => apart ⟨again, key, same⟩, alike again]
  obtain ⟨time, op⟩ := call
  cases op with
  | set key value ttl => exact fun again => untouched key again _
  | get key => exact alike
  | delete key => exact fun again => untouched key again none
  | removeExpired order => exact alike

/-- Along a run, the calls through the cache do not see the calls through the other. -/
theorem Alike.replies_own (apart : ¬ Meet p q) (calls : List (Side × Call Bytes Bytes))
    {server other : Server} (alike : Alike p server other) :
    replies lingers p q server calls = replies lingers p q other (own calls) := by
  induction calls generalizing server other with
  | nil => rfl
  | cons call calls ih =>
      obtain ⟨side, call⟩ := call
      cases side with
      | p =>
          obtain ⟨same, after⟩ := alike.perform call
          rw [own, List.filter_cons_of_pos (by simp), replies, replies, same, ih after, own]
      | q =>
          rw [own, List.filter_cons_of_neg (by simp), replies, ih (alike.frame apart call), own]

/-- Where keys meet, a value set through the one cache is read through the other. -/
theorem not_isolated_of_meet (meet : Meet p q) : ¬ Isolated lingers p q := by
  obtain ⟨key, other, same⟩ := meet
  intro isolated
  have run := isolated (fun _ => none) [(.q, ⟨0, .set other [] 0⟩), (.p, ⟨0, .get key⟩)]
  simp [own, replies, perform, get, set, same, Server.find, Server.set, Server.expiry, setOption,
    keepTTL, Option.filter_some, Item.live, Reply.ofValue] at run

/-- Caches with different prefixes are isolated exactly when neither prefix starts with the other
one followed by `cache:`. -/
theorem isolated_iff (lingers : Bool) (p q : Redis) (differ : p.keyPrefix ≠ q.keyPrefix) :
    Isolated lingers p q ↔ ¬ (p.keyPrefix ++ redisKeyPrefix <+: q.keyPrefix) ∧
      ¬ (q.keyPrefix ++ redisKeyPrefix <+: p.keyPrefix) := by
  rw [← not_or, ← meet_iff differ]
  constructor
  · exact fun isolated meet => not_isolated_of_meet meet isolated
  · exact fun apart server calls => Alike.replies_own apart calls fun _ => rfl

theorem isolated_tenants :
    Isolated true ⟨ascii "app:"⟩ ⟨ascii "proxq:"⟩ ∧ ascii "app:" ≠ ascii "proxq:" :=
  ⟨(isolated_iff true ⟨ascii "app:"⟩ ⟨ascii "proxq:"⟩ (by decide)).mpr (by decide), by decide⟩

/-- The default cache reads under `cache:a` what the cache with the prefix `cache:` stored under
`a`. -/
theorem default_reads_nested :
    replies true ⟨[]⟩ ⟨ascii "cache:"⟩ (fun _ => none)
        [(.q, ⟨0, .set (ascii "a") (ascii "v") 60000000000⟩), (.p, ⟨1, .get (ascii "cache:a")⟩)] =
      [.found (ascii "v")] ∧
    replies true ⟨[]⟩ ⟨ascii "cache:"⟩ (fun _ => none) [(.p, ⟨1, .get (ascii "cache:a")⟩)] =
      [.failed .cacheMiss] := by
  decide

end Redis

end CommonGo.Cache
