import CommonGo.CtxErrors
import CommonGo.Go.Strings

/-!
# The topics of a queue group

The members of a queue group share a durable consumer that carries the name of the group.  Its
filter is the topic of the call that created it, so a call for another topic of the same stream is
turned away: whether a call succeeds depends on the calls before it.
-/

namespace CommonGo.Mq

open Go

/-! ## JetStream -/

/-- What a subscription is refused for. -/
inductive TopicError where
  | subjectRequired
  /-- `nats.ErrInvalidConsumerName`. -/
  | invalidConsumerName
  /-- `nats.ErrNoMatchingStream`. -/
  | noMatchingStream
  /-- `nats.ErrSubjectMismatch`. -/
  | subjectMismatch
  /-- The consumer has no deliver group. -/
  | noDeliverGroup
  /-- The consumer has another deliver group. -/
  | otherDeliverGroup
  /-- `nats.ErrBadQueueName`. -/
  | badQueueName
  /-- `nats.ErrInvalidFilterSubject`. -/
  | invalidFilterSubject
  /-- The server's own check of a consumer's name. -/
  | refusedByServer
  deriving DecidableEq, Repr

/-- A durable push consumer. -/
structure Consumer where
  /-- The only subject whose messages it delivers. -/
  filterSubject : Bytes
  /-- The queue group that it delivers to. -/
  deliverGroup : Bytes
  deriving DecidableEq, Repr

/-- A subject that neither begins nor ends with a dot. -/
def isSubject (subj : Bytes) : Bool :=
  subj ≠ [] ∧ subj.head? ≠ some 0x2E ∧ subj.getLast? ≠ some 0x2E

/-- A stream on a server. -/
structure Stream where
  /-- The topics of the stream. -/
  covers : Bytes → Bool
  /-- A topic of the stream is a subject. -/
  covers_isSubject : ∀ topic, covers topic = true → isSubject topic = true
  /-- The names that pass the server's own check, which is behind those of `checkConsumerName`. -/
  allows : Bytes → Bool

/-- The consumers of a stream. -/
structure Consumers where
  /-- The durable consumers under their names. -/
  durable : Bytes → Option Consumer
  /-- The filters of the others. -/
  ephemeral : List Bytes

/-- A stream without consumers. -/
def Consumers.none : Consumers := ⟨fun _ => Option.none, []⟩

/-- `checkConsumerName`, for a name that is not empty. -/
def checkConsumerName (name : Bytes) : Option TopicError :=
  if 0x2E ∈ name ∨ 0x20 ∈ name then some .invalidConsumerName else none

/-- `badQueue`: whitespace in the name of a queue. -/
def badQueue (qname : Bytes) : Bool := qname.any fun b => [0x20, 0x09, 0x0D, 0x0A].contains b

/-- `processConsInfo`, for a push subscription with a queue. -/
def processConsInfo (consumer : Consumer) (subj queue : Bytes) : Option TopicError :=
  if consumer.filterSubject ≠ [] ∧ subj ≠ consumer.filterSubject then some .subjectMismatch
  else if consumer.deliverGroup = [] then some .noDeliverGroup
  else if queue ≠ consumer.deliverGroup then some .otherDeliverGroup
  else none

/-- A durable consumer is created. -/
def Consumers.create (consumers : Consumers) (name : Bytes) (consumer : Consumer) : Consumers where
  durable := Function.update consumers.durable name (some consumer)
  ephemeral := consumers.ephemeral

/-- `upsertConsumer` of a durable consumer that the server does not have yet. -/
def upsertConsumer (stream : Stream) (consumers : Consumers) (subj queue : Bytes) :
    Except TopicError Consumers :=
  if isSubject subj then
    if stream.allows queue then .ok (consumers.create queue ⟨subj, queue⟩)
    else .error .refusedByServer
  else .error .invalidFilterSubject

/-- `js.subscribe` with a queue: the consumer with its name is looked up, and created if there is
none. -/
def queueSubscribeSync (stream : Stream) (consumers : Consumers) (subj queue : Bytes) :
    Except TopicError Consumers :=
  if subj = [] then .error .subjectRequired
  else match checkConsumerName queue with
  | some err => .error err
  | none =>
      if stream.covers subj then
        match consumers.durable queue with
        | some consumer =>
            match processConsInfo consumer subj queue with
            | some err => .error err
            | none => if badQueue queue then .error .badQueueName else .ok consumers
        | none =>
            if badQueue queue then .error .badQueueName
            else upsertConsumer stream consumers subj queue
      else .error .noMatchingStream

/-- `js.subscribe` without a queue: a consumer with a name of its own is created. -/
def subscribeSync (stream : Stream) (consumers : Consumers) (subj : Bytes) :
    Except TopicError Consumers :=
  if subj = [] then .error .subjectRequired
  else if stream.covers subj then
    if isSubject subj then .ok ⟨consumers.durable, consumers.ephemeral ++ [subj]⟩
    else .error .invalidFilterSubject
  else .error .noMatchingStream

/-! ## `Client.subscribe` -/

/-- `Client.subscribe`, with the consumers after it. -/
def subscribe (group : Bytes) (stream : Stream) (consumers : Consumers) (topic : Bytes) :
    Except (Error TopicError) Consumers :=
  if group ≠ [] then
    (queueSubscribeSync stream consumers topic group).mapError fun err =>
      .wrapped "queue subscribe" (.base err)
  else
    (subscribeSync stream consumers topic).mapError fun err =>
      .wrapped "subscribe sync" (.base err)

/-- The consumers after a call, which are the same if it fails. -/
def afterCall (group : Bytes) (stream : Stream) (consumers : Consumers) (topic : Bytes) :
    Consumers :=
  match subscribe group stream consumers topic with
  | .ok later => later
  | .error _ => consumers

/-- The consumers after some calls on a stream that had none. -/
def afterCalls (group : Bytes) (stream : Stream) (topics : List Bytes) : Consumers :=
  topics.foldl (afterCall group stream) Consumers.none

/-- A call succeeds after some others. -/
def Succeeds (group : Bytes) (stream : Stream) (earlier : List Bytes) (topic : Bytes) : Prop :=
  (subscribe group stream (afterCalls group stream earlier) topic).isOk = true

instance (group : Bytes) (stream : Stream) (earlier : List Bytes) (topic : Bytes) :
    Decidable (Succeeds group stream earlier topic) :=
  inferInstanceAs (Decidable (_ = true))

/-- Every call of a sequence succeeds exactly if it does without the calls for other topics. -/
def Independent (group : Bytes) (stream : Stream) (topics : List Bytes) : Prop :=
  ∀ earlier topic later, topics = earlier ++ topic :: later →
    (Succeeds group stream earlier topic ↔
      Succeeds group stream (earlier.filter (· = topic)) topic)

/-! ## Calls without a group, and with a name that is none -/

variable {group : Bytes} {stream : Stream} {topic : Bytes}

/-- The group can name a queue and a consumer of the stream. -/
def Stream.admits (stream : Stream) (group : Bytes) : Bool :=
  (checkConsumerName group).isNone && !badQueue group && stream.allows group

/-- A topic of the stream has a name. -/
theorem ne_nil_of_covers (covered : stream.covers topic = true) : topic ≠ [] := by
  have subject := stream.covers_isSubject topic covered
  simp only [isSubject, decide_eq_true_eq] at subject
  exact subject.1

theorem admits_iff : stream.admits group = true ↔
    (checkConsumerName group = none ∧ badQueue group = false) ∧ stream.allows group = true := by
  simp [Stream.admits]

theorem isOk_mapError {α β γ : Type} (result : Except α γ) (f : α → β) :
    (result.mapError f).isOk = result.isOk := by
  cases result <;> rfl

theorem succeeds_without_group (covered : stream.covers topic = true) (consumers : Consumers) :
    (subscribe [] stream consumers topic).isOk = true := by
  rw [subscribe, if_neg (by simp), isOk_mapError, subscribeSync,
    if_neg (ne_nil_of_covers covered), if_pos covered,
    if_pos (stream.covers_isSubject topic covered)]
  rfl

/-- A group that can name none makes no consumer, and joins none. -/
theorem fails_with_invalid_name (named : group ≠ []) (invalid : stream.admits group = false)
    {consumers : Consumers} (missing : consumers.durable group = none) (topic : Bytes) :
    (subscribe group stream consumers topic).isOk = false := by
  rw [subscribe, if_pos named, isOk_mapError, queueSubscribeSync, missing]
  by_cases empty : topic = []
  · rw [if_pos empty]
    rfl
  rw [if_neg empty]
  cases name : checkConsumerName group with
  | some err => rfl
  | none =>
      simp only [Stream.admits, name, Option.isNone_none, Bool.true_and, Bool.and_eq_false_iff,
        Bool.not_eq_false'] at invalid
      by_cases covers : stream.covers topic = true
      · simp only [covers, if_true]
        rcases invalid with bad | refused
        · rw [if_pos bad]
          rfl
        · by_cases bad : badQueue group = true
          · rw [if_pos bad]
            rfl
          · rw [if_neg bad, upsertConsumer, if_pos (stream.covers_isSubject topic covers), refused]
            rfl
      · simp only [covers]
        rfl

theorem afterCalls_of_invalid_name (named : group ≠ []) (invalid : stream.admits group = false)
    (topics : List Bytes) : afterCalls group stream topics = Consumers.none := by
  induction topics with
  | nil => rfl
  | cons topic topics ih =>
      have failed : afterCall group stream Consumers.none topic = Consumers.none := by
        have fails := @fails_with_invalid_name _ stream named invalid Consumers.none rfl topic
        rw [afterCall]
        cases result : subscribe group stream Consumers.none topic with
        | error err => rfl
        | ok later => rw [result] at fails; cases fails
      rw [afterCalls, List.foldl_cons, failed]
      exact ih

/-! ## Calls with a group -/

section Named

variable (named : group ≠ []) (admitted : stream.admits group = true)

include named admitted

/-- The first call creates the consumer. -/
theorem subscribe_first {consumers : Consumers} (missing : consumers.durable group = none)
    (covered : stream.covers topic = true) :
    subscribe group stream consumers topic =
      .ok (consumers.create group ⟨topic, group⟩) := by
  obtain ⟨⟨name, queue⟩, allowed⟩ := admits_iff.mp admitted
  rw [subscribe, if_pos named, queueSubscribeSync, if_neg (ne_nil_of_covers covered), name]
  simp only [covered, if_true, missing]
  rw [if_neg (by simp [queue]), upsertConsumer, if_pos (stream.covers_isSubject topic covered),
    if_pos allowed]
  rfl

/-- A later call leaves the consumer as it is, and succeeds exactly if the topic is its filter. -/
theorem subscribe_later {consumers : Consumers} {kept : Bytes} (filtered : kept ≠ [])
    (found : consumers.durable group = some ⟨kept, group⟩)
    (covered : stream.covers topic = true) :
    afterCall group stream consumers topic = consumers ∧
      ((subscribe group stream consumers topic).isOk = true ↔ topic = kept) := by
  obtain ⟨⟨name, queue⟩, _⟩ := admits_iff.mp admitted
  have looked : subscribe group stream consumers topic =
      if topic = kept then .ok consumers
      else .error (.wrapped "queue subscribe" (.base .subjectMismatch)) := by
    rw [subscribe, if_pos named, queueSubscribeSync, if_neg (ne_nil_of_covers covered), name]
    simp only [covered, if_true, found, processConsInfo, named, filtered, if_false, ne_eq,
      not_true, not_false_eq_true, true_and, queue]
    by_cases same : topic = kept
    · rw [if_neg (not_not.mpr same), if_pos same]
      rfl
    · rw [if_pos same, if_neg same]
      rfl
  rw [afterCall, looked]
  by_cases same : topic = kept
  · rw [if_pos same]
    exact ⟨rfl, fun _ => same, fun _ => rfl⟩
  · rw [if_neg same]
    exact ⟨rfl, fun ok => absurd ok Bool.false_ne_true, fun again => absurd again same⟩

/-- The consumer is the one that the first call created. -/
theorem afterCalls_cons {first : Bytes} {rest : List Bytes}
    (covered : ∀ topic ∈ first :: rest, stream.covers topic = true) :
    afterCalls group stream (first :: rest) = Consumers.none.create group ⟨first, group⟩ := by
  have created : afterCall group stream Consumers.none first =
      Consumers.none.create group ⟨first, group⟩ := by
    rw [afterCall, subscribe_first named admitted rfl (covered first List.mem_cons_self)]
  have filtered : first ≠ [] := ne_nil_of_covers (covered first List.mem_cons_self)
  rw [afterCalls, List.foldl_cons, created]
  have found : (Consumers.none.create group ⟨first, group⟩).durable group = some ⟨first, group⟩ :=
    Function.update_self ..
  have rest_covered : ∀ topic ∈ rest, stream.covers topic = true := fun topic member =>
    covered topic (List.mem_cons_of_mem _ member)
  clear covered created
  induction rest with
  | nil => rfl
  | cons topic rest ih =>
      rw [List.foldl_cons,
        (subscribe_later named admitted filtered found (rest_covered topic List.mem_cons_self)).1]
      exact ih fun other member => rest_covered other (List.mem_cons_of_mem _ member)

/-- A call after others succeeds exactly if the first of them was for the same topic. -/
theorem succeeds_cons_iff {first : Bytes} {rest : List Bytes}
    (covered : ∀ topic ∈ first :: rest, stream.covers topic = true)
    (covers : stream.covers topic = true) :
    Succeeds group stream (first :: rest) topic ↔ topic = first := by
  have filtered : first ≠ [] := ne_nil_of_covers (covered first List.mem_cons_self)
  rw [Succeeds, afterCalls_cons named admitted covered]
  exact (subscribe_later named admitted filtered (Function.update_self ..) covers).2

theorem succeeds_nil (covers : stream.covers topic = true) : Succeeds group stream [] topic := by
  rw [Succeeds, afterCalls, List.foldl_nil, subscribe_first named admitted rfl covers]
  rfl

/-- Without the calls for other topics every call succeeds. -/
theorem succeeds_alone {earlier : List Bytes}
    (covered : ∀ topic ∈ earlier, stream.covers topic = true)
    (covers : stream.covers topic = true) :
    Succeeds group stream (earlier.filter (· = topic)) topic := by
  cases own : earlier.filter (· = topic) with
  | nil => exact succeeds_nil named admitted covers
  | cons first rest =>
      have same : ∀ other ∈ first :: rest, other ∈ earlier ∧ other = topic := by
        intro other member
        rw [← own, List.mem_filter] at member
        exact ⟨member.1, by simpa using member.2⟩
      refine (succeeds_cons_iff named admitted ?_ covers).mpr ?_
      · exact fun other member => covered other (same other member).1
      · exact (same first List.mem_cons_self).2.symm

end Named

theorem independent_without_group {topics : List Bytes}
    (covered : ∀ topic ∈ topics, stream.covers topic = true) : Independent [] stream topics := by
  rintro earlier topic later rfl
  have covers := covered topic (by simp)
  exact iff_of_true (succeeds_without_group covers _) (succeeds_without_group covers _)

theorem independent_with_invalid_name (named : group ≠ [])
    (invalid : stream.admits group = false) (topics : List Bytes) :
    Independent group stream topics := by
  intro earlier topic later _
  have fails : ∀ calls, ¬ Succeeds group stream calls topic := by
    intro calls
    rw [Succeeds, afterCalls_of_invalid_name named invalid,
      fails_with_invalid_name named invalid rfl]
    exact Bool.false_ne_true
  exact iff_of_false (fails _) (fails _)

/-- On a stream without consumers, every call of a sequence for topics of the stream succeeds or
fails as it does without the calls for other topics exactly if there is no group, or it can name no
consumer, or all topics are the same. -/
theorem independent_iff (group : Bytes) (stream : Stream) {topics : List Bytes}
    (covered : ∀ topic ∈ topics, stream.covers topic = true) :
    Independent group stream topics ↔
      group = [] ∨ stream.admits group = false ∨
        ∀ topic ∈ topics, ∀ other ∈ topics, topic = other := by
  by_cases named : group = []
  · subst named
    exact iff_of_true (independent_without_group covered) (Or.inl rfl)
  cases admitted : stream.admits group with
  | false =>
      exact iff_of_true (independent_with_invalid_name named admitted topics) (Or.inr (Or.inl rfl))
  | true =>
      simp only [named, false_or, Bool.true_eq_false]
      constructor
      · intro independent
        cases topics with
        | nil => simp
        | cons first rest =>
            -- A topic that comes later succeeds alone, so it succeeds behind the first.
            have same : ∀ topic ∈ first :: rest, topic = first := by
              intro topic member
              rcases List.mem_cons.mp member with same | later
              · exact same
              obtain ⟨between, behind, rfl⟩ := List.append_of_mem later
              have earlier_covered : ∀ topic ∈ first :: between, stream.covers topic = true :=
                fun other among => covered other (List.mem_append_left _ among)
              have alone := succeeds_alone named admitted earlier_covered (covered topic member)
              have succeeds := (independent (first :: between) topic behind rfl).mpr alone
              exact (succeeds_cons_iff named admitted earlier_covered
                (covered topic member)).mp succeeds
            exact fun topic member other among => (same topic member).trans (same other among).symm
      · rintro same earlier topic later rfl
        have covers := covered topic (by simp)
        have earlier_covered : ∀ topic ∈ earlier, stream.covers topic = true :=
          fun other among => covered other (List.mem_append_left _ among)
        refine iff_of_true ?_ (succeeds_alone named admitted earlier_covered covers)
        cases earlier with
        | nil => exact succeeds_nil named admitted covers
        | cons first rest =>
            rw [succeeds_cons_iff named admitted earlier_covered covers]
            exact same topic (by simp) first (by simp)

/-- A stream that covers the topics under `events.`. -/
def events : Stream where
  covers topic := (ascii "events.").isPrefixOf topic && isSubject topic
  covers_isSubject _ covered := (Bool.and_eq_true_iff.mp covered).2
  allows name := !name.any fun b => (ascii "*>/").contains b

/-- Two calls for one topic. -/
theorem independent_same_topic :
    (∀ topic ∈ [ascii "events.a", ascii "events.a"], events.covers topic = true) ∧
      Independent (ascii "workers") events [ascii "events.a", ascii "events.a"] := by
  have covered : ∀ topic ∈ [ascii "events.a", ascii "events.a"], events.covers topic = true := by
    decide
  exact ⟨covered, (independent_iff _ _ covered).mpr (Or.inr (Or.inr (by decide)))⟩

/-- The second topic is turned away because of the first. -/
theorem second_topic_refused :
    (∀ topic ∈ [ascii "events.a", ascii "events.b"], events.covers topic = true) ∧
      Succeeds (ascii "workers") events [] (ascii "events.b") ∧
      ¬ Succeeds (ascii "workers") events [ascii "events.a"] (ascii "events.b") ∧
      ¬ Independent (ascii "workers") events [ascii "events.a", ascii "events.b"] := by
  refine ⟨by decide, by decide, by decide, ?_⟩
  intro independent
  have same := independent [ascii "events.a"] (ascii "events.b") [] rfl
  exact absurd same (by decide)

end CommonGo.Mq
