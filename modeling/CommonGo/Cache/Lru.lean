import CommonGo.Cache.Memory
import Mathlib.Data.List.Perm.Basic
import Mathlib.Data.List.Nodup

/-!
# The cache as a recency list

What the cache is for, said without pointers: a list of entries with distinct keys, the most
recently used one first.  Every operation of `Memory` takes one of a few steps on that list, and
the index and the linked list keep representing it.
-/

namespace CommonGo.Cache

variable {κ ν : Type}

/-- The steps of a recency list of a capacity, with what the call returns. -/
inductive Lru.Step (capacity : Int) :
    List (Entry κ ν) → Call κ ν → Reply ν → List (Entry κ ν) → Prop
  /-- Setting a key that is held replaces its entry and brings it to the front. -/
  | overwrite {front back : List (Entry κ ν)} {entry : Entry κ ν} {time : Int} {key : κ}
      {value : ν} {ttl : Int} : entry.key = key →
      Step capacity (front ++ entry :: back) ⟨time, .set key value ttl⟩ .done
        (⟨key, value, time + ttl⟩ :: (front ++ back))
  /-- Setting a new key while there is room. -/
  | insert {entries : List (Entry κ ν)} {time : Int} {key : κ} {value : ν} {ttl : Int} :
      key ∉ entries.map Entry.key → (entries.length : Int) < capacity →
      Step capacity entries ⟨time, .set key value ttl⟩ .done
        (⟨key, value, time + ttl⟩ :: entries)
  /-- Setting a new key in a full cache drops the last entry. -/
  | evict {front : List (Entry κ ν)} {last : Entry κ ν} {time : Int} {key : κ} {value : ν}
      {ttl : Int} : key ∉ (front ++ [last]).map Entry.key →
      ((front ++ [last]).length : Int) = capacity →
      Step capacity (front ++ [last]) ⟨time, .set key value ttl⟩ .done
        (⟨key, value, time + ttl⟩ :: front)
  /-- Reading a key that is not held. -/
  | miss {entries : List (Entry κ ν)} {time : Int} {key : κ} :
      key ∉ entries.map Entry.key →
      Step capacity entries ⟨time, .get key⟩ (.failed .cacheMiss) entries
  /-- Reading an expired entry is a miss and does not refresh it. -/
  | stale {front back : List (Entry κ ν)} {entry : Entry κ ν} {time : Int} {key : κ} :
      entry.key = key → entry.expired time = true →
      Step capacity (front ++ entry :: back) ⟨time, .get key⟩ (.failed .cacheMiss)
        (front ++ entry :: back)
  /-- Reading a live entry brings it to the front. -/
  | hit {front back : List (Entry κ ν)} {entry : Entry κ ν} {time : Int} {key : κ} :
      entry.key = key → entry.expired time = false →
      Step capacity (front ++ entry :: back) ⟨time, .get key⟩ (.found entry.value)
        (entry :: (front ++ back))
  /-- Deleting a key that is not held. -/
  | absent {entries : List (Entry κ ν)} {time : Int} {key : κ} :
      key ∉ entries.map Entry.key → Step capacity entries ⟨time, .delete key⟩ .done entries
  /-- Deleting a key. -/
  | delete {front back : List (Entry κ ν)} {entry : Entry κ ν} {time : Int} {key : κ} :
      entry.key = key →
      Step capacity (front ++ entry :: back) ⟨time, .delete key⟩ .done (front ++ back)
  /-- The purge drops exactly the expired entries. -/
  | purge {entries : List (Entry κ ν)} {time : Int} {order : Order κ} :
      Step capacity entries ⟨time, .removeExpired order⟩ .done
        (entries.filter fun entry => !entry.expired time)

/-! ## Representation -/

variable [DecidableEq κ]

/-- The linked list holds the entries in their order, and the index points at each of them. -/
structure Represents (m : Memory κ ν) (entries : List (Entry κ ν)) : Prop where
  /-- The elements hold the entries, in their order. -/
  held : m.evictList.map m.heap = entries.map Held.entry
  /-- The index leads from every key to the element that holds it. -/
  indexed : ∀ key elem, m.items.lookup key = some elem ↔
    elem ∈ m.evictList ∧ ∃ entry, m.heap elem = .entry entry ∧ entry.key = key
  /-- No element is at an address that is still free. -/
  allocated : ∀ elem ∈ m.evictList, elem < m.fresh
  /-- No element is in the list twice. -/
  distinct : m.evictList.Nodup

namespace Represents

variable {m : Memory κ ν} {entries : List (Entry κ ν)}

/-- The entries are what reading the list gives. -/
theorem entries_eq (rep : Represents m entries) : m.entries = entries := by
  have read : m.entries = (m.evictList.map m.heap).filterMap Held.asEntry := by
    rw [List.filterMap_map]
    rfl
  rw [read, rep.held, List.filterMap_map]
  exact List.filterMap_some

theorem keys_eq (rep : Represents m entries) : m.keys = entries.map Entry.key := by
  rw [Memory.keys, rep.entries_eq]

theorem length_eq (rep : Represents m entries) : m.evictList.length = entries.length := by
  simpa using congrArg List.length rep.held

/-- An element of the list splits list and entries at the same place. -/
theorem split_of_mem (rep : Represents m entries) {elem : Nat} (member : elem ∈ m.evictList) :
    ∃ before after front entry back, m.evictList = before ++ elem :: after ∧
      entries = front ++ entry :: back ∧ before.map m.heap = front.map Held.entry ∧
      after.map m.heap = back.map Held.entry ∧ m.heap elem = .entry entry ∧
      m.items.lookup entry.key = some elem := by
  obtain ⟨before, after, list⟩ := List.append_of_mem member
  have held := rep.held
  rw [list, List.map_append, List.map_cons] at held
  obtain ⟨front, rest, whole, head, tail⟩ := List.map_eq_append_iff.mp held.symm
  obtain ⟨entry, back, rfl, at_elem, behind⟩ := List.map_eq_cons_iff.mp tail
  refine ⟨before, after, front, entry, back, list, whole, head.symm, behind.symm,
    at_elem.symm, ?_⟩
  exact (rep.indexed entry.key elem).mpr ⟨member, entry, at_elem.symm, rfl⟩

/-- Every element holds an entry, and the index leads back from its key. -/
theorem lookup_of_mem (rep : Represents m entries) {elem : Nat} (member : elem ∈ m.evictList) :
    ∃ entry, m.heap elem = .entry entry ∧ m.items.lookup entry.key = some elem := by
  obtain ⟨before, after, front, entry, back, -, -, -, -, at_elem, found⟩ :=
    rep.split_of_mem member
  exact ⟨entry, at_elem, found⟩

/-- Different entries have different keys. -/
theorem keys_nodup (rep : Represents m entries) : (entries.map Entry.key).Nodup := by
  let keyOf (held : Held κ ν) : Option κ := held.asEntry.map Entry.key
  have keys : m.evictList.map (keyOf ∘ m.heap) = (entries.map Entry.key).map some := by
    rw [← List.map_map, rep.held, List.map_map, List.map_map]
    rfl
  have distinct : (m.evictList.map (keyOf ∘ m.heap)).Nodup := by
    refine List.Nodup.map_on ?_ rep.distinct
    intro first inFirst second inSecond same
    obtain ⟨one, at_first, found_first⟩ := rep.lookup_of_mem inFirst
    obtain ⟨two, at_second, found_second⟩ := rep.lookup_of_mem inSecond
    simp only [Function.comp_apply, at_first, at_second, keyOf, Held.asEntry, Option.map_some,
      Option.some.injEq] at same
    rw [same, found_second] at found_first
    exact (Option.some.inj found_first).symm
  rw [keys] at distinct
  exact distinct.of_map

/-- A key the index does not know is the key of no entry. -/
theorem lookup_eq_none_iff (rep : Represents m entries) (key : κ) :
    m.items.lookup key = none ↔ key ∉ entries.map Entry.key := by
  constructor
  · intro unknown member
    obtain ⟨entry, inEntries, rfl⟩ := List.mem_map.mp member
    have held : Held.entry entry ∈ m.evictList.map m.heap := by
      rw [rep.held]
      exact List.mem_map_of_mem inEntries
    obtain ⟨elem, inList, at_elem⟩ := List.mem_map.mp held
    have found := (rep.indexed entry.key elem).mpr ⟨inList, entry, at_elem, rfl⟩
    rw [unknown] at found
    cases found
  · intro missing
    cases found : m.items.lookup key with
    | none => rfl
    | some elem =>
        obtain ⟨inList, entry, at_elem, rfl⟩ := (rep.indexed key elem).mp found
        have held : Held.entry entry ∈ entries.map Held.entry := by
          rw [← rep.held, ← at_elem]
          exact List.mem_map_of_mem inList
        obtain ⟨same, inEntries, equal⟩ := List.mem_map.mp held
        cases equal
        exact absurd (List.mem_map_of_mem inEntries) missing

/-- A known key splits list and entries at the element it leads to. -/
theorem split_of_lookup (rep : Represents m entries) {key : κ} {elem : Nat}
    (found : m.items.lookup key = some elem) :
    ∃ before after front entry back, m.evictList = before ++ elem :: after ∧
      entries = front ++ entry :: back ∧ before.map m.heap = front.map Held.entry ∧
      after.map m.heap = back.map Held.entry ∧ m.heap elem = .entry entry ∧
      entry.key = key := by
  obtain ⟨inList, held, at_elem, same⟩ := (rep.indexed key elem).mp found
  obtain ⟨before, after, front, entry, back, list, whole, head, tail, at_entry, -⟩ :=
    rep.split_of_mem inList
  rw [at_elem] at at_entry
  cases at_entry
  exact ⟨before, after, front, held, back, list, whole, head, tail, at_elem, same⟩

/-! ## What the operations do to a represented list -/

theorem erase_split (rep : Represents m entries) {before after : List Nat} {elem : Nat}
    (list : m.evictList = before ++ elem :: after) :
    m.evictList.erase elem = before ++ after ∧ elem ∉ before ++ after := by
  have distinct := rep.distinct
  rw [list, List.nodup_middle, List.nodup_cons] at distinct
  have inFront : elem ∉ before := fun member => distinct.1 (List.mem_append_left _ member)
  rw [list, List.erase_append_right _ inFront, List.erase_cons_head]
  exact ⟨rfl, distinct.1⟩

/-- `MoveToFront` on the element of an entry. -/
theorem moveToFront (rep : Represents m entries) {before after : List Nat} {elem : Nat}
    {front back : List (Entry κ ν)} {entry : Entry κ ν}
    (list : m.evictList = before ++ elem :: after)
    (head : before.map m.heap = front.map Held.entry)
    (tail : after.map m.heap = back.map Held.entry) (at_elem : m.heap elem = .entry entry) :
    Represents (m.moveToFront elem) (entry :: (front ++ back)) ∧
      (m.moveToFront elem).evictList = elem :: (before ++ after) := by
  have member : elem ∈ m.evictList := by simp [list]
  have erased := (rep.erase_split list).1
  have perm : (elem :: (before ++ after)).Perm m.evictList := by
    rw [list]
    exact List.perm_middle.symm
  simp only [Memory.moveToFront, member, if_true, erased]
  refine ⟨⟨?_, fun key other => ?_, fun other inList => ?_, ?_⟩, trivial⟩
  · simp [at_elem, head, tail]
  · rw [rep.indexed key other, perm.mem_iff]
  · exact rep.allocated other (perm.mem_iff.mp inList)
  · exact perm.nodup_iff.mpr rep.distinct

/-- Overwriting the first entry in place, with its key as it was. -/
theorem overwriteFirst {entry changed : Entry κ ν} {elem : Nat} {rest : List Nat}
    (rep : Represents m (entry :: entries)) (list : m.evictList = elem :: rest)
    (same : changed.key = entry.key) :
    Represents { m with heap := Function.update m.heap elem (.entry changed) }
      (changed :: entries) := by
  have distinct := rep.distinct
  have held := rep.held
  rw [list, List.nodup_cons] at distinct
  simp only [list, List.map_cons, List.cons.injEq] at held
  have untouched : ∀ other ∈ rest,
      Function.update m.heap elem (Held.entry changed) other = m.heap other := by
    intro other inRest
    refine Function.update_of_ne ?_ _ _
    rintro rfl
    exact distinct.1 inRest
  refine ⟨?_, fun key other => ?_, rep.allocated, rep.distinct⟩
  · simp only [list, List.map_cons, Function.update_self, ← held.2]
    rw [List.map_congr_left untouched]
  · rw [rep.indexed key other]
    refine and_congr_right fun inList => ?_
    by_cases moved : other = elem
    · subst moved
      simp [held.1, same]
    · simp only [Function.update_of_ne moved]

/-- `removeElement` on the element of an entry. -/
theorem removeElement (rep : Represents m entries) {before after : List Nat} {elem : Nat}
    {front back : List (Entry κ ν)} {entry : Entry κ ν}
    (list : m.evictList = before ++ elem :: after)
    (head : before.map m.heap = front.map Held.entry)
    (tail : after.map m.heap = back.map Held.entry) (at_elem : m.heap elem = .entry entry) :
    (m.removeElement elem).2 = .ok () ∧
      Represents (m.removeElement elem).1 (front ++ back) ∧
      (m.removeElement elem).1.maxSize = m.maxSize ∧
      (m.removeElement elem).1.items = m.items.erase entry.key := by
  have member : elem ∈ m.evictList := by simp [list]
  obtain ⟨erased, gone⟩ := rep.erase_split list
  have found := (rep.indexed entry.key elem).mpr ⟨member, entry, at_elem, rfl⟩
  have kept : ∀ other, other ∈ before ++ after ↔ other ∈ m.evictList ∧ other ≠ elem := by
    intro other
    rw [← erased, rep.distinct.mem_erase_iff, and_comm]
  simp only [Memory.removeElement, Memory.toMemoryEntry, at_elem, erased]
  refine ⟨trivial, ⟨?_, fun key other => ?_, fun other inList => ?_, ?_⟩, trivial, trivial⟩
  · simp [head, tail]
  · by_cases same : key = entry.key
    · subst same
      rw [AList.lookup_erase]
      refine iff_of_false nofun ?_
      rintro ⟨inList, other_entry, at_other, same⟩
      have known := (kept other).mp inList
      have pointed := (rep.indexed entry.key other).mpr ⟨known.1, other_entry, at_other, same⟩
      rw [found] at pointed
      exact known.2 (Option.some.inj pointed).symm
    · rw [AList.lookup_erase_ne same, rep.indexed key other, kept other]
      refine and_congr_left fun ⟨held, at_other, key_eq⟩ => ?_
      refine (and_iff_left_of_imp fun _ => ?_).symm
      rintro rfl
      rw [at_elem] at at_other
      cases at_other
      exact same key_eq.symm
  · exact rep.allocated other ((kept other).mp inList).1
  · rw [← erased]
    exact rep.distinct.erase elem

/-- Pushing an entry with a new key to the front. -/
theorem pushFront (rep : Represents m entries) {entry : Entry κ ν}
    (missing : entry.key ∉ entries.map Entry.key) :
    Represents { m with
      items := m.items.insert entry.key m.fresh
      evictList := m.fresh :: m.evictList
      heap := Function.update m.heap m.fresh (.entry entry)
      fresh := m.fresh + 1 } (entry :: entries) := by
  have unused : m.fresh ∉ m.evictList := fun member =>
    absurd (rep.allocated _ member) (Nat.lt_irrefl _)
  have untouched : ∀ other ∈ m.evictList,
      Function.update m.heap m.fresh (Held.entry entry) other = m.heap other := by
    intro other inList
    refine Function.update_of_ne ?_ _ _
    rintro rfl
    exact unused inList
  refine ⟨?_, fun key elem => ?_, fun elem inList => ?_, ?_⟩
  · simp only [List.map_cons, Function.update_self, ← rep.held]
    rw [List.map_congr_left untouched]
  · have unknown := (rep.lookup_eq_none_iff entry.key).mpr missing
    simp only [List.mem_cons]
    by_cases pushed : elem = m.fresh
    · subst pushed
      rw [Function.update_self]
      by_cases same : key = entry.key
      · subst same
        simp [AList.lookup_insert]
      · rw [AList.lookup_insert_ne same]
        refine iff_of_false (fun found => ?_) ?_
        · exact unused ((rep.indexed key m.fresh).mp found).1
        · rintro ⟨-, held, at_fresh, key_eq⟩
          cases at_fresh
          exact same key_eq.symm
    · rw [Function.update_of_ne pushed]
      by_cases same : key = entry.key
      · subst same
        rw [AList.lookup_insert]
        refine iff_of_false (fun found => pushed (Option.some.inj found).symm) ?_
        rintro ⟨inList, held⟩
        have found := (rep.indexed entry.key elem).mpr ⟨inList.resolve_left pushed, held⟩
        rw [unknown] at found
        cases found
      · rw [AList.lookup_insert_ne same, rep.indexed key elem]
        simp [pushed]
  · rcases List.mem_cons.mp inList with rfl | older
    · exact Nat.lt_succ_self _
    · exact Nat.lt_succ_of_lt (rep.allocated elem older)
  · exact List.nodup_cons.mpr ⟨unused, rep.distinct⟩

end Represents

/-! ## The purge -/

omit [DecidableEq κ] in
/-- The keys in front of and behind an entry are not its key. -/
theorem key_ne_of_split {front back : List (Entry κ ν)} {entry other : Entry κ ν}
    (distinct : ((front ++ entry :: back).map Entry.key).Nodup) (member : other ∈ front ++ back) :
    other.key ≠ entry.key := by
  rw [List.map_append, List.map_cons, List.nodup_middle, List.nodup_cons,
    ← List.map_append] at distinct
  rintro equal
  exact distinct.1 (equal ▸ List.mem_map_of_mem member)

/-- One turn of the purge drops the entry of its key if that is expired. -/
theorem Represents.removeIfExpired {m : Memory κ ν} {entries : List (Entry κ ν)}
    (rep : Represents m entries) (now : Int) (item : Sigma fun _ : κ => Nat)
    (current : m.items.lookup item.1 = some item.2 ∨ m.items.lookup item.1 = none) :
    Represents (m.removeIfExpired now item)
        (entries.filter fun entry => !(entry.expired now && entry.key == item.1)) ∧
      (m.removeIfExpired now item).maxSize = m.maxSize ∧
      ∀ key elem, m.items.lookup key = some elem ∨ m.items.lookup key = none →
        (m.removeIfExpired now item).items.lookup key = some elem ∨
          (m.removeIfExpired now item).items.lookup key = none := by
  rcases current with found | unknown
  · obtain ⟨before, after, front, entry, back, list, rfl, head, tail, at_elem, same⟩ :=
      rep.split_of_lookup found
    have kept : ∀ other ∈ front ++ back,
        (!(other.expired now && other.key == item.1)) = true := by
      intro other member
      have differs : other.key ≠ item.1 := same ▸ key_ne_of_split rep.keys_nodup member
      simp [differs]
    have whole_front := List.filter_eq_self.mpr fun other member =>
      kept other (List.mem_append_left back member)
    have whole_back := List.filter_eq_self.mpr fun other member =>
      kept other (List.mem_append_right front member)
    rw [List.filter_append, List.filter_cons, whole_front, whole_back]
    cases stale : entry.expired now with
    | true =>
        have turned : m.removeIfExpired now item = (m.removeElement item.2).1 := by
          simp [Memory.removeIfExpired, found, Memory.toMemoryEntry, at_elem, stale]
        obtain ⟨-, represents, size, items⟩ := rep.removeElement list head tail at_elem
        rw [turned, items]
        simp only [same, beq_self_eq_true, Bool.and_self, Bool.not_true, Bool.false_eq_true,
          if_false]
        refine ⟨represents, size, fun key elem known => ?_⟩
        by_cases gone : key = item.1
        · exact Or.inr (gone ▸ AList.lookup_erase _ _)
        · rwa [AList.lookup_erase_ne gone]
    | false =>
        have turned : m.removeIfExpired now item = m := by
          simp [Memory.removeIfExpired, found, Memory.toMemoryEntry, at_elem, stale]
        rw [turned]
        exact ⟨rep, rfl, fun _ _ known => known⟩
  · have turned : m.removeIfExpired now item = m := by
      simp [Memory.removeIfExpired, unknown]
    have missing := (rep.lookup_eq_none_iff item.1).mp unknown
    have kept : entries.filter (fun entry => !(entry.expired now && entry.key == item.1)) =
        entries := by
      rw [List.filter_eq_self]
      intro entry member
      have differs : entry.key ≠ item.1 := fun equal =>
        missing (equal ▸ List.mem_map_of_mem member)
      simp [differs]
    rw [turned, kept]
    exact ⟨rep, rfl, fun _ _ known => known⟩

/-- The turns of the purge drop the expired entries of the keys they visit. -/
theorem Represents.foldl_removeIfExpired (now : Int) (items : List (Sigma fun _ : κ => Nat))
    {m : Memory κ ν} {entries : List (Entry κ ν)} (rep : Represents m entries)
    (current : ∀ item ∈ items,
      m.items.lookup item.1 = some item.2 ∨ m.items.lookup item.1 = none) :
    Represents (items.foldl (Memory.removeIfExpired now) m)
        (entries.filter fun entry =>
          !(entry.expired now && items.any fun item => entry.key == item.1)) ∧
      (items.foldl (Memory.removeIfExpired now) m).maxSize = m.maxSize := by
  induction items generalizing m entries with
  | nil => simpa using rep
  | cons item rest ih =>
      obtain ⟨represents, size, lookups⟩ :=
        rep.removeIfExpired now item (current item List.mem_cons_self)
      obtain ⟨purged, same⟩ := ih represents fun other member =>
        lookups other.1 other.2 (current other (List.mem_cons_of_mem _ member))
      refine ⟨?_, same.trans size⟩
      rw [List.filter_filter] at purged
      rw [List.foldl_cons]
      convert purged using 3 with entry
      simp only [List.any_cons]
      cases entry.expired now <;> cases entry.key == item.1 <;> simp

/-- The purge drops the expired entries, in whatever order it visits the index. -/
theorem Represents.removeExpired {m : Memory κ ν} {entries : List (Entry κ ν)}
    (rep : Represents m entries) (now : Int) (order : Order κ) :
    Represents (m.removeExpired now order) (entries.filter fun entry => !entry.expired now) ∧
      (m.removeExpired now order).maxSize = m.maxSize := by
  have current : ∀ item ∈ order.arrange m.items.entries,
      m.items.lookup item.1 = some item.2 ∨ m.items.lookup item.1 = none := by
    intro item member
    exact Or.inl (AList.mem_lookup_iff.mpr ((order.perm _).mem_iff.mp member))
  have visited : ∀ entry ∈ entries,
      ((order.arrange m.items.entries).any fun item => entry.key == item.1) = true := by
    intro entry member
    have known : m.items.lookup entry.key ≠ none := fun unknown =>
      (rep.lookup_eq_none_iff entry.key).mp unknown (List.mem_map_of_mem member)
    obtain ⟨elem, found⟩ := Option.ne_none_iff_exists'.mp known
    have listed := (order.perm m.items.entries).mem_iff.mpr (AList.mem_lookup_iff.mp found)
    exact List.any_eq_true.mpr ⟨_, listed, beq_self_eq_true entry.key⟩
  have purged := rep.foldl_removeIfExpired now (order.arrange m.items.entries) current
  have same : (entries.filter fun entry => !(entry.expired now &&
      (order.arrange m.items.entries).any fun item => entry.key == item.1)) =
      entries.filter fun entry => !entry.expired now := by
    refine List.filter_congr fun entry member => ?_
    rw [visited entry member, Bool.and_true]
  rwa [same] at purged

/-! ## Refinement -/

/-- A cache that represents a recency list within its capacity. -/
structure Holds (capacity : Int) (m : Memory κ ν) (entries : List (Entry κ ν)) : Prop where
  /-- The entries are those of the recency list. -/
  represents : Represents m entries
  /-- There are not more than the capacity allows. -/
  bounded : (entries.length : Int) ≤ capacity
  /-- The capacity is that of the cache. -/
  size : m.maxSize = capacity

omit [DecidableEq κ] in
theorem maxSize_moveToFront (m : Memory κ ν) (elem : Nat) :
    (m.moveToFront elem).maxSize = m.maxSize := by
  unfold Memory.moveToFront
  split_ifs <;> rfl

namespace Holds

variable {capacity : Int} {m : Memory κ ν} {entries : List (Entry κ ν)}

theorem get (holds : Holds capacity m entries) (now : Int) (key : κ) :
    ∃ after, Lru.Step capacity entries ⟨now, .get key⟩ (.ofValue (m.get now key).2) after ∧
      Holds capacity (m.get now key).1 after := by
  cases found : m.items.lookup key with
  | none =>
      have replied : m.get now key = (m, .error .cacheMiss) := by
        simp only [Memory.get, found]
      rw [replied]
      exact ⟨entries, .miss ((holds.represents.lookup_eq_none_iff key).mp found), holds⟩
  | some elem =>
      obtain ⟨before, after, front, entry, back, list, rfl, head, tail, at_elem, same⟩ :=
        holds.represents.split_of_lookup found
      cases stale : entry.expired now with
      | true =>
          have replied : m.get now key = (m, .error .cacheMiss) := by
            simp [Memory.get, found, Memory.toMemoryEntry, at_elem, stale]
          rw [replied]
          exact ⟨front ++ entry :: back, .stale same stale, holds⟩
      | false =>
          have replied : m.get now key = (m.moveToFront elem, .ok entry.value) := by
            simp [Memory.get, found, Memory.toMemoryEntry, at_elem, stale]
          have moved := (holds.represents.moveToFront list head tail at_elem).1
          rw [replied]
          refine ⟨entry :: (front ++ back), .hit same stale, moved, ?_,
            (maxSize_moveToFront m elem).trans holds.size⟩
          have bounded := holds.bounded
          simp only [List.length_append, List.length_cons] at bounded ⊢
          omega

/-- The eviction loop ends at once while there is room. -/
theorem evictLoop_of_room (turns : Nat) (room : (m.evictList.length : Int) < m.maxSize) :
    Memory.evictLoop (turns + 1) m = some (m, .ok ()) := by
  rw [Memory.evictLoop, if_pos room]

/-- In a full cache, the eviction loop takes the last entry away and ends. -/
theorem evictLoop_of_full (holds : Holds capacity m entries) (positive : 1 ≤ capacity)
    (full : (entries.length : Int) = capacity) :
    ∃ front last room, entries = front ++ [last] ∧
      Memory.evictLoop (m.evictList.length + 1) m = some (room, .ok ()) ∧
      Represents room front ∧ room.maxSize = capacity := by
  have sized := holds.represents.length_eq
  rcases List.eq_nil_or_concat m.evictList with empty | ⟨before, elem, list⟩
  · rw [empty, List.length_nil] at sized
    omega
  · rw [List.concat_eq_append] at list
    have held := holds.represents.held
    rw [list, List.map_append] at held
    obtain ⟨front, rest, rfl, head, tail⟩ := List.map_eq_append_iff.mp held.symm
    obtain ⟨last, behind, rfl, at_last, nothing⟩ := List.map_eq_cons_iff.mp tail
    have ended : behind = [] := List.map_eq_nil_iff.mp nothing
    subst ended
    obtain ⟨removed, represents, size, -⟩ :=
      holds.represents.removeElement list head.symm nothing.symm at_last.symm
    rw [List.append_nil] at represents
    have room : (((m.removeElement elem).1.evictList.length : Nat) : Int) <
        (m.removeElement elem).1.maxSize := by
      rw [represents.length_eq, size, holds.size, ← full, List.length_append, List.length_singleton]
      omega
    have turned : m.evictOldest = ((m.removeElement elem).1, .ok ()) := by
      rw [Memory.evictOldest, list, List.getLast?_concat, ← removed]
    refine ⟨front, last, (m.removeElement elem).1, rfl, ?_, represents, size.trans holds.size⟩
    have turns : m.evictList.length = before.length + 1 := by simp [list]
    have crowded : ¬ (m.evictList.length : Int) < m.maxSize := by
      rw [sized, full, holds.size]
      exact Int.lt_irrefl capacity
    rw [Memory.evictLoop, if_neg crowded, turned, turns]
    exact evictLoop_of_room before.length room

theorem set (holds : Holds capacity m entries) (positive : 1 ≤ capacity) (now : Int) (key : κ)
    (value : ν) (ttl : Int) :
    ∃ m' after, m.set now key value ttl = some (m', .ok ()) ∧
      Lru.Step capacity entries ⟨now, .set key value ttl⟩ .done after ∧
      Holds capacity m' after := by
  cases found : m.items.lookup key with
  | some elem =>
      obtain ⟨before, after, front, entry, back, list, rfl, head, tail, at_elem, rfl⟩ :=
        holds.represents.split_of_lookup found
      obtain ⟨moved, reordered⟩ := holds.represents.moveToFront list head tail at_elem
      have heap_moved : (m.moveToFront elem).heap elem = .entry entry := by
        unfold Memory.moveToFront
        split_ifs <;> exact at_elem
      have replied : m.set now entry.key value ttl = some ({ m.moveToFront elem with
          heap := Function.update (m.moveToFront elem).heap elem
            (.entry ⟨entry.key, value, now + ttl⟩) }, .ok ()) := by
        simp only [Memory.set, found, Memory.toMemoryEntry, heap_moved]
      refine ⟨_, ⟨entry.key, value, now + ttl⟩ :: (front ++ back), replied, .overwrite rfl,
        moved.overwriteFirst reordered rfl, ?_, (maxSize_moveToFront m elem).trans holds.size⟩
      have bounded := holds.bounded
      simp only [List.length_append, List.length_cons] at bounded ⊢
      omega
  | none =>
      have missing := (holds.represents.lookup_eq_none_iff key).mp found
      have sized := holds.represents.length_eq
      by_cases room : (entries.length : Int) < capacity
      · have ended := evictLoop_of_room m.evictList.length (by rwa [sized, holds.size])
        refine ⟨_, ⟨key, value, now + ttl⟩ :: entries, by simp only [Memory.set, found, ended],
          .insert missing room, holds.represents.pushFront missing, ?_, holds.size⟩
        simp only [List.length_cons]
        omega
      · have full : (entries.length : Int) = capacity :=
          Int.le_antisymm holds.bounded (Int.not_lt.mp room)
        obtain ⟨front, last, emptied, rfl, ended, represents, size⟩ :=
          holds.evictLoop_of_full positive full
        have fewer : key ∉ front.map Entry.key := fun member =>
          missing (by rw [List.map_append]; exact List.mem_append_left _ member)
        refine ⟨_, ⟨key, value, now + ttl⟩ :: front, by simp only [Memory.set, found, ended],
          .evict missing full, represents.pushFront fewer, ?_, size⟩
        simp only [List.length_append, List.length_cons] at full ⊢
        omega

theorem delete (holds : Holds capacity m entries) (now : Int) (key : κ) :
    ∃ after, Lru.Step capacity entries ⟨now, .delete key⟩ (.ofResult (m.delete key).2) after ∧
      Holds capacity (m.delete key).1 after := by
  cases found : m.items.lookup key with
  | none =>
      have replied : m.delete key = (m, .ok ()) := by simp only [Memory.delete, found]
      rw [replied]
      exact ⟨entries, .absent ((holds.represents.lookup_eq_none_iff key).mp found), holds⟩
  | some elem =>
      obtain ⟨before, after, front, entry, back, list, rfl, head, tail, at_elem, same⟩ :=
        holds.represents.split_of_lookup found
      obtain ⟨removed, represents, size, -⟩ :=
        holds.represents.removeElement list head tail at_elem
      have replied : m.delete key = ((m.removeElement elem).1, .ok ()) := by
        rw [← removed]
        simp only [Memory.delete, found]
      rw [replied]
      refine ⟨front ++ back, .delete same, represents, ?_, size.trans holds.size⟩
      have bounded := holds.bounded
      simp only [List.length_append, List.length_cons] at bounded ⊢
      omega

theorem removeExpired (holds : Holds capacity m entries) (now : Int) (order : Order κ) :
    Holds capacity (m.removeExpired now order)
      (entries.filter fun entry => !entry.expired now) := by
  obtain ⟨represents, size⟩ := holds.represents.removeExpired now order
  refine ⟨represents, ?_, size.trans holds.size⟩
  have fewer := List.length_filter_le (fun entry => !entry.expired now) entries
  have bounded := holds.bounded
  omega

/-- Every call returns and takes a step of the recency list. -/
theorem perform (holds : Holds capacity m entries) (positive : 1 ≤ capacity) (call : Call κ ν) :
    ∃ m' reply after, m.perform call = some (m', reply) ∧
      Lru.Step capacity entries call reply after ∧ Holds capacity m' after := by
  obtain ⟨time, op⟩ := call
  cases op with
  | set key value ttl =>
      obtain ⟨m', after, returned, step, kept⟩ := holds.set positive time key value ttl
      refine ⟨m', .done, after, ?_, step, kept⟩
      simp [Memory.perform, returned, Reply.ofResult]
  | get key =>
      obtain ⟨after, step, kept⟩ := holds.get time key
      exact ⟨_, _, after, rfl, step, kept⟩
  | delete key =>
      obtain ⟨after, step, kept⟩ := holds.delete time key
      exact ⟨_, _, after, rfl, step, kept⟩
  | removeExpired order => exact ⟨_, _, _, rfl, .purge, holds.removeExpired time order⟩

end Holds

/-- A new cache holds the empty list. -/
theorem holds_newMemory {capacity : Int} (positive : 1 ≤ capacity) :
    Holds capacity (Memory.newMemory capacity : Memory κ ν) [] := by
  refine ⟨⟨rfl, fun key elem => ?_, nofun, List.nodup_nil⟩, ?_, rfl⟩
  · exact iff_of_false nofun fun inList => nomatch inList.1
  · simp only [List.length_nil]
    omega

end CommonGo.Cache
