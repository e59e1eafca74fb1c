import CommonGo.Program.Procedure

/-!
# Procedures that share a resource under one lock

Any number of callers run procedures over a shared resource, and their operations interleave.  One
lock, which others may hold too, is meant to keep them apart; nothing but the procedures themselves
sees to that.  A resource has an invariant that a caller may rely on when it gets the lock and has
to keep while it has it.  If every procedure is safe taken by itself, the invariant holds at all
times however the operations interleave.
-/

namespace CommonGo.Program

/-- What the replies to an operation mean. -/
structure Protocol (Op : Type) (Reply : Op → Type) (S : Type) where
  /-- The caller has got the lock. -/
  acquires : (op : Op) → Reply op → Prop
  /-- The caller has given the lock back. -/
  releases : (op : Op) → Reply op → Prop
  /-- Nothing has happened. -/
  idles : (op : Op) → Reply op → Prop
  /-- The resource has been used, and may have changed. -/
  works : (op : Op) → S → Reply op → S → Prop

/-- Who has the lock. -/
inductive Holder (ι : Type) where
  | nobody
  | caller (i : ι)
  /-- Somebody who does not touch the resource. -/
  | stranger

/-- The callers, the lock and the resource. -/
structure Contest (ι Op : Type) (Reply : Op → Type) (S α : Type) where
  /-- Who has the lock. -/
  holder : Holder ι
  /-- What the lock guards. -/
  resource : S
  /-- What is left of each caller's procedure. -/
  code : ι → Procedure Op Reply α

variable {ι Op : Type} {Reply : Op → Type} {S α β : Type}

/-- One operation of a caller, or a stranger at the lock. -/
inductive Contest.Step [DecidableEq ι] (protocol : Protocol Op Reply S)
    (contest : Contest ι Op Reply S α) : Contest ι Op Reply S α → Prop
  | acquire {i : ι} {op : Op} {next : Reply op → Procedure Op Reply α} {reply : Reply op}
      (code : contest.code i = .call op next) (means : protocol.acquires op reply)
      (free : contest.holder = .nobody) :
      Step protocol contest { contest with
        holder := .caller i, code := Function.update contest.code i (next reply) }
  | release {i : ι} {op : Op} {next : Reply op → Procedure Op Reply α} {reply : Reply op}
      (code : contest.code i = .call op next) (means : protocol.releases op reply)
      (held : contest.holder = .caller i) :
      Step protocol contest { contest with
        holder := .nobody, code := Function.update contest.code i (next reply) }
  | idle {i : ι} {op : Op} {next : Reply op → Procedure Op Reply α} {reply : Reply op}
      (code : contest.code i = .call op next) (means : protocol.idles op reply) :
      Step protocol contest { contest with code := Function.update contest.code i (next reply) }
  | work {i : ι} {op : Op} {next : Reply op → Procedure Op Reply α} {reply : Reply op} {after : S}
      (code : contest.code i = .call op next)
      (means : protocol.works op contest.resource reply after) :
      Step protocol contest { contest with
        resource := after, code := Function.update contest.code i (next reply) }
  | enter (free : contest.holder = .nobody) :
      Step protocol contest { contest with holder := .stranger }
  | leave (held : contest.holder = .stranger) :
      Step protocol contest { contest with holder := .nobody }

/-! ## A procedure by itself -/

/-- What a procedure may do, with the resource while it has the lock: it uses the resource only then
and keeps the invariant, and `post` holds of its result. -/
def Safe (protocol : Protocol Op Reply S) (inv : S → Prop) (post : α → Option S → Prop) :
    Procedure Op Reply α → Option S → Prop
  | .done result, held => post result held
  | .call op next, none =>
      (∀ reply, protocol.acquires op reply →
        ∀ resource, inv resource → Safe protocol inv post (next reply) (some resource)) ∧
      (∀ reply, protocol.idles op reply → Safe protocol inv post (next reply) none) ∧
      ∀ resource reply after, ¬ protocol.works op resource reply after
  | .call op next, some resource =>
      (∀ reply, protocol.releases op reply → Safe protocol inv post (next reply) none) ∧
      (∀ reply, protocol.idles op reply → Safe protocol inv post (next reply) (some resource)) ∧
      ∀ reply after, protocol.works op resource reply after →
        inv after ∧ Safe protocol inv post (next reply) (some after)

section Rules

variable {protocol : Protocol Op Reply S} {inv : S → Prop} {post other : α → Option S → Prop}

theorem Safe.mono {p : Procedure Op Reply α} {held : Option S}
    (safe : Safe protocol inv post p held)
    (weaker : ∀ result held, post result held → other result held) :
    Safe protocol inv other p held := by
  induction p generalizing held with
  | done result => exact weaker result held safe
  | call op next ih =>
      cases held with
      | none =>
          obtain ⟨acquire, idle, unused⟩ := safe
          exact ⟨fun reply means resource holds => ih reply (acquire reply means resource holds),
            fun reply means => ih reply (idle reply means), unused⟩
      | some resource =>
          obtain ⟨release, idle, work⟩ := safe
          refine ⟨fun reply means => ih reply (release reply means),
            fun reply means => ih reply (idle reply means), fun reply after means => ?_⟩
          obtain ⟨holds, rest⟩ := work reply after means
          exact ⟨holds, ih reply rest⟩

theorem Safe.bind {p : Procedure Op Reply α} {f : α → Procedure Op Reply β}
    {post : β → Option S → Prop} {held : Option S}
    (safe : Safe protocol inv (fun result held => Safe protocol inv post (f result) held) p held) :
    Safe protocol inv post (p >>= f) held := by
  induction p generalizing held with
  | done result => exact safe
  | call op next ih =>
      cases held with
      | none =>
          obtain ⟨acquire, idle, unused⟩ := safe
          exact ⟨fun reply means resource holds => ih reply (acquire reply means resource holds),
            fun reply means => ih reply (idle reply means), unused⟩
      | some resource =>
          obtain ⟨release, idle, work⟩ := safe
          refine ⟨fun reply means => ih reply (release reply means),
            fun reply means => ih reply (idle reply means), fun reply after means => ?_⟩
          obtain ⟨holds, rest⟩ := work reply after means
          exact ⟨holds, ih reply rest⟩

end Rules

/-! ## All procedures together -/

/-- What a caller has of the resource. -/
def Contest.share [DecidableEq ι] (contest : Contest ι Op Reply S α) (i : ι) : Option S :=
  match contest.holder with
  | .caller j => if i = j then some contest.resource else none
  | _ => none

/-- The invariant of the resource holds, and every caller is safe with what it has. -/
structure Contest.Sound [DecidableEq ι] (protocol : Protocol Op Reply S) (inv : S → Prop)
    (contest : Contest ι Op Reply S α) : Prop where
  /-- The invariant holds of the resource. -/
  holds : inv contest.resource
  /-- What is left of a caller is safe, with the resource if it has the lock. -/
  safe : ∀ i, Safe protocol inv (fun _ _ => True) (contest.code i) (contest.share i)

section Sound

variable [DecidableEq ι] {protocol : Protocol Op Reply S} {inv : S → Prop}
  {contest after : Contest ι Op Reply S α} {i j : ι}

theorem Contest.share_caller (held : contest.holder = .caller i) :
    contest.share i = some contest.resource := by
  simp [share, held]

theorem Contest.share_other (held : contest.holder = .caller j) (other : i ≠ j) :
    contest.share i = none := by
  simp [share, held, other]

theorem Contest.share_nobody (free : contest.holder = .nobody) : contest.share i = none := by
  simp [share, free]

/-- What the others have after a step of one caller. -/
theorem Contest.Sound.update {holder : Holder ι} {resource : S} {code : Procedure Op Reply α}
    (sound : contest.Sound protocol inv) (holds : inv resource)
    (itself : Safe protocol inv (fun _ _ => True) code
      (share { contest with holder, resource } i))
    (others : ∀ j, j ≠ i → share { contest with holder, resource } j = contest.share j) :
    Sound protocol inv
      { holder, resource, code := Function.update contest.code i code } := by
  refine ⟨holds, fun j => ?_⟩
  by_cases here : j = i
  · subst here
    simpa [share] using itself
  · have same := sound.safe j
    rw [← others j here] at same
    simpa [share, here] using same

/-- No step of a safe caller breaks the invariant. -/
theorem Contest.Sound.step (sound : contest.Sound protocol inv)
    (stepped : Step protocol contest after) : after.Sound protocol inv := by
  cases stepped with
  | @acquire i op next reply code means free =>
      have safe := sound.safe i
      rw [code, share_nobody free] at safe
      refine sound.update sound.holds ?_ fun j other => ?_
      · rw [share_caller rfl]
        exact safe.1 reply means _ sound.holds
      · rw [share_other rfl other, share_nobody free]
  | @release i op next reply code means held =>
      have safe := sound.safe i
      rw [code, share_caller held] at safe
      refine sound.update sound.holds ?_ fun j other => ?_
      · rw [share_nobody rfl]
        exact safe.1 reply means
      · rw [share_nobody rfl, share_other held other]
  | @idle i op next reply code means =>
      have safe := sound.safe i
      rw [code] at safe
      refine sound.update sound.holds ?_ fun j _ => rfl
      cases has : contest.share i with
      | none =>
          rw [has] at safe
          exact safe.2.1 reply means
      | some resource =>
          rw [has] at safe
          exact safe.2.1 reply means
  | @work i op next reply resource code means =>
      have safe := sound.safe i
      rw [code] at safe
      cases holder : contest.holder with
      | caller k =>
          by_cases here : i = k
          · subst here
            rw [share_caller holder] at safe
            obtain ⟨holds, rest⟩ := safe.2.2 reply resource means
            refine sound.update holds ?_ fun j other => ?_
            · rw [share_caller rfl]
              exact rest
            · rw [share_other rfl other, share_other holder other]
          · rw [share_other holder here] at safe
            exact absurd means (safe.2.2 _ _ _)
      | nobody =>
          rw [share_nobody holder] at safe
          exact absurd means (safe.2.2 _ _ _)
      | stranger =>
          have without : contest.share i = none := by simp [share, holder]
          rw [without] at safe
          exact absurd means (safe.2.2 _ _ _)
  | enter free =>
      refine ⟨sound.holds, fun i => ?_⟩
      have safe := sound.safe i
      rwa [share_nobody free] at safe
  | leave held =>
      refine ⟨sound.holds, fun i => ?_⟩
      have safe := sound.safe i
      have without : contest.share i = none := by simp [share, held]
      rwa [without] at safe

end Sound

end CommonGo.Program
