import Mathlib.Logic.Function.Basic
import CommonGo.Mq.Consume
import CommonGo.Program.Run

/-!
# The members of a queue group

All members of a queue group share one durable consumer on the server, which carries the name of
the group.  A member looks the consumer up and creates it if it is missing.  Who created it deletes
it again when it unsubscribes, and who found it does not.
-/

namespace CommonGo.Mq

open Program

variable {ι γ μ ε : Type}

/-- What keeps a call of `Subscribe` from subscribing. -/
inductive SubscribeError (ε : Type) where
  /-- The second lookup does not find the consumer that the server refused to create. -/
  | consumerNotFound
  | server (err : ε)
  deriving DecidableEq, Repr

/-- The result of a call of `Subscribe`. -/
inductive Outcome (ε : Type) where
  | refused (err : Option (Error (SubscribeError ε)))
  | consumed (result : Option (Error (NextError ε)))
  deriving DecidableEq

/-- The errors of `Client.subscribe` under the messages of `subscribe` and `Subscribe`. -/
def refuse (err : SubscribeError ε) : Outcome ε :=
  .refused (wrap (wrap (some (.base err)) "queue subscribe") "jetstream subscribe")

/-- Where a call of `Subscribe` is. -/
inductive Membership (γ μ ε : Type) where
  | outside
  /-- The lookup did not find the consumer. -/
  | missed
  /-- The server refused to create the consumer, which exists by now. -/
  | clashed
  /-- A lookup found the consumer; the subscription is not bound to it yet. -/
  | found
  /-- The call runs `consumeLoop`; `created` is the flag `dc` of its subscription. -/
  | consuming (created : Bool) (loop : Loop γ μ ε)
  | returned (outcome : Outcome ε)
  deriving DecidableEq

namespace Membership

/-- The call has completed its internal `subscribe` and has not returned. -/
def active : Membership γ μ ε → Bool
  | consuming _ _ => true
  | _ => false

/-- The call is active, or it will be without asking the server again. -/
def attached : Membership γ μ ε → Bool
  | found => true
  | consuming _ _ => true
  | _ => false

/-- The call is active and has created the consumer. -/
def owner : Membership γ μ ε → Bool
  | consuming created _ => created
  | _ => false

theorem attached_of_active {membership : Membership γ μ ε} (active : membership.active = true) :
    membership.attached = true := by
  cases membership with
  | consuming _ _ => rfl
  | _ => cases active

end Membership

/-- A queue group: whether its durable consumer exists on the server, the calls of `Subscribe` and
their contexts. -/
structure Group (ι γ μ ε : Type) where
  /-- Whether the durable consumer exists. -/
  consumer : Bool
  /-- How far each call of `Subscribe` is. -/
  member : ι → Membership γ μ ε
  /-- Why each context is done, if it is. -/
  ctx : ι → Option (ContextError ε)

/-- What happens next in a group. -/
inductive GroupAction (ι γ μ ε : Type) where
  /-- The server answers the lookup of `QueueSubscribeSync`. -/
  | lookup (caller : ι)
  /-- The server answers the request to create the consumer. -/
  | create (caller : ι)
  /-- The server answers the lookup that follows a refused request. -/
  | lookupAgain (caller : ι)
  | bind (caller : ι)
  /-- The server, or the connection to it, gives an error to a call that is not active yet. -/
  | refuse (caller : ι) (err : ε)
  | turn (caller : ι) (turn : Turn γ μ ε)
  | cancel (caller : ι) (err : ContextError ε)
  /-- The deferred `Unsubscribe`, and the return; `reached` says whether it comes as far as a
  request to delete the consumer that the server carries out. -/
  | leave (caller : ι) (reached : Bool)

namespace Group

/-- Nobody has called `Subscribe` yet; the consumer may be there from earlier. -/
def start (consumer : Bool) : Group ι γ μ ε := ⟨consumer, fun _ => .outside, fun _ => none⟩

/-- While a call is active the consumer exists. -/
def Served (group : Group ι γ μ ε) : Prop :=
  ∀ caller, (group.member caller).active = true → group.consumer = true

/-- While a call is active, or will be without asking the server again, the consumer exists. -/
def Kept (group : Group ι γ μ ε) : Prop :=
  ∀ caller, (group.member caller).attached = true → group.consumer = true

/-- The consumer is not deleted under a call that is active or will be without asking again. -/
def Spares (group : Group ι γ μ ε) : GroupAction ι γ μ ε → Prop
  | .leave caller true => (group.member caller).owner = true →
      ∀ other, other ≠ caller → (group.member other).attached = false
  | _ => True

variable [DecidableEq ι]

/-- A call comes to a new place, with the consumer there or not. -/
def move (group : Group ι γ μ ε) (caller : ι) (consumer : Bool)
    (membership : Membership γ μ ε) : Group ι γ μ ε :=
  { group with consumer, member := Function.update group.member caller membership }

/-- One action; `none` if it cannot happen. -/
def step (group : Group ι γ μ ε) : GroupAction ι γ μ ε → Option (Group ι γ μ ε)
  | .lookup caller =>
      match group.member caller with
      | .outside => some (group.move caller group.consumer
          (if group.consumer then .found else .missed))
      | _ => none
  | .create caller =>
      match group.member caller with
      | .missed => some (group.move caller true
          (if group.consumer then .clashed else .consuming true .calling))
      | _ => none
  | .lookupAgain caller =>
      match group.member caller with
      | .clashed => some (group.move caller group.consumer
          (if group.consumer then .found else .returned (refuse .consumerNotFound)))
      | _ => none
  | .bind caller =>
      match group.member caller with
      | .found => some (group.move caller group.consumer (.consuming false .calling))
      | _ => none
  | .refuse caller err =>
      match group.member caller with
      | .consuming _ _ => none
      | .returned _ => none
      | _ => some (group.move caller group.consumer (.returned (refuse (.server err))))
  | .turn caller turn =>
      match group.member caller with
      | .consuming created loop => (loop.step (group.ctx caller) turn).map fun loop =>
          group.move caller group.consumer (.consuming created loop)
      | _ => none
  | .cancel caller err =>
      match group.ctx caller with
      | none => some { group with ctx := Function.update group.ctx caller (some err) }
      | some _ => none
  | .leave caller reached =>
      match group.member caller with
      | .consuming created (.returned result) =>
          some (group.move caller (group.consumer && !(created && reached))
            (.returned (.consumed result)))
      | _ => none

variable {group next : Group ι γ μ ε} {action : GroupAction ι γ μ ε}

section Move

variable {caller other : ι} {consumer : Bool} {membership : Membership γ μ ε}

@[simp] theorem move_consumer : (group.move caller consumer membership).consumer = consumer := rfl

@[simp] theorem move_member_self :
    (group.move caller consumer membership).member caller = membership :=
  Function.update_self ..

theorem move_member_of_ne (differs : other ≠ caller) :
    (group.move caller consumer membership).member other = group.member other :=
  Function.update_of_ne differs ..

end Move

/-! ## What a step keeps -/

omit [DecidableEq ι] in
theorem Kept.served (kept : group.Kept) : group.Served :=
  fun caller active => kept caller (Membership.attached_of_active active)

/-- A move keeps the consumer for the others as long as it is there for those who need it. -/
theorem Kept.move {caller : ι} {consumer : Bool} {membership : Membership γ μ ε}
    (own : membership.attached = true → consumer = true)
    (others : ∀ other, other ≠ caller → (group.member other).attached = true → consumer = true) :
    (group.move caller consumer membership).Kept := by
  intro other attached
  by_cases same : other = caller
  · subst same
    exact own (by simpa using attached)
  · exact others other same (by rwa [move_member_of_ne same] at attached)

/-- A call that leaves the consumer as it is keeps it, if it is there for the call itself. -/
theorem Kept.stay (kept : group.Kept) {caller : ι} {membership : Membership γ μ ε}
    (own : membership.attached = true → group.consumer = true) :
    (group.move caller group.consumer membership).Kept :=
  Kept.move own fun other _ => kept other

/-- Every action that spares the consumer keeps it. -/
theorem Kept.step (kept : group.Kept) (spares : group.Spares action)
    (stepped : group.step action = some next) : next.Kept := by
  cases action with
  | lookup caller =>
      rw [Group.step] at stepped
      split at stepped
      · cases stepped
        apply kept.stay
        cases group.consumer <;> simp [Membership.attached]
      · cases stepped
  | create caller =>
      rw [Group.step] at stepped
      split at stepped
      · cases stepped
        exact Kept.move (fun _ => rfl) fun _ _ _ => rfl
      · cases stepped
  | lookupAgain caller =>
      rw [Group.step] at stepped
      split at stepped
      · cases stepped
        apply kept.stay
        cases group.consumer <;> simp [Membership.attached]
      · cases stepped
  | bind caller =>
      rw [Group.step] at stepped
      split at stepped
      · next found =>
          cases stepped
          exact kept.stay fun _ => kept caller (by rw [found]; rfl)
      · cases stepped
  | refuse caller err =>
      rw [Group.step] at stepped
      split at stepped
      · cases stepped
      · cases stepped
      · cases stepped
        exact kept.stay nofun
  | turn caller turn =>
      rw [Group.step] at stepped
      split at stepped
      · next consuming =>
          obtain ⟨loop, _, rfl⟩ := Option.map_eq_some_iff.mp stepped
          exact kept.stay fun _ => kept caller (by rw [consuming]; rfl)
      · cases stepped
  | cancel caller err =>
      rw [Group.step] at stepped
      split at stepped
      · cases stepped
        exact kept
      · cases stepped
  | leave caller reached =>
      rw [Group.step] at stepped
      split at stepped
      · next created result consuming =>
          cases stepped
          refine Kept.move nofun ?_
          intro other differs attached
          rw [kept other attached, Bool.true_and, Bool.not_eq_true', Bool.and_eq_false_imp]
          rintro rfl
          -- The creator leaves; were the consumer deleted, nobody else would need it.
          rw [Bool.eq_false_iff]
          rintro rfl
          have alone := spares (by rw [consuming]; rfl) other differs
          rw [alone] at attached
          cases attached
      · cases stepped

/-! ## Runs -/

omit [DecidableEq ι] in
theorem start_kept (consumer : Bool) : (start consumer : Group ι γ μ ε).Kept := nofun

/-- In a run in which nobody deletes the consumer under another call, the consumer exists while a
call is active. -/
theorem served_of_spares {consumer : Bool} {actions : List (GroupAction ι γ μ ε)}
    (spares : ∀ middle action, Takes step (start consumer) actions middle action →
      middle.Spares action) :
    ∀ middle, Passes step (start consumer) actions middle → middle.Served := by
  rintro middle ⟨front, initial, ran⟩
  have kept : middle.Kept := runFrom_guarded Kept.step (start_kept consumer)
    (fun earlier action takes => spares earlier action (takes.longer initial)) ran
  exact kept.served

/-- A member that joined leaves, and the one that created the consumer goes on. -/
private def joinedLeaves : List (GroupAction Bool Unit Unit Unit) :=
  [.lookup false, .create false, .lookup true, .bind true, .cancel true .canceled,
    .turn true .enter, .leave true true]

theorem served_of_spares_joined :
    ∃ group : Group Bool Unit Unit Unit, runFrom step (start false) joinedLeaves = some group ∧
      (group.member false).active = true ∧ group.Served := by
  have spares : ∀ middle action, Takes step (start false) joinedLeaves middle action →
      middle.Spares action := by
    refine takes_cons trivial rfl (takes_cons trivial rfl (takes_cons trivial rfl
      (takes_cons trivial rfl (takes_cons trivial rfl (takes_cons trivial rfl
        (takes_cons ?_ rfl fun _ _ takes => absurd takes takes_nil))))))
    intro owner
    cases owner
  exact ⟨_, rfl, rfl, served_of_spares spares _ (passes_of_runFrom rfl)⟩

/-- The creator is cancelled and deletes the consumer under a second member. -/
theorem creator_leaves_member_unserved :
    ∃ group : Group Bool Unit Unit Unit, runFrom step (start false)
      [.lookup false, .create false, .lookup true, .bind true, .cancel false .canceled,
        .turn false .enter, .leave false true] = some group ∧ ¬ group.Served := by
  refine ⟨_, rfl, ?_⟩
  intro served
  exact Bool.false_ne_true (served true rfl)

end Group

end CommonGo.Mq
