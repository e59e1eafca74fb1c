import Mathlib.Data.List.Basic
import Mathlib.Logic.Function.Basic

/-!
# Procedures over a signature of operations

A procedure is a finished result, or an operation together with what is done with its reply.
The same procedure can be run alone, against a handler that answers every operation, or be
interleaved with others that share part of the handler's state.  The weakest precondition `wp`
speaks of the result and of every state passed through on the way.
-/

namespace CommonGo.Program

/-- A tree of operations `Op`, branching on replies of type `Reply op`, with results in `α`. -/
inductive Procedure (Op : Type) (Reply : Op → Type) (α : Type) where
  | done (result : α)
  | call (op : Op) (next : Reply op → Procedure Op Reply α)

/-- What answers every operation, threading a state. -/
abbrev Handler (Op : Type) (Reply : Op → Type) (S : Type) :=
  (op : Op) → S → Reply op × S

namespace Procedure

variable {Op : Type} {Reply : Op → Type} {α β : Type} {S : Type}

/-- Continue with `f` from the result of a procedure. -/
def bind : Procedure Op Reply α → (α → Procedure Op Reply β) → Procedure Op Reply β
  | .done a, f => f a
  | .call op next, f => .call op fun reply => (next reply).bind f

instance : Monad (Procedure Op Reply) where
  pure := .done
  bind := bind

/-- The procedure that performs one operation and returns its reply. -/
def perform (op : Op) : Procedure Op Reply (Reply op) := .call op .done

@[simp] theorem pure_eq_done (a : α) : (pure a : Procedure Op Reply α) = .done a := rfl

@[simp] theorem perform_bind (op : Op) (f : Reply op → Procedure Op Reply β) :
    (perform op : Procedure Op Reply (Reply op)) >>= f = .call op f := rfl

/-! ## Running alone -/

/-- Run a procedure against a handler. -/
def run (handler : Handler Op Reply S) : Procedure Op Reply α → S → α × S
  | .done a, state => (a, state)
  | .call op next, state =>
      (next (handler op state).1).run handler (handler op state).2

/-- Every state passed through: the first one, and the one after each operation. -/
def states (handler : Handler Op Reply S) : Procedure Op Reply α → S → List S
  | .done _, state => [state]
  | .call op next, state =>
      state :: (next (handler op state).1).states handler (handler op state).2

@[simp] theorem run_done (handler : Handler Op Reply S) (a : α) (state : S) :
    (Procedure.done a : Procedure Op Reply α).run handler state = (a, state) := rfl

@[simp] theorem run_call (handler : Handler Op Reply S) (op : Op)
    (next : Reply op → Procedure Op Reply α) (state : S) :
    (Procedure.call op next).run handler state =
      (next (handler op state).1).run handler (handler op state).2 := rfl

theorem run_bind (handler : Handler Op Reply S) (p : Procedure Op Reply α)
    (f : α → Procedure Op Reply β) (state : S) :
    (p >>= f).run handler state =
      (f (p.run handler state).1).run handler (p.run handler state).2 := by
  induction p generalizing state with
  | done a => rfl
  | call op next ih => exact ih _ _

/-! ## Weakest preconditions -/

/-- From `state`, every state passed through satisfies `inv`, and the result and the last state
satisfy `post`. -/
def wp (handler : Handler Op Reply S) (inv : S → Prop) :
    Procedure Op Reply α → (α → S → Prop) → S → Prop
  | .done a, post, state => inv state ∧ post a state
  | .call op next, post, state =>
      inv state ∧ (next (handler op state).1).wp handler inv post (handler op state).2

variable {handler : Handler Op Reply S} {inv : S → Prop}

@[simp] theorem wp_done (a : α) (post : α → S → Prop) (state : S) :
    (Procedure.done a : Procedure Op Reply α).wp handler inv post state ↔
      inv state ∧ post a state := Iff.rfl

@[simp] theorem wp_call (op : Op) (next : Reply op → Procedure Op Reply α)
    (post : α → S → Prop) (state : S) :
    (Procedure.call op next).wp handler inv post state ↔
      inv state ∧
        (next (handler op state).1).wp handler inv post (handler op state).2 := Iff.rfl

/-- The weakest precondition is what it says: about the states passed through and the result. -/
theorem wp_iff (p : Procedure Op Reply α) (post : α → S → Prop) (state : S) :
    p.wp handler inv post state ↔
      (∀ passed ∈ p.states handler state, inv passed) ∧
        post (p.run handler state).1 (p.run handler state).2 := by
  induction p generalizing state with
  | done a => simp [states]
  | call op next ih =>
      rw [wp_call, ih, states, run_call, List.forall_mem_cons, and_assoc]

/-- The rule of sequence. -/
theorem wp_bind (p : Procedure Op Reply α) {f : α → Procedure Op Reply β}
    {post : β → S → Prop} {state : S}
    (first : p.wp handler inv (fun a middle => (f a).wp handler inv post middle) state) :
    (p >>= f).wp handler inv post state := by
  induction p generalizing state with
  | done a => exact first.2
  | call op next ih => exact ⟨first.1, ih _ first.2⟩

/-- The rule of consequence. -/
theorem wp_mono {p : Procedure Op Reply α} {post weaker : α → S → Prop} {state : S}
    (holds : p.wp handler inv post state)
    (weaken : ∀ a last, inv last → post a last → weaker a last) :
    p.wp handler inv weaker state := by
  induction p generalizing state with
  | done a => exact ⟨holds.1, weaken a state holds.1 holds.2⟩
  | call op next ih => exact ⟨holds.1, ih _ holds.2⟩

end Procedure

/-! ## Interleaving -/

/-- Callers `ι`, each with a procedure still to run and a state of its own, over a shared state. -/
structure Pool (ι Op : Type) (Reply : Op → Type) (L S α : Type) where
  /-- The state all callers see. -/
  shared : S
  /-- The state only one caller sees. -/
  owned : ι → L
  /-- What each caller has still to do. -/
  code : ι → Procedure Op Reply α

namespace Pool

variable {ι Op : Type} [DecidableEq ι] {Reply : Op → Type} {L S α : Type}

/-- One caller performs its next operation; a caller that has finished stays as it is. -/
def step (handler : Handler Op Reply (L × S)) (pool : Pool ι Op Reply L S α) (i : ι) :
    Pool ι Op Reply L S α :=
  match pool.code i with
  | .done _ => pool
  | .call op next =>
      let (reply, owned, shared) := handler op (pool.owned i, pool.shared)
      { shared := shared
        owned := Function.update pool.owned i owned
        code := Function.update pool.code i (next reply) }

/-- The pool after one caller has moved. -/
def advance (pool : Pool ι Op Reply L S α) (i : ι) (owned : L) (shared : S)
    (code : Procedure Op Reply α) : Pool ι Op Reply L S α where
  shared := shared
  owned := Function.update pool.owned i owned
  code := Function.update pool.code i code

section Advance

variable (pool : Pool ι Op Reply L S α) {i j : ι} (owned : L) (shared : S)
  (code : Procedure Op Reply α)

@[simp] theorem shared_advance : (pool.advance i owned shared code).shared = shared := rfl

@[simp] theorem owned_advance : (pool.advance i owned shared code).owned i = owned := by
  simp [advance]

@[simp] theorem code_advance : (pool.advance i owned shared code).code i = code := by
  simp [advance]

theorem owned_advance_of_ne (other : j ≠ i) :
    (pool.advance i owned shared code).owned j = pool.owned j := by
  simp [advance, other]

theorem code_advance_of_ne (other : j ≠ i) :
    (pool.advance i owned shared code).code j = pool.code j := by
  simp [advance, other]

end Advance

theorem step_of_call {handler : Handler Op Reply (L × S)} {pool : Pool ι Op Reply L S α} {i : ι}
    {op : Op} {next : Reply op → Procedure Op Reply α} {reply : Reply op} {owned : L} {shared : S}
    (calls : pool.code i = .call op next)
    (handled : handler op (pool.owned i, pool.shared) = (reply, owned, shared)) :
    pool.step handler i = pool.advance i owned shared (next reply) := by
  simp only [step, calls, handled]
  rfl

theorem step_of_done {handler : Handler Op Reply (L × S)} {pool : Pool ι Op Reply L S α} {i : ι}
    {result : α} (finished : pool.code i = .done result) : pool.step handler i = pool := by
  simp only [step, finished]

/-- The callers of a schedule perform one operation each, in turn. -/
def run (handler : Handler Op Reply (L × S)) (pool : Pool ι Op Reply L S α)
    (schedule : List ι) : Pool ι Op Reply L S α :=
  schedule.foldl (step handler) pool

/-- Every step of the schedule is allowed in the state it is taken in. -/
def Guarded (handler : Handler Op Reply (L × S)) (allowed : Pool ι Op Reply L S α → ι → Prop) :
    Pool ι Op Reply L S α → List ι → Prop
  | _, [] => True
  | pool, i :: rest => allowed pool i ∧ Guarded handler allowed (pool.step handler i) rest

instance Guarded.decidable (handler : Handler Op Reply (L × S))
    (allowed : Pool ι Op Reply L S α → ι → Prop) [∀ pool i, Decidable (allowed pool i)] :
    ∀ (pool : Pool ι Op Reply L S α) (schedule : List ι),
      Decidable (Guarded handler allowed pool schedule)
  | _, [] => isTrue trivial
  | pool, i :: rest =>
      have := Guarded.decidable handler allowed (pool.step handler i) rest
      inferInstanceAs (Decidable (_ ∧ _))

/-- What allowed steps keep holds after every schedule of allowed steps. -/
theorem run_invariant {handler : Handler Op Reply (L × S)}
    {allowed : Pool ι Op Reply L S α → ι → Prop} {inv : Pool ι Op Reply L S α → Prop}
    (keeps : ∀ pool i, inv pool → allowed pool i → inv (pool.step handler i))
    {pool : Pool ι Op Reply L S α} {schedule : List ι} (holds : inv pool)
    (guarded : Guarded handler allowed pool schedule) : inv (pool.run handler schedule) := by
  induction schedule generalizing pool with
  | nil => exact holds
  | cons i rest ih => exact ih (keeps pool i holds guarded.1) guarded.2

end Pool

end CommonGo.Program
