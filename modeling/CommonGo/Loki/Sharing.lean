import CommonGo.Loki.Handler
import CommonGo.Program.Run

/-!
# Handlers that share backing arrays

The handlers derived from one Loki handler, each from any that is there already.  A derived handler
keeps the slices of its parent or appends to them, so handlers share backing arrays, and an append
in place can change what another handler logs.
-/

namespace CommonGo.Loki

open Go Program

/-! ## One derivation and another handler -/

/-- A call on a handler leaves the lists of another handler as they are. -/
def Handler.Spares (store : Store) (h : Handler) (call : Derivation) (other : Handler) : Prop :=
  Slice.Spares store.attrs h.attrs call.attrs other.attrs ∧
    Slice.Spares store.groups h.groups call.names other.groups

instance (store : Store) (h : Handler) (call : Derivation) (other : Handler) :
    Decidable (h.Spares store call other) :=
  inferInstanceAs (Decidable (_ ∧ _))

/-- The lists of a handler in a store. -/
def Handler.lists (store : Store) (h : Handler) : List Attr × List Bytes :=
  (store.attrs.read h.attrs, store.groups.read h.groups)

variable {growth : Growth} {store : Store} {h other : Handler}

theorem spares_nothing {α : Type} (heap : Heap α) (slice other : Slice) :
    Slice.Spares heap slice [] other := by
  intro _ _
  rw [List.length_nil, List.take_zero]

/-- A handler stays valid when one is derived. -/
theorem Handler.Valid.kept (valid : h.Valid store) (stays : other.Valid store) (growth : Growth)
    (call : Derivation) : other.Valid (h.derive growth store call).1 := by
  cases call with
  | withAttrs attrs => exact ⟨valid.attrs.kept stays.attrs growth attrs, stays.groups⟩
  | withGroup name => exact ⟨stays.attrs, valid.groups.kept stays.groups growth [name]⟩

/-- The lists of another handler stay the same exactly when it is spared. -/
theorem Handler.Valid.lists_derive_iff (valid : h.Valid store) (stays : other.Valid store)
    (growth : Growth) (call : Derivation) :
    other.lists (h.derive growth store call).1 = other.lists store ↔
      h.Spares store call other := by
  rw [lists, lists, Prod.mk.injEq]
  cases call with
  | withAttrs attrs =>
      constructor
      · rintro ⟨same, _⟩
        exact ⟨(valid.attrs.read_append_iff stays.attrs).mp same, spares_nothing _ _ _⟩
      · rintro ⟨spared, _⟩
        exact ⟨(valid.attrs.read_append_iff stays.attrs).mpr spared, rfl⟩
  | withGroup name =>
      constructor
      · rintro ⟨_, same⟩
        exact ⟨spares_nothing _ _ _, (valid.groups.read_append_iff stays.groups).mp same⟩
      · rintro ⟨_, spared⟩
        exact ⟨rfl, (valid.groups.read_append_iff stays.groups).mpr spared⟩

/-! ## The tree of handlers -/

/-- A handler, with the lists that it had when it was created. -/
structure Node where
  /-- The handler. -/
  handler : Handler
  /-- Its attributes and group names when it was created. -/
  created : List Attr × List Bytes

/-- A handler is created. -/
def Node.create (store : Store) (h : Handler) : Node := ⟨h, h.lists store⟩

/-- The handlers in the order of their creation. -/
structure Tree where
  /-- The backing arrays, which the handlers share. -/
  store : Store
  /-- The handlers. -/
  nodes : List Node

namespace Tree

/-- The tree of one new handler. -/
def new (h : Handler) : Tree := ⟨Store.empty, [Node.create Store.empty h]⟩

/-- A handler is added. -/
def add (tree : Tree) (derived : Store × Handler) : Tree :=
  ⟨derived.1, tree.nodes ++ [Node.create derived.1 derived.2]⟩

/-- `WithAttrs` or `WithGroup` on a handler of the tree. -/
def step (growth : Growth) (tree : Tree) (call : Nat × Derivation) : Option Tree :=
  tree.nodes[call.1]?.map fun node => tree.add (node.handler.derive growth tree.store call.2)

/-- Every handler reads the lists that it had when it was created. -/
def Faithful (tree : Tree) : Prop :=
  ∀ node ∈ tree.nodes, node.handler.lists tree.store = node.created

instance (tree : Tree) : Decidable tree.Faithful := inferInstanceAs (Decidable (∀ _ ∈ _, _))

/-- The call leaves alone every handler of the tree: where it appends in place, no handler of the
same array reads anything else in the places that it writes. -/
def Spares (tree : Tree) (call : Nat × Derivation) : Prop :=
  ∀ parent ∈ tree.nodes[call.1]?,
    ∀ node ∈ tree.nodes, parent.handler.Spares tree.store call.2 node.handler

instance (tree : Tree) (call : Nat × Derivation) : Decidable (tree.Spares call) :=
  inferInstanceAs (Decidable (∀ _ ∈ _, _))

/-- Every handler is one of the store. -/
def Valid (tree : Tree) : Prop := ∀ node ∈ tree.nodes, node.handler.Valid tree.store

variable {tree next : Tree} {call : Nat × Derivation}

/-- What a call does to the tree. -/
theorem step_some (stepped : tree.step growth call = some next) :
    ∃ parent, tree.nodes[call.1]? = some parent ∧ parent ∈ tree.nodes ∧
      next = tree.add (parent.handler.derive growth tree.store call.2) := by
  obtain ⟨parent, found, rfl⟩ := Option.map_eq_some_iff.mp stepped
  exact ⟨parent, found, List.mem_of_getElem? found, rfl⟩

theorem Valid.step (valid : tree.Valid) (stepped : tree.step growth call = some next) :
    next.Valid := by
  obtain ⟨parent, _, member, rfl⟩ := step_some stepped
  intro node among
  rcases List.mem_append.mp among with older | new
  · exact (valid parent member).kept (valid node older) growth call.2
  · rw [List.mem_singleton.mp new]
    exact (valid parent member).derived growth call.2

/-- A call keeps a faithful tree faithful exactly when it leaves its handlers alone. -/
theorem faithful_step_iff (valid : tree.Valid) (faithful : tree.Faithful)
    (stepped : tree.step growth call = some next) : next.Faithful ↔ tree.Spares call := by
  obtain ⟨parent, found, member, rfl⟩ := step_some stepped
  have same : ∀ node ∈ tree.nodes,
      node.handler.lists (parent.handler.derive growth tree.store call.2).1 = node.created ↔
        parent.handler.Spares tree.store call.2 node.handler := by
    intro node older
    rw [← faithful node older]
    exact (valid parent member).lists_derive_iff (valid node older) growth call.2
  constructor
  · intro kept other again node older
    cases found.symm.trans again
    exact (same node older).mp (kept node (List.mem_append_left _ older))
  · intro spared node among
    rcases List.mem_append.mp among with older | new
    · exact (same node older).mpr (spared parent found node older)
    · rw [List.mem_singleton.mp new]
      rfl

variable {cfg : HandlerConfig} {level : Int}

theorem valid_new (created : newHandlerWithConfig cfg level = .ok h) : (new h).Valid := by
  intro node member
  rw [List.mem_singleton.mp member]
  exact (valid_newHandler created).1

theorem faithful_new (h : Handler) : (new h).Faithful := by
  intro node member
  rw [List.mem_singleton.mp member]
  rfl

/-- While handlers are derived from a new one, each from any that is there already, every handler
reads at every time the lists that it had when it was created exactly when every call leaves the
handlers that are there alone: it moves to a new array, or no handler of the same array reads
anything else in the places that it writes. -/
theorem faithful_iff (growth : Growth) (created : newHandlerWithConfig cfg level = .ok h)
    {calls : List (Nat × Derivation)} {final : Tree}
    (ran : runFrom (step growth) (new h) calls = some final) :
    (∀ tree, Passes (step growth) (new h) calls tree → tree.Faithful) ↔
      ∀ tree call, Takes (step growth) (new h) calls tree call → tree.Spares call :=
  runFrom_always_iff Valid.step faithful_step_iff (valid_new created) (faithful_new h) ran

/-- Two handlers are derived from a new one, whose nil slices have no room. -/
theorem faithful_siblings :
    ∃ h final, newHandlerWithConfig ⟨ascii "app", fun _ => false⟩ 0 = .ok h ∧
      runFrom (step Growth.least) (new h)
        [(0, .withAttrs [⟨ascii "user", ascii "a"⟩]),
          (0, .withAttrs [⟨ascii "user", ascii "b"⟩])] = some final ∧
      final.Faithful := by
  have created : newHandlerWithConfig ⟨ascii "app", fun _ => false⟩ 0 = .ok _ := rfl
  have ran : runFrom (step Growth.least)
      (new ⟨ascii "app", fun _ => false, 0, Slice.nil, Slice.nil⟩)
      [(0, .withAttrs [⟨ascii "user", ascii "a"⟩]),
        (0, .withAttrs [⟨ascii "user", ascii "b"⟩])] = some _ := rfl
  refine ⟨_, _, created, ran, ?_⟩
  refine (faithful_iff Growth.least created ran).mpr ?_ _ (passes_of_runFrom ran)
  refine takes_cons (by decide) rfl (takes_cons (by decide) rfl ?_)
  exact fun _ _ takes => absurd takes takes_nil

/-- Three attributes, added one by one, leave room for a fourth.  Two handlers that are then
derived from the same parent both write it: the first one logs the attribute of the second. -/
theorem overwritten_sibling :
    ∃ h final, newHandlerWithConfig ⟨ascii "app", fun _ => false⟩ 0 = .ok h ∧
      runFrom (step Growth.least) (new h)
        [(0, .withAttrs [⟨ascii "service", ascii "api"⟩]),
          (1, .withAttrs [⟨ascii "host", ascii "x"⟩]),
          (2, .withAttrs [⟨ascii "route", ascii "y"⟩]),
          (3, .withAttrs [⟨ascii "user", ascii "a"⟩]),
          (3, .withAttrs [⟨ascii "user", ascii "b"⟩])] = some final ∧
      ¬ final.Faithful := by
  refine ⟨_, _, rfl, rfl, ?_⟩
  decide

end Tree

end CommonGo.Loki
