import CommonGo.Loki.Handler

/-!
# The keys of the Loki handler

`slog` asks a handler to put before the key of an attribute the groups that were open when it was
added, outermost first.  The handler keeps all its attributes in one list and all its groups in
another, and puts all of them before every key, innermost first; so its keys are the ones asked
for exactly when none of this makes a difference.
-/

namespace CommonGo.Loki

open Go

/-- The keys and values that `Handle` places, in their order. -/
def Handler.placed (h : Handler) (store : Store) (r : Record) : List (Bytes × Bytes) :=
  (store.attrs.read h.attrs ++ r.attrs).map fun a =>
    (qualify (store.groups.read h.groups) a.key, a.value)

/-- The entry of a record whose keys and values are placed in order. -/
def Handler.entry (h : Handler) (r : Record) (pairs : List (Bytes × Bytes)) : Entry :=
  (pairs.foldl (place h.labelKeys) (h.start r)).defaultService

/-- `Handle` places every attribute once, those of the handler first. -/
theorem Handler.handle_eq (h : Handler) (store : Store) (r : Record) :
    h.handle store r = h.entry r (h.placed store r) := by
  rw [Handler.handle, Handler.entry, Handler.placed, List.foldl_map, List.foldl_append]
  rfl

/-- The groups open after a call: one with an empty name is none. -/
def opened (groups : List Bytes) (name : Bytes) : List Bytes :=
  if name = [] then groups else groups ++ [name]

/-- The keys and values of the attributes of a chain, each under the groups open when it was
added, outermost first. -/
def qualified : List Bytes → List Derivation → List (Bytes × Bytes)
  | _, [] => []
  | groups, .withAttrs attrs :: chain =>
      (attrs.map fun a => (List.intercalate (ascii ".") (groups ++ [a.key]), a.value)) ++
        qualified groups chain
  | groups, .withGroup name :: chain => qualified (opened groups name) chain

/-- A record adds its attributes at the end of the chain. -/
def calls (chain : List Derivation) (r : Record) : List Derivation :=
  chain ++ [.withAttrs r.attrs]

/-- No attribute is added before a group is opened. -/
def GroupsFirst : List Derivation → Prop
  | [] => True
  | .withAttrs attrs :: chain =>
      (attrs = [] ∨ chain.flatMap Derivation.names = []) ∧ GroupsFirst chain
  | .withGroup _ :: chain => GroupsFirst chain

/-- The names, each with a dot behind it. -/
def dotted (groups : List Bytes) : Bytes := groups.flatMap (· ++ ascii ".")

/-- There is no attribute; or every group has a name, is opened before every attribute, and the
names with their dots are the same text from either end. -/
def Unambiguous (chain : List Derivation) : Prop :=
  chain.flatMap Derivation.attrs = [] ∨
    (∀ name ∈ chain.flatMap Derivation.names, name ≠ []) ∧ GroupsFirst chain ∧
      dotted (chain.flatMap Derivation.names).reverse =
        dotted (chain.flatMap Derivation.names)

/-! ## Comparison -/

theorem qualify_eq (groups : List Bytes) (key : Bytes) :
    qualify groups key = dotted groups.reverse ++ key := by
  induction groups generalizing key with
  | nil => rfl
  | cons name groups ih =>
      have step : qualify (name :: groups) key = qualify groups (name ++ ascii "." ++ key) := rfl
      rw [step, ih, List.reverse_cons, dotted, dotted, List.flatMap_append,
        List.flatMap_singleton]
      simp only [List.append_assoc]

theorem intercalate_eq (groups : List Bytes) (key : Bytes) :
    List.intercalate (ascii ".") (groups ++ [key]) = dotted groups ++ key := by
  induction groups with
  | nil => simp [dotted, List.intercalate]
  | cons name groups ih =>
      rw [List.cons_append, List.intercalate_cons_of_ne_nil (by simp), ih, dotted, dotted,
        List.flatMap_cons, List.append_assoc, List.append_assoc, List.append_assoc]

theorem dotted_append (left right : List Bytes) :
    dotted (left ++ right) = dotted left ++ dotted right :=
  List.flatMap_append

theorem length_dotted_reverse (groups : List Bytes) :
    (dotted groups.reverse).length = (dotted groups).length :=
  ((List.reverse_perm groups).flatMap_right _).length_eq

theorem dotted_eq_nil {groups : List Bytes} (none : (dotted groups).length = 0) : groups = [] := by
  cases groups with
  | nil => rfl
  | cons name groups =>
      simp [dotted, ascii] at none

theorem groupsFirst_of_no_names {chain : List Derivation}
    (none : chain.flatMap Derivation.names = []) : GroupsFirst chain := by
  induction chain with
  | nil => exact True.intro
  | cons call chain ih =>
      rw [List.flatMap_cons, List.append_eq_nil_iff] at none
      cases call with
      | withAttrs attrs => exact ⟨Or.inr none.2, ih none.2⟩
      | withGroup name => exact ih none.2

/-- Wherever a chain adds an attribute, the open groups with their dots are a given text. -/
def OpenAre (text : Bytes) : List Bytes → List Derivation → Prop
  | _, [] => True
  | groups, .withAttrs attrs :: chain =>
      (attrs = [] ∨ dotted groups = text) ∧ OpenAre text groups chain
  | groups, .withGroup name :: chain => OpenAre text (opened groups name) chain

theorem map_text_eq_iff (text : Bytes) (groups : List Bytes) (attrs : List Attr) :
    (attrs.map fun a => (text ++ a.key, a.value)) =
        (attrs.map fun a => (List.intercalate (ascii ".") (groups ++ [a.key]), a.value)) ↔
      attrs = [] ∨ dotted groups = text := by
  constructor
  · intro same
    cases attrs with
    | nil => exact Or.inl rfl
    | cons a attrs =>
        rw [List.map_cons, List.map_cons, List.cons.injEq, Prod.mk.injEq, intercalate_eq,
          List.append_cancel_right_eq] at same
        exact Or.inr same.1.1.symm
  · rintro (rfl | rfl)
    · rfl
    · simp only [intercalate_eq]

/-- One text before every key gives the keys asked for exactly where it is the open groups. -/
theorem map_eq_qualified_iff (text : Bytes) (chain : List Derivation) (groups : List Bytes) :
    ((chain.flatMap Derivation.attrs).map fun a => (text ++ a.key, a.value)) =
      qualified groups chain ↔ OpenAre text groups chain := by
  induction chain generalizing groups with
  | nil => simp [qualified, OpenAre]
  | cons call chain ih =>
      cases call with
      | withAttrs attrs =>
          rw [List.flatMap_cons, List.map_append, qualified, OpenAre, ← ih groups,
            ← map_text_eq_iff]
          constructor
          · intro same
            exact List.append_inj same (by simp)
          · rintro ⟨first, rest⟩
            rw [← first, ← rest]
            rfl
      | withGroup name => exact ih (opened groups name)

/-- A text as long as the names so far, a gap and the names to come can be the open groups only
if there is no gap and no attribute comes before a name. -/
theorem openAre_iff {text : Bytes} {gap : Nat} (chain : List Derivation) (groups : List Bytes)
    (long : text.length =
      (dotted groups).length + gap + (dotted (chain.flatMap Derivation.names)).length) :
    OpenAre text groups chain ↔
      chain.flatMap Derivation.attrs = [] ∨
        gap = 0 ∧ (∀ name ∈ chain.flatMap Derivation.names, name ≠ []) ∧ GroupsFirst chain ∧
          text = dotted (groups ++ chain.flatMap Derivation.names) := by
  induction chain generalizing groups gap with
  | nil => simp [OpenAre]
  | cons call chain ih =>
      cases call with
      | withAttrs attrs =>
          simp only [List.flatMap_cons, Derivation.names, Derivation.attrs, List.nil_append,
            OpenAre, GroupsFirst, List.append_eq_nil_iff] at long ⊢
          rw [ih groups long]
          by_cases empty : attrs = []
          · simp [empty]
          · simp only [empty, false_or, false_and]
            constructor
            · rintro ⟨here, _⟩
              have lengths := congrArg List.length here
              have none : chain.flatMap Derivation.names = [] := dotted_eq_nil (by omega)
              refine ⟨by omega, ?_, ⟨none, groupsFirst_of_no_names none⟩, ?_⟩
              · simp [none]
              · rw [none, List.append_nil, here]
            · rintro ⟨no_gap, named, ⟨none, first⟩, whole⟩
              refine ⟨?_, Or.inr ⟨no_gap, named, first, whole⟩⟩
              rw [whole, none, List.append_nil]
      | withGroup name =>
          simp only [List.flatMap_cons, Derivation.names, Derivation.attrs, List.nil_append,
            List.singleton_append, OpenAre, GroupsFirst, opened] at long ⊢
          have split : (dotted (name :: chain.flatMap Derivation.names)).length =
              name.length + 1 + (dotted (chain.flatMap Derivation.names)).length := by
            rw [dotted, List.flatMap_cons, List.length_append, List.length_append]
            rfl
          by_cases empty : name = []
          · rw [if_pos empty]
            have wider : text.length = (dotted groups).length + (gap + 1) +
                (dotted (chain.flatMap Derivation.names)).length := by
              rw [long, split, empty]
              simp only [List.length_nil]
              omega
            rw [ih groups wider]
            simp [empty]
          · rw [if_neg empty]
            have added : (dotted (groups ++ [name])).length =
                (dotted groups).length + (name.length + 1) := by
              rw [dotted_append, List.length_append]
              simp [dotted, ascii]
            have same : text.length = (dotted (groups ++ [name])).length + gap +
                (dotted (chain.flatMap Derivation.names)).length := by
              rw [long, split, added]
              omega
            rw [ih _ same]
            simp [empty]

theorem unambiguous_iff (chain : List Derivation) :
    OpenAre (dotted (chain.flatMap Derivation.names).reverse) [] chain ↔ Unambiguous chain := by
  have long : (dotted (chain.flatMap Derivation.names).reverse).length =
      (dotted []).length + 0 + (dotted (chain.flatMap Derivation.names)).length := by
    rw [length_dotted_reverse, show (dotted []).length = 0 from rfl]
    omega
  rw [openAre_iff chain [] long, Unambiguous, List.nil_append]
  simp only [true_and]

/-- The handler at the end of a chain of calls places the attributes of the chain and of a record,
each once and in their order, under the keys that `slog` asks for, and selects the labels by these
keys. -/
def Qualifies (growth : Growth) (h : Handler) (chain : List Derivation) (r : Record) : Prop :=
  let last := deriveAll growth (Store.empty, h) chain
  last.2.placed last.1 r = qualified [] (calls chain r) ∧
    last.2.handle last.1 r = last.2.entry r (qualified [] (calls chain r))

/-- The keys of a new handler's chain are the ones that `slog` asks for exactly when there is no
attribute, or every group has a name, no attribute is added before a group is opened, and the names
with their dots are the same text from either end. -/
theorem qualifies_iff (growth : Growth) {cfg : HandlerConfig} {level : Int} {h : Handler}
    (created : newHandlerWithConfig cfg level = .ok h) (chain : List Derivation) (r : Record) :
    Qualifies growth h chain r ↔ Unambiguous (calls chain r) := by
  obtain ⟨valid, no_attrs, no_groups⟩ := valid_newHandler created
  have reads := @read_deriveAll growth chain (Store.empty, h) valid
  rw [no_attrs, no_groups, List.nil_append, List.nil_append] at reads
  have attrs : (calls chain r).flatMap Derivation.attrs =
      chain.flatMap Derivation.attrs ++ r.attrs := by
    simp [calls, Derivation.attrs]
  have names : (calls chain r).flatMap Derivation.names = chain.flatMap Derivation.names := by
    simp [calls, Derivation.names]
  have placed : (deriveAll growth (Store.empty, h) chain).2.placed
      (deriveAll growth (Store.empty, h) chain).1 r =
        (((calls chain r).flatMap Derivation.attrs).map fun a =>
          (dotted ((calls chain r).flatMap Derivation.names).reverse ++ a.key, a.value)) := by
    simp only [Handler.placed, reads.1, reads.2, attrs, names, qualify_eq]
  rw [Qualifies, Handler.handle_eq, placed, ← unambiguous_iff, ← map_eq_qualified_iff]
  constructor
  · exact And.left
  · intro same
    exact ⟨same, by rw [same]⟩

/-- One group, opened before the attribute `id` of the handler and `method` of the record. -/
theorem qualifies_one_group :
    ∃ h, newHandlerWithConfig ⟨ascii "app", fun _ => false⟩ 0 = .ok h ∧
      Qualifies Growth.least h
        [.withGroup (ascii "http"), .withAttrs [⟨ascii "id", ascii "7"⟩]]
        ⟨0, ascii "served", [], [], [⟨ascii "method", ascii "GET"⟩]⟩ := by
  refine ⟨_, rfl, (@qualifies_iff _ ⟨ascii "app", fun _ => false⟩ 0 _ rfl _ _).mpr (Or.inr ?_)⟩
  refine ⟨by decide, ?_, by decide⟩
  exact ⟨Or.inr rfl, Or.inr rfl, True.intro⟩

/-- Two groups come out in the wrong order: the key is `request.http.method`. -/
theorem reversed_groups :
    ∃ h, newHandlerWithConfig ⟨ascii "app", fun _ => false⟩ 0 = .ok h ∧
      ¬ Qualifies Growth.least h [.withGroup (ascii "http"), .withGroup (ascii "request")]
        ⟨0, ascii "served", [], [], [⟨ascii "method", ascii "GET"⟩]⟩ := by
  refine ⟨_, rfl, ?_⟩
  rintro ⟨placed, _⟩
  exact absurd placed (by decide)

end CommonGo.Loki
