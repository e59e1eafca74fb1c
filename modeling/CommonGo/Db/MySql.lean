import CommonGo.Db.Skeleton

/-!
# Literals of MySQL

MySQL escapes inside every literal with backslashes, which the redactor expects behind an `E` only.
A literal is hidden as long as no backslash in it stands in front of a quote.
-/

namespace CommonGo.Redact

open Go

/-- The quote of MySQL's identifiers. -/
def backquote : UInt8 := 0x60

/-- A literal of MySQL: backslash escapes and doubled quotes. -/
def mysqlLiteral (items : List EscapeItem) : Bytes := quote :: (escapeBody items ++ [quote])

/-- Skeletons without quotes and dollars. -/
def Skeleton.Unquoted (skeleton : Skeleton) : Prop :=
  ∀ text ∈ skeleton.head :: skeleton.tails, ∀ b ∈ text,
    b ≠ quote ∧ b ≠ doubleQuote ∧ b ≠ backquote ∧ b ≠ dollar

/-! ## Literals without escaped quotes -/

/-- The body whose standard literal has the same text, if no quote is escaped. -/
def EscapeItem.value : EscapeItem → Bytes
  | .plain b _ _ => [b]
  | .escaped b => [backslash, b]
  | .quotes => [quote]

theorem escapeBody_eq_doubled {items : List EscapeItem}
    (unescaped : EscapeItem.escaped quote ∉ items) :
    escapeBody items = doubled quote (items.flatMap EscapeItem.value) := by
  induction items with
  | nil => rfl
  | cons item items ih =>
      have later := ih fun member => unescaped (List.mem_cons_of_mem item member)
      rw [escapeBody, List.flatMap_cons, ← escapeBody, later, List.flatMap_cons]
      cases item with
      | plain b not_quote not_backslash =>
          simp only [EscapeItem.text, EscapeItem.value, List.singleton_append]
          rw [doubled_cons_of_ne _ not_quote]
      | escaped b =>
          have not_quote : b ≠ quote := by
            rintro rfl
            exact unescaped List.mem_cons_self
          simp only [EscapeItem.text, EscapeItem.value, List.cons_append, List.nil_append]
          rw [doubled_cons_of_ne _ (by decide), doubled_cons_of_ne _ not_quote]
      | quotes =>
          simp only [EscapeItem.text, EscapeItem.value, List.cons_append, List.nil_append]
          rw [doubled_cons_self]

theorem mysqlLiteral_eq_standard {items : List EscapeItem}
    (unescaped : EscapeItem.escaped quote ∉ items) :
    mysqlLiteral items = standardLiteral (items.flatMap EscapeItem.value) := by
  rw [mysqlLiteral, standardLiteral, escapeBody_eq_doubled unescaped]

/-! ## Literals with an escaped quote -/

theorem quotedLen_of_notMem {rest : Bytes} (absent : quote ∉ rest) :
    quotedLen rest = rest.length := by
  simpa [quotedLen] using quotedLen_append [] fun b member equal => absent (equal ▸ member)

/-- A literal that the redactor ends too early, or with the statement. -/
def OutOfPhase (s : Bytes) : Prop := quotedLen s = s.length ∨ quote ∈ s.drop (quotedLen s)

theorem OutOfPhase.cons {b : UInt8} {s : Bytes} (out : OutOfPhase s) (other : b ≠ quote) :
    OutOfPhase (b :: s) := by
  rw [OutOfPhase, quotedLen_cons_of_ne s other, List.length_cons, List.drop_succ_cons]
  exact out.imp (congrArg (· + 1)) id

theorem OutOfPhase.quotes {s : Bytes} (out : OutOfPhase s) : OutOfPhase (quote :: quote :: s) := by
  rw [OutOfPhase, quotedLen_quote_quote, List.length_cons, List.length_cons, List.drop_succ_cons,
    List.drop_succ_cons]
  exact out.imp (congrArg (· + 2)) id

/-- From an escaped quote on the redactor pairs the quotes of the literal wrongly. -/
theorem outOfPhase_escaped (items : List EscapeItem) {rest : Bytes} (absent : quote ∉ rest) :
    OutOfPhase (quote :: (escapeBody items ++ quote :: rest)) := by
  have early : ∀ {b : UInt8} {s : Bytes}, b ≠ quote → quote ∈ s → OutOfPhase (quote :: b :: s) := by
    intro b s other member
    right
    rw [quotedLen_quote (by simpa using other)]
    exact List.mem_cons_of_mem b member
  induction items with
  | nil =>
      left
      rw [escapeBody, List.flatMap_nil, List.nil_append, quotedLen_quote_quote,
        quotedLen_of_notMem absent]
      rfl
  | cons item items ih =>
      rw [escapeBody, List.flatMap_cons, ← escapeBody, List.append_assoc]
      cases item with
      | plain b not_quote not_backslash => exact early not_quote (by simp)
      | escaped b => exact early (by decide) (by simp)
      | quotes => exact ih.quotes

theorem outOfPhase_of_mem {items : List EscapeItem} {rest : Bytes}
    (member : EscapeItem.escaped quote ∈ items) (absent : quote ∉ rest) :
    OutOfPhase (escapeBody items ++ quote :: rest) := by
  induction items with
  | nil => simp at member
  | cons item items ih =>
      rw [escapeBody, List.flatMap_cons, ← escapeBody, List.append_assoc]
      cases item with
      | plain b not_quote not_backslash =>
          exact (ih (by simpa using member)).cons not_quote
      | escaped b =>
          by_cases b_eq : b = quote
          · subst b_eq
            exact (outOfPhase_escaped items absent).cons (by decide)
          · have later : EscapeItem.escaped quote ∈ items := by
              simpa [Ne.symm b_eq] using member
            exact ((ih later).cons b_eq).cons (by decide)
      | quotes => exact (ih (by simpa using member)).quotes

/-- The letter behind a literal out of phase is swallowed, or a second value is shown. -/
theorem count_of_outOfPhase {s : Bytes} (out : OutOfPhase s) :
    emissions (quote :: s) = [.value] ∨ 2 ≤ (emissions (quote :: s)).count .value := by
  rw [emissions_eq (List.cons_ne_nil quote s), scanStep_quote, Nat.add_comm, List.drop_succ_cons]
  rcases out with all | later
  · left
    rw [all, List.drop_length, emissions_nil]
  · right
    have again := List.count_pos_iff.mpr (value_mem_emissions later)
    rw [List.count_cons_self]
    omega

/-- One literal, then white space and a letter. -/
def probe : Skeleton := ⟨[], [[blank, 0x5A]]⟩

theorem probe_separated : probe.Separated := by decide

theorem probe_unquoted : probe.Unquoted := by
  simp [Skeleton.Unquoted, probe, blank, quote, doubleQuote, backquote, dollar]

/-- A body with an escaped quote changes the preview of the statement around it. -/
theorem not_samePreview_probe {items : List EscapeItem}
    (escaped : EscapeItem.escaped quote ∈ items) :
    ¬ SamePreview (probe.fill [mysqlLiteral []]) (probe.fill [mysqlLiteral items]) := by
  have in_phase : emissions (probe.fill [mysqlLiteral []]) = [.value, .space, .char 0x5A] := by
    decide +kernel
  have text : probe.fill [mysqlLiteral items] =
      quote :: (escapeBody items ++ quote :: [blank, 0x5A]) := by
    simp [probe, mysqlLiteral]
  have out := outOfPhase_of_mem escaped (by decide : quote ∉ [blank, 0x5A])
  rw [samePreview_iff]
  intro same
  have letters := congrArg (List.count 0x5A) same
  have marks := congrArg (List.count mark) same
  rw [count_fullPreview (by decide), count_fullPreview (by decide), in_phase, text] at letters marks
  rcases count_of_outOfPhase out with swallowed | again
  · rw [swallowed] at letters
    exact absurd letters (by decide)
  · have shown := count_value_le (emissions (quote :: (escapeBody items ++ quote :: [blank, 0x5A])))
    have once : ([Emission.value, .space, .char 0x5A].flatMap Emission.bytes).count mark = 1 := by
      decide
    omega

/-- Literals of MySQL are hidden from the preview exactly as long as none of them escapes a quote
with a backslash. -/
theorem samePreview_mysql_iff (allowed : List EscapeItem → Prop) :
    (∀ skeleton : Skeleton, skeleton.Separated → skeleton.Unquoted →
        ∀ left right : List (List EscapeItem), left.length = skeleton.tails.length →
          right.length = skeleton.tails.length →
            (∀ body ∈ left ++ right, body = [] ∨ allowed body) →
              SamePreview (skeleton.fill (left.map mysqlLiteral))
                (skeleton.fill (right.map mysqlLiteral))) ↔
      ∀ body, allowed body → EscapeItem.escaped quote ∉ body := by
  constructor
  · intro hidden body body_allowed escaped
    refine not_samePreview_probe escaped ?_
    refine hidden probe probe_separated probe_unquoted [[]] [body] rfl rfl ?_
    intro other member
    rcases List.mem_cons.mp member with rfl | last
    · exact .inl rfl
    · rw [List.mem_singleton.mp last]
      exact .inr body_allowed
  · intro unescaped skeleton separated unquoted left right left_fits right_fits bodies
    have standard : ∀ list : List (List EscapeItem), (∀ body ∈ list, body ∈ left ++ right) →
        list.map mysqlLiteral =
          (list.map fun body => body.flatMap EscapeItem.value).map standardLiteral := by
      intro list sublist
      rw [List.map_map]
      refine List.map_congr_left fun body member => mysqlLiteral_eq_standard ?_
      rcases bodies body (sublist body member) with rfl | body_allowed
      · simp
      · exact unescaped body body_allowed
    have pairs : ∀ text ∈ skeleton.before, PairsOff text := by
      intro text member
      refine pairsOff_of_clean fun b byte => ?_
      have clean := unquoted text (List.dropLast_subset _ member) b byte
      exact ⟨clean.1, clean.2.2.2⟩
    rw [standard left fun body member => List.mem_append_left right member,
      standard right fun body member => List.mem_append_right left member]
    exact (separated.alike_fill pairs (by simpa using left_fits)
      (by simpa using right_fits)).samePreview

/-- The statement `'x\'y' Z` shows a byte of its literal, unlike `'' Z`. -/
theorem mysql_escaped_quote_logged :
    probe.Separated ∧ probe.Unquoted ∧
      redactSQLValues (probe.fill [mysqlLiteral [.plain 0x78 (by decide) (by decide),
          .escaped quote, .plain 0x79 (by decide) (by decide)]]) 2048 =
        ([mark, 0x79, mark], false) ∧
      redactSQLValues (probe.fill [mysqlLiteral []]) 2048 = ([mark, blank, 0x5A], false) :=
  ⟨probe_separated, probe_unquoted, by decide +kernel, by decide +kernel⟩

end CommonGo.Redact
