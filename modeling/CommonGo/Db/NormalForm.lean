import CommonGo.Db.PlainText
import CommonGo.Db.Shown

/-!
# The normal form of previews

A preview is valid UTF-8 without quotes, digits and opening delimiters, and its white space are
single blanks between other runes.  Redacting such a text changes nothing, so a preview is redacted
to itself.
-/

namespace CommonGo.Redact

open Go

/-! ## Normal forms -/

/-- The runes of an opening delimiter. -/
def delimiterRunes (tag : Bytes) : List Nat := (delimiterOf tag).map UInt8.toNat

/-- Runes of which none starts a value, with blanks that stand alone behind other runes. -/
structure Normal (list : List Nat) : Prop where
  /-- The runes are code points. -/
  scalars : Scalars list
  /-- None is a quote. -/
  quotes : quote.toNat ∉ list
  /-- None is a digit. -/
  digits : ∀ r ∈ list, isDigit r = false
  /-- No dollar-quoted literal starts. -/
  delimiters : ∀ tag, isTag tag = true → ¬ delimiterRunes tag <:+: list
  /-- White space is written as blanks. -/
  spaces : ∀ r ∈ list, isSpace r = true → r = blank.toNat
  /-- There is none at the head. -/
  first : ∀ r ∈ list.head?, isSpace r = false
  /-- No blank follows another one. -/
  single : ¬ [blank.toNat, blank.toNat] <:+: list

variable {list front rest : List Nat} {r : Nat}

theorem isAscii_of_isTag {tag : Bytes} (valid : isTag tag = true) :
    ∀ b ∈ delimiterOf tag, isAscii b = true := by
  have small : ∀ b ∈ tag, isAscii b = true := by
    intro b member
    have shape := tagCont_iff.mp (tagCont_of_mem valid member)
    rw [tagStart_iff] at shape
    simp only [isAscii, decide_eq_true_eq]
    rcases shape with (rfl | letter) | digit
    · decide
    · omega
    · omega
  simpa [delimiterOf, or_imp, forall_and, show isAscii dollar = true by decide] using small

/-- A byte that cannot stand in a tag and is no dollar is not in an opening delimiter. -/
theorem notMem_delimiterRunes {tag : Bytes} {b : UInt8} (valid : isTag tag = true)
    (other : b ≠ dollar) (outside : tagCont b = false) : b.toNat ∉ delimiterRunes tag := by
  intro member
  obtain ⟨c, inside, same⟩ := List.mem_map.mp member
  rw [UInt8.toNat_inj.mp same] at inside
  simp only [delimiterOf, List.mem_cons, List.mem_append, List.not_mem_nil, or_false, other,
    false_or] at inside
  rw [tagCont_of_mem valid inside] at outside
  cases outside

/-- An opening delimiter ends in a dollar. -/
theorem delimiterRunes_snoc (tag : Bytes) :
    ∃ front, delimiterRunes tag = front ++ [dollar.toNat] :=
  ⟨(dollar :: tag).map UInt8.toNat, by simp [delimiterRunes, delimiterOf]⟩

theorem mem_head?_of_isPrefix (initial : front <+: list) (member : r ∈ front.head?) :
    r ∈ list.head? := by
  obtain ⟨more, rfl⟩ := initial
  cases front with
  | nil => cases member
  | cons head front => exact member

theorem Normal.of_isPrefix (normal : Normal list) (initial : front <+: list) : Normal front where
  scalars := normal.scalars.of_isPrefix initial
  quotes member := normal.quotes (initial.subset member)
  digits r member := normal.digits r (initial.subset member)
  delimiters tag valid inside := normal.delimiters tag valid (inside.trans initial.isInfix)
  spaces r member := normal.spaces r (initial.subset member)
  first r member := normal.first r (mem_head?_of_isPrefix initial member)
  single inside := normal.single (inside.trans initial.isInfix)

theorem normal_nil : Normal [] where
  scalars := scalars_nil
  quotes := by simp
  digits := by simp
  delimiters tag _ inside := by simp [delimiterRunes, delimiterOf] at inside
  spaces := by simp
  first := by simp
  single inside := by simp at inside

theorem not_delimiter_of_notMem (absent : dollar.toNat ∉ list) :
    ∀ tag, isTag tag = true → ¬ delimiterRunes tag <:+: list :=
  fun tag _ inside => absent (inside.subset (by simp [delimiterRunes, delimiterOf]))

/-- A word that ends in another rune than the last one stands in front of it. -/
theorem isInfix_of_snoc {word : List Nat} {last : Nat} (ends : ∃ front, word = front ++ [last])
    (other : last ≠ r) (inside : word <:+: list ++ [r]) : word <:+: list := by
  obtain ⟨front, rfl⟩ := ends
  rcases List.infix_concat_iff.mp inside with ⟨before, whole⟩ | earlier
  · rw [← List.append_assoc] at whole
    exact absurd (List.append_inj' whole rfl).2 (by simpa using other)
  · exact earlier

/-- A rune that means nothing to the redactor can be appended. -/
theorem Normal.snoc (normal : Normal list) (scalar : validRune r = true)
    (not_quote : r ≠ quote.toNat) (not_digit : isDigit r = false) (not_space : isSpace r = false)
    (not_dollar : r ≠ dollar.toNat) : Normal (list ++ [r]) where
  scalars := scalars_append.mpr ⟨normal.scalars, scalars_cons.mpr ⟨scalar, scalars_nil⟩⟩
  quotes := by simp [normal.quotes, not_quote.symm]
  digits := by
    rw [List.forall_mem_append]
    exact ⟨normal.digits, by simpa using not_digit⟩
  delimiters tag valid inside :=
    normal.delimiters tag valid (isInfix_of_snoc (delimiterRunes_snoc tag) not_dollar.symm inside)
  spaces := by
    rw [List.forall_mem_append]
    exact ⟨normal.spaces, by simp [not_space]⟩
  first := by
    cases list with
    | nil => simpa using not_space
    | cons head list => exact normal.first
  single inside := by
    refine normal.single (isInfix_of_snoc ⟨[blank.toNat], rfl⟩ ?_ inside)
    rintro rfl
    cases not_space

/-! ## Redacting a normal form -/

/-- How the loop reads a rune that starts no value. -/
def emissionOf (r : Nat) : Emission := if isSpace r then .space else .char r

/-- One turn of the loop at text in normal form. -/
theorem scanStep_encodeRunes (scalars : Scalars (r :: list)) (quotes : quote.toNat ∉ r :: list)
    (digit : isDigit r = false)
    (delimiters : ∀ tag, isTag tag = true → ¬ delimiterRunes tag <+: r :: list) :
    scanStep (encodeRunes (r :: list)) = (emissionOf r, (encodeRune r).length) := by
  have decoded := decodeRune_encodeRune (encodeRunes list) (scalars_cons.mp scalars).1
  have no_quote : quote ∉ encodeRunes (r :: list) := fun member =>
    quotes (toNat_mem_of_mem_encodeRunes scalars isAscii_quote member)
  have no_delimiter : dollarQuoteDelimiter (encodeRunes (r :: list)) 0 = none := by
    rw [Option.eq_none_iff_forall_ne_some]
    intro delimiter opens
    obtain ⟨tag, rest, valid, _, text⟩ := dollarQuoteDelimiter_eq_some opens
    refine delimiters tag valid ?_
    exact map_toNat_isPrefix scalars (isAscii_of_isTag valid) ⟨rest, text.symm⟩
  rw [← encodeRunes_cons] at decoded
  obtain ⟨b, more, text⟩ := List.exists_cons_of_ne_nil
    (mt encodeRunes_eq_nil_iff.mp (List.cons_ne_nil r list))
  rw [text] at decoded no_quote no_delimiter ⊢
  have no_escape : ¬ isEscapeStringStart (b :: more) 0 := by
    rw [isEscapeStringStart_cons]
    rintro ⟨_, next⟩
    exact no_quote (List.mem_cons_of_mem b (List.mem_of_head? next))
  have not_quote : b ≠ quote := by
    rintro rfl
    exact no_quote List.mem_cons_self
  rw [scanStep_of_plain no_escape no_delimiter, if_neg not_quote, decoded, emissionOf]
  simp only [digit, Bool.false_eq_true, if_false]
  split_ifs <;> rfl

/-- Text in normal form is copied rune by rune. -/
theorem emissions_encodeRunes (scalars : Scalars list) (quotes : quote.toNat ∉ list)
    (digits : ∀ r ∈ list, isDigit r = false)
    (delimiters : ∀ tag, isTag tag = true → ¬ delimiterRunes tag <:+: list) :
    emissions (encodeRunes list) = list.map emissionOf := by
  induction list with
  | nil => exact emissions_nil
  | cons r list ih =>
      have nonempty := mt encodeRunes_eq_nil_iff.mp (List.cons_ne_nil r list)
      have step := scanStep_encodeRunes scalars quotes (digits r List.mem_cons_self)
        fun tag valid initial => delimiters tag valid initial.isInfix
      have later := ih (scalars_cons.mp scalars).2
        (fun member => quotes (List.mem_cons_of_mem r member))
        (fun c member => digits c (List.mem_cons_of_mem r member))
        fun tag valid inside =>
          delimiters tag valid (inside.trans (List.suffix_cons r list).isInfix)
      rw [emissions_eq nonempty, step, encodeRunes_cons, List.drop_left, List.map_cons, later]

/-- What is written for text in normal form is that text. -/
theorem shown_map_emissionOf (spaces : ∀ r ∈ list, isSpace r = true → r = blank.toNat)
    (first : ∀ r ∈ list.head?, isSpace r = false)
    (single : ¬ [blank.toNat, blank.toNat] <:+: list) :
    shown (list.map emissionOf) = list := by
  induction list using List.reverseRecOn with
  | nil => rfl
  | append_singleton list r ih =>
      obtain ⟨earlier, here⟩ := List.forall_mem_append.mp spaces
      have before : shown (list.map emissionOf) = list := by
        refine ih earlier (fun c member => ?_) fun inside =>
          single (inside.trans (List.prefix_append _ _).isInfix)
        exact first c (mem_head?_of_isPrefix (List.prefix_append list [r]) member)
      rw [List.map_append, List.map_singleton, shown_snoc, before]
      cases space : isSpace r with
      | false => simp [emissionOf, space, Emission.runes]
      | true =>
          obtain rfl := here r (List.mem_singleton_self r) space
          -- A blank is neither the first rune nor behind another blank.
          have alone : spaced (list.map emissionOf) = false ∧ 0 < list.length := by
            rcases List.eq_nil_or_concat list with rfl | ⟨more, last, rfl⟩
            · rw [first _ rfl] at space
              cases space
            · rw [List.concat_eq_append] at earlier single ⊢
              refine ⟨?_, by simp⟩
              rw [List.map_append, List.map_singleton, spaced_snoc, beq_eq_false_iff_ne]
              intro spacing
              have blanked : last = blank.toNat := by
                refine earlier last (by simp) ?_
                by_contra visible
                simp [emissionOf, visible] at spacing
              exact single ⟨more, [], by simp [blanked]⟩
          simp [emissionOf, space, Emission.runes, alone]

/-- Text in normal form that ends in a visible rune is redacted to itself, if everything in front of
its last rune is below the budget. -/
theorem redactSQLValues_normal {maxBytes : Nat} (normal : Normal list)
    (last : ∀ r ∈ list.getLast?, isSpace r = false) (room : 3 ≤ maxBytes)
    (fits : ∀ front r, list = front ++ [r] → (encodeRunes front).length < maxBytes) :
    redactSQLValues (encodeRunes list) maxBytes = (encodeRunes list, false) := by
  have read := emissions_encodeRunes normal.scalars normal.quotes normal.digits normal.delimiters
  have below : ∀ before after, list.map emissionOf = before ++ after → after ≠ [] →
      (written [] false before).length < maxBytes := by
    intro before after split more
    obtain ⟨front, back, rfl, rfl, rfl⟩ := List.map_eq_append_iff.mp split
    have initial := normal.of_isPrefix (List.prefix_append front back)
    rw [written_eq, shown_map_emissionOf initial.spaces initial.first initial.single]
    rcases List.eq_nil_or_concat back with rfl | ⟨middle, r, rfl⟩
    · exact absurd rfl more
    · have whole := fits (front ++ middle) r (by simp)
      rw [encodeRunes_append, List.length_append] at whole
      omega
  have kept : trimmed (list.map emissionOf) = list := by
    rw [trimmed, shown_map_emissionOf normal.spaces normal.first normal.single,
      List.rdropWhile_eq_self_iff]
    intro nonempty
    simpa using last _ (List.getLast?_eq_some_getLast nonempty)
  obtain ⟨runes, cut, redacted, preview⟩ := exists_preview (encodeRunes list) room
  rw [read] at preview
  rw [redacted]
  cases preview with
  | whole => rw [kept]
  | fitting split more reaches =>
      have := below _ _ split more
      omega
  | @marked front rest part split more long =>
      have := below _ _ split more
      have := length_trimmed_le front
      omega

/-! ## What the redactor writes is normal -/

/-- A copied rune is the first of the text and starts no value. -/
theorem scanStep_eq_char {s : Bytes} (copied : (scanStep s).1 = .char r) :
    r = (decodeRune s).1 ∧ (scanStep s).2 = (decodeRune s).2 ∧ r ≠ quote.toNat ∧
      isSpace r = false ∧ isDigit r = false := by
  unfold scanStep at copied ⊢
  by_cases escape : isEscapeStringStart s 0
  · rw [if_pos escape] at copied
    cases copied
  · rw [if_neg escape] at copied ⊢
    cases opens : dollarQuoteDelimiter s 0 with
    | some delimiter =>
        simp only [opens] at copied
        cases copied
    | none =>
        simp only [opens] at copied ⊢
        split_ifs at copied ⊢ with is_quote space digit
        cases copied
        exact ⟨rfl, rfl, is_quote, Bool.eq_false_iff.mpr space, Bool.eq_false_iff.mpr digit⟩

theorem emissions_char_spec {s : Bytes} (member : .char r ∈ emissions s) :
    validRune r = true ∧ r ≠ quote.toNat ∧ isSpace r = false ∧ isDigit r = false := by
  fun_induction emissions s with
  | case1 => cases member
  | case2 b rest ih =>
      rcases List.mem_cons.mp member with here | later
      · obtain ⟨first, _, plain⟩ := scanStep_eq_char here.symm
        exact ⟨first ▸ decodeRune_valid _, plain⟩
      · exact ih later

/-- The rest of the emissions is what the loop makes of some rest of the query. -/
theorem exists_emissions_eq {s : Bytes} {before after : List Emission}
    (split : emissions s = before ++ after) : ∃ rest, emissions rest = after := by
  induction before generalizing s with
  | nil => exact ⟨s, split⟩
  | cons emission before ih =>
      have nonempty : s ≠ [] := by
        rintro rfl
        simp at split
      rw [emissions_eq nonempty] at split
      exact ih (List.cons.inj split).2

/-- Copied ASCII text stands in the query as it is. -/
theorem isPrefix_of_emissions {text s : Bytes} (ascii : ∀ b ∈ text, isAscii b = true)
    (copied : (text.map UInt8.toNat).map .char <+: emissions s) : text <+: s := by
  induction text generalizing s with
  | nil => exact List.nil_prefix
  | cons b text ih =>
      cases s with
      | nil => simp at copied
      | cons c rest =>
          rw [emissions_eq (List.cons_ne_nil c rest), List.map_cons, List.map_cons,
            List.cons_prefix_cons] at copied
          obtain ⟨here, later⟩ := copied
          have first := ascii b List.mem_cons_self
          obtain ⟨value, width, _⟩ := scanStep_eq_char here.symm
          have same : c = b := (decodeRune_eq_ascii_iff first).mp value.symm
          subst same
          rw [width, decodeRune_ascii rest first, List.drop_succ_cons, List.drop_zero] at later
          exact List.cons_prefix_cons.mpr
            ⟨rfl, ih (fun d member => ascii d (List.mem_cons_of_mem c member)) later⟩

/-- The loop does not copy an opening delimiter. -/
theorem not_copied_delimiter {tag s : Bytes} (valid : isTag tag = true) :
    ¬ (delimiterRunes tag).map .char <:+: emissions s := by
  rintro ⟨before, after, whole⟩
  rw [List.append_assoc] at whole
  obtain ⟨rest, read⟩ := exists_emissions_eq whole.symm
  have copied : (delimiterRunes tag).map .char <+: emissions rest := ⟨after, read.symm⟩
  obtain ⟨more, text⟩ := isPrefix_of_emissions (isAscii_of_isTag valid) copied
  have opens := dollarQuoteDelimiter_delimiterOf more valid
  rw [text] at opens
  have value : (scanStep rest).1 = .value := by
    have no_escape : ¬ isEscapeStringStart rest 0 := by
      rw [← text]
      exact not_isEscapeStringStart _ (by decide) (by decide)
    rw [scanStep, if_neg no_escape, opens]
  have nonempty : rest ≠ [] := by
    rintro rfl
    simp [delimiterOf] at text
  rw [emissions_eq nonempty, value] at copied
  simp [delimiterRunes, delimiterOf] at copied

section Shown

variable {emissions : List Emission}

/-- A rune written is a mark, a blank or copied. -/
theorem mem_shown (member : r ∈ shown emissions) :
    r = mark.toNat ∨ r = blank.toNat ∨ .char r ∈ emissions := by
  induction emissions using List.reverseRecOn with
  | nil => cases member
  | append_singleton emissions emission ih =>
      rw [shown_snoc, List.mem_append] at member
      rcases member with earlier | here
      · exact (ih earlier).imp_right (Or.imp_right (List.mem_append_left _))
      · cases emission with
        | value => exact Or.inl (List.mem_singleton.mp here)
        | char c =>
            rw [List.mem_singleton.mp here]
            exact Or.inr (Or.inr (by simp))
        | space =>
            rw [Emission.runes] at here
            split_ifs at here
            · exact Or.inr (Or.inl (List.mem_singleton.mp here))
            · cases here

/-- After white space the text written ends in a blank. -/
theorem shown_of_spaced (space : spaced emissions = true) (nonempty : shown emissions ≠ []) :
    ∃ front, shown emissions = front ++ [blank.toNat] := by
  induction emissions using List.reverseRecOn with
  | nil => cases space
  | append_singleton emissions emission ih =>
      rw [spaced_snoc, beq_iff_eq] at space
      subst space
      rw [shown_snoc, Emission.runes] at nonempty ⊢
      split_ifs at nonempty ⊢ with separates
      · exact ⟨_, rfl⟩
      · rw [List.append_nil] at nonempty ⊢
        refine ih ?_ nonempty
        simpa [List.length_pos_iff, nonempty] using separates

theorem snoc_isSuffix_snoc {word list : List Nat} {last : Nat}
    (ending : word ++ [r] <:+ list ++ [last]) : r = last ∧ word <:+ list := by
  obtain ⟨before, whole⟩ := ending
  rw [← List.append_assoc] at whole
  obtain ⟨rest, same⟩ := List.append_inj' whole rfl
  exact ⟨(List.cons.inj same).1, before, rest⟩

/-- A word at the end of what was written, without marks and blanks, was copied last. -/
theorem isSuffix_of_shown {word : List Nat} (no_mark : mark.toNat ∉ word)
    (no_blank : blank.toNat ∉ word) (ending : word <:+ shown emissions) :
    word.map .char <:+ emissions := by
  induction emissions using List.reverseRecOn generalizing word with
  | nil =>
      rw [shown_nil, List.suffix_nil] at ending
      rw [ending, List.map_nil]
  | append_singleton emissions emission ih =>
      rcases List.eq_nil_or_concat word with rfl | ⟨word, r, rfl⟩
      · exact List.nil_suffix
      rw [List.concat_eq_append] at no_mark no_blank ending ⊢
      have not_blank : ∀ list, ¬ word ++ [r] <:+ list ++ [blank.toNat] := by
        intro list blanked
        exact no_blank (by simp [(snoc_isSuffix_snoc blanked).1])
      rw [shown_snoc] at ending
      cases emission with
      | value => exact absurd (by simp [(snoc_isSuffix_snoc ending).1]) no_mark
      | char c =>
          obtain ⟨rfl, earlier⟩ := snoc_isSuffix_snoc ending
          rw [List.mem_append, not_or] at no_mark no_blank
          obtain ⟨before, whole⟩ := ih no_mark.1 no_blank.1 earlier
          exact ⟨before, by simp [← whole]⟩
      | space =>
          rw [Emission.runes] at ending
          split_ifs at ending with separates
          · exact absurd ending (not_blank _)
          · -- Nothing was written for this white space, so there is a blank before it or nothing.
            rw [List.append_nil] at ending
            have nonempty : shown emissions ≠ [] := by
              intro empty
              rw [empty, List.suffix_nil] at ending
              simp at ending
            have space : spaced emissions = true := by
              simpa [List.length_pos_iff, nonempty] using separates
            obtain ⟨front, blanked⟩ := shown_of_spaced space nonempty
            rw [blanked] at ending
            exact absurd ending (not_blank front)

/-- A word that no part of the emissions ends in does not stand in the text written. -/
theorem not_isInfix_shown {word : List Nat} (nonempty : word ≠ [])
    (absent : ∀ front, front <+: emissions → ¬ word <:+ shown front) :
    ¬ word <:+: shown emissions := by
  induction emissions using List.reverseRecOn with
  | nil =>
      rw [shown_nil, List.infix_nil]
      exact nonempty
  | append_singleton emissions emission ih =>
      have earlier := ih fun front initial =>
        absent front (initial.trans (List.prefix_append _ _))
      have here := absent _ (List.prefix_refl _)
      have pieces : emission.runes (shown emissions) (spaced emissions) = [] ∨
          ∃ r, emission.runes (shown emissions) (spaced emissions) = [r] := by
        cases emission with
        | value => exact Or.inr ⟨_, rfl⟩
        | char r => exact Or.inr ⟨r, rfl⟩
        | space =>
            rw [Emission.runes]
            split_ifs
            · exact Or.inr ⟨_, rfl⟩
            · exact Or.inl rfl
      rw [shown_snoc] at here ⊢
      rcases pieces with nothing | ⟨r, one⟩
      · rwa [nothing, List.append_nil]
      · rw [one] at here ⊢
        rw [List.infix_concat_iff]
        exact not_or.mpr ⟨here, earlier⟩

/-- No two blanks are written in a row. -/
theorem not_blanks_isSuffix (copied : ∀ emission ∈ emissions, emission.Shown) :
    ¬ [blank.toNat, blank.toNat] <:+ shown emissions := by
  intro blanks
  have trailing : ¬ [blank.toNat] <:+ trimmed emissions := by
    rintro ⟨before, whole⟩
    have visible := last_trimmed emissions blank.toNat (by simp [← whole])
    cases visible
  have split : [blank.toNat, blank.toNat] = [blank.toNat] ++ [blank.toNat] := rfl
  rcases shown_eq_trimmed copied with same | ⟨blanked, _⟩
  · rw [same] at blanks
    exact trailing ((List.suffix_cons _ _).trans blanks)
  · rw [blanked, split] at blanks
    exact trailing (snoc_isSuffix_snoc blanks).2

end Shown

/-- The runes written for a query are normal. -/
theorem normal_shown (query : Bytes) : Normal (shown (emissions query)) where
  scalars := scalars_shown (emissions_shown query)
  quotes member := by
    rcases mem_shown member with marked | blanked | copied
    · cases marked
    · cases blanked
    · exact (emissions_char_spec copied).2.1 rfl
  digits r member := by
    rcases mem_shown member with rfl | rfl | copied
    · decide
    · decide
    · exact (emissions_char_spec copied).2.2.2
  delimiters tag valid := by
    refine not_isInfix_shown (by simp [delimiterRunes, delimiterOf]) fun front initial ending => ?_
    have copied := isSuffix_of_shown (notMem_delimiterRunes valid (by decide) (by decide))
      (notMem_delimiterRunes valid (by decide) (by decide)) ending
    exact not_copied_delimiter valid (copied.isInfix.trans initial.isInfix)
  spaces r member space := by
    rcases mem_shown member with rfl | rfl | copied
    · cases space
    · rfl
    · rw [(emissions_char_spec copied).2.2.1] at space
      cases space
  first := first_shown (emissions_shown query)
  single := by
    refine not_isInfix_shown (by simp) fun front initial => not_blanks_isSuffix ?_
    exact fun emission member => emissions_shown query emission (initial.subset member)

/-! ## Previews -/

section Previews

variable {query : Bytes} {maxBytes : Nat} {cut : Bool}

theorem normal_trimmed {front rest : List Emission} (split : emissions query = front ++ rest) :
    Normal (trimmed front) := by
  have initial : front <+: emissions query := ⟨rest, split.symm⟩
  exact (normal_shown query).of_isPrefix
    ((trimmed_isPrefix_shown front).trans (shown_isPrefix initial))

/-- The runes of a preview are normal. -/
theorem Preview.normal (preview : Preview maxBytes (emissions query) list cut) : Normal list := by
  cases preview with
  | whole => exact normal_trimmed (List.append_nil _).symm
  | fitting split => exact normal_trimmed split
  | marked split more long initial =>
      exact ((normal_trimmed split).of_isPrefix initial).snoc (by decide) (by decide) (by decide)
        (by decide) (by decide)

/-- A preview ends in a visible rune. -/
theorem Preview.last (preview : Preview maxBytes (emissions query) list cut) :
    ∀ r ∈ list.getLast?, isSpace r = false := by
  cases preview with
  | whole => exact last_trimmed _
  | fitting => exact last_trimmed _
  | marked =>
      intro r member
      rw [List.getLast?_concat] at member
      cases member
      decide

/-- What stands in front of the last rune of a preview is below the budget. -/
theorem Preview.fits (preview : Preview maxBytes (emissions query) list cut) :
    ∀ front r, list = front ++ [r] → (encodeRunes front).length < maxBytes := by
  have shorter : ∀ front r, (encodeRunes front).length < (encodeRunes (front ++ [r])).length := by
    intro front r
    have positive := length_encodeRune_pos r
    simp only [encodeRunes_append, encodeRunes_cons, encodeRunes_nil, List.append_nil,
      List.length_append]
    omega
  intro front r ends
  have less := shorter front r
  rw [← ends] at less
  cases preview with
  | fitting _ _ _ fits => omega
  | marked _ _ _ _ fits => omega
  | whole below =>
      rcases List.eq_nil_or_concat (emissions query) with empty | ⟨before, emission, whole⟩
      · rw [empty] at ends
        simp [trimmed] at ends
      · rw [List.concat_eq_append] at whole
        have copied := emissions_shown query emission (by simp [whole])
        have under := below before [emission] whole (List.cons_ne_nil _ _)
        have within := length_trimmed_le before
        rw [whole] at ends less
        by_cases space : emission = .space
        · rw [space, trimmed_snoc_space] at less
          omega
        · rw [trimmed_snoc_of_ne space copied, shown_snoc] at ends
          cases emission with
          | space => exact absurd rfl space
          | value =>
              rwa [← (List.append_inj' ends rfl).1, ← written_eq]
          | char c =>
              rwa [← (List.append_inj' ends rfl).1, ← written_eq]

end Previews

/-- A text as the log is meant to show it: valid UTF-8 without quotes and digits, and with no white
space but single blanks between other runes. -/
structure NormalForm (preview : Bytes) : Prop where
  /-- The text is valid UTF-8. -/
  valid : validString preview = true
  /-- No rune is a quote. -/
  quotes : quote.toNat ∉ runes preview
  /-- No rune is a digit. -/
  digits : ∀ r ∈ runes preview, isDigit r = false
  /-- White space is written as blanks. -/
  spaces : ∀ r ∈ runes preview, isSpace r = true → r = blank.toNat
  /-- No blank follows another one. -/
  single : ¬ [blank.toNat, blank.toNat] <:+: runes preview
  /-- There is none at the head. -/
  first : ∀ r ∈ (runes preview).head?, isSpace r = false
  /-- There is none at the end. -/
  last : ∀ r ∈ (runes preview).getLast?, isSpace r = false

/-- Every preview is in normal form, whatever the bytes of the query are. -/
theorem normalForm_redactSQLValues (query : Bytes) {maxBytes : Nat} (room : 3 ≤ maxBytes) :
    NormalForm (redactSQLValues query maxBytes).1 := by
  obtain ⟨list, cut, redacted, preview⟩ := exists_preview query room
  have normal := preview.normal
  have decoded := runes_encodeRunes normal.scalars
  rw [redacted]
  constructor
  case valid => exact validString_encodeRunes normal.scalars
  all_goals rw [decoded]
  case quotes => exact normal.quotes
  case digits => exact normal.digits
  case spaces => exact normal.spaces
  case single => exact normal.single
  case first => exact normal.first
  case last => exact preview.last

/-- An unterminated literal behind an invalid byte and white space of several kinds. -/
def malformed : Bytes := [0xFF, 0x09, 0xC2, 0xA0, 0x27, 0x31]

theorem normalForm_malformed : NormalForm (redactSQLValues malformed 3).1 :=
  normalForm_redactSQLValues malformed (by decide)

/-- Redaction is idempotent: a preview is redacted to itself, and nothing of it is cut. -/
theorem redactSQLValues_idempotent (query : Bytes) {maxBytes : Nat} (room : 3 ≤ maxBytes) :
    redactSQLValues (redactSQLValues query maxBytes).1 maxBytes =
      ((redactSQLValues query maxBytes).1, false) := by
  obtain ⟨list, cut, redacted, preview⟩ := exists_preview query room
  rw [redacted]
  exact redactSQLValues_normal preview.normal preview.last room preview.fits

theorem idempotent_malformed :
    redactSQLValues (redactSQLValues malformed 3).1 3 = ((redactSQLValues malformed 3).1, false) :=
  redactSQLValues_idempotent malformed (by decide)

end CommonGo.Redact
