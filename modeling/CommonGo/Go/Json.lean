import CommonGo.Go.Strings

/-!
# Strings in JSON

`encoding/json` writes strings as valid UTF-8 and puts the replacement rune in the place of every
byte that starts no rune.  A reader gets back the string as it was exactly if it was valid.
-/

namespace Go

/-- A string as a reader of its JSON encoding gets it. -/
def jsonString : Bytes → Bytes
  | [] => []
  | b :: rest =>
      encodeRune (decodeRune (b :: rest)).1 ++
        jsonString ((b :: rest).drop (decodeRune (b :: rest)).2)
termination_by s => s.length
decreasing_by
  have positive := decodeRune_width_pos (List.cons_ne_nil b rest)
  rw [List.length_drop, List.length_cons]
  omega

/-- A rune that decodes is written with the bytes it was read from. -/
theorem take_decodeRune {s : Bytes} (nonempty : s ≠ []) (decodes : decodeRune s ≠ (runeError, 1)) :
    encodeRune (decodeRune s).1 = s.take (decodeRune s).2 := by
  obtain ⟨b, rest, rfl⟩ := List.exists_cons_of_ne_nil nonempty
  cases ascii : isAscii b with
  | true =>
      have small : b.toNat < 0x80 := by simpa [isAscii] using ascii
      rw [decodeRune_ascii rest ascii, encodeRune_ascii small]
      simp
  | false =>
      cases decoded : decodeMultibyte (b :: rest) with
      | none => simp [decodeRune, ascii, decoded] at decodes
      | some result =>
          obtain ⟨r, size⟩ := result
          have whole := (decodeMultibyte_spec decoded).2.2.2.2.2
          simp [decodeRune, ascii, decoded, whole]

theorem jsonString_eq_self {s : Bytes} (valid : validString s = true) : jsonString s = s := by
  induction s using jsonString.induct with
  | case1 => rw [jsonString]
  | case2 b rest ih =>
      rw [validString] at valid
      split at valid
      · cases valid
      · next decodes =>
          rw [jsonString, ih valid, take_decodeRune (List.cons_ne_nil b rest) decodes,
            List.take_append_drop]

/-- The encoding is longer by two bytes for every byte that was replaced. -/
theorem length_jsonString (s : Bytes) :
    s.length ≤ (jsonString s).length ∧
      ((jsonString s).length = s.length → validString s = true) := by
  induction s using jsonString.induct with
  | case1 => simp [jsonString, validString]
  | case2 b rest ih =>
      rw [jsonString, validString, List.length_append]
      have width := decodeRune_width_le (b :: rest)
      have shorter := @List.length_drop _ (decodeRune (b :: rest)).2 (b :: rest)
      split
      · next replaced =>
          have three : (encodeRune (decodeRune (b :: rest)).1).length = 3 := by
            rw [replaced]
            decide
          rw [replaced] at shorter ih three ⊢
          simp only [List.length_cons] at *
          omega
      · next decodes =>
          rw [take_decodeRune (List.cons_ne_nil b rest) decodes, List.length_take_of_le width]
          refine ⟨by omega, ?_⟩
          intro equal
          exact ih.2 (by omega)

/-- Strings that are written one after another come back as they were exactly if each is valid. -/
theorem flatMap_jsonString_eq_iff {chunks : List Bytes} :
    chunks.flatMap jsonString = chunks.flatten ↔ ∀ chunk ∈ chunks, validString chunk = true := by
  constructor
  · intro same
    have longer : ∀ chunks : List Bytes,
        chunks.flatten.length ≤ (chunks.flatMap jsonString).length := by
      intro chunks
      induction chunks with
      | nil => simp
      | cons chunk chunks ih =>
          have here := (length_jsonString chunk).1
          simp only [List.flatten_cons, List.flatMap_cons, List.length_append]
          omega
    induction chunks with
    | nil => nofun
    | cons chunk chunks ih =>
        rw [List.flatten_cons, List.flatMap_cons] at same
        have total := congrArg List.length same
        rw [List.length_append, List.length_append] at total
        have here := length_jsonString chunk
        have there := longer chunks
        have equal : (jsonString chunk).length = chunk.length := by omega
        intro other member
        rcases List.mem_cons.mp member with rfl | member
        · exact here.2 equal
        · exact ih (List.append_inj same equal).2 other member
  · intro valid
    induction chunks with
    | nil => rfl
    | cons chunk chunks ih =>
        rw [List.flatMap_cons, List.flatten_cons, jsonString_eq_self (valid _ List.mem_cons_self),
          ih fun other member => valid other (List.mem_cons_of_mem _ member)]

end Go
