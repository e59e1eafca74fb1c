import CommonGo.Go.Strings

/-!
# Paths of Go, and what they denote

`filepath.Clean` and `filepath.Abs` change a path by its text.  The directory that a path denotes is
found by walking a tree of files, in which a name may be a link to any directory.  Without links,
cleaning a path does not change what it denotes.
-/

namespace Go.Filepath

/-- The separator. -/
def slash : UInt8 := 0x2F

/-- The element for the place itself. -/
def dot : Bytes := ascii "."

/-- The element for the way back. -/
def dotDot : Bytes := ascii ".."

/-- The elements of a path between its slashes. -/
def elements (path : Bytes) : List Bytes := path.splitOn slash

theorem elements_cons (path : Bytes) : elements (slash :: path) = [] :: elements path := by
  simp [elements, List.splitOn_cons_eq_if_modifyHead]

theorem slash_notMem_elements {path element : Bytes} (member : element ∈ elements path) :
    slash ∉ element := by
  induction path generalizing element with
  | nil =>
      rw [elements, List.splitOn_nil, List.mem_singleton] at member
      simp [member]
  | cons b rest ih =>
      rw [elements, List.splitOn_cons_eq_if_modifyHead, ← elements] at member
      cases split : elements rest with
      | nil => exact absurd split (List.splitOn_ne_nil slash rest)
      | cons first others =>
          rw [split] at member ih
          split_ifs at member with separates
          · rcases List.mem_cons.mp member with rfl | behind
            · simp
            · exact ih behind
          · rcases List.mem_cons.mp member with rfl | behind
            · have other : b ≠ slash := by simpa using separates
              simp [other.symm, ih List.mem_cons_self]
            · exact ih (List.mem_cons_of_mem _ behind)

/-! ## Cleaning -/

/-- The elements kept so far, last first, when one more is read in a rooted path. -/
def cleanStep (kept : List Bytes) (element : Bytes) : List Bytes :=
  if element = [] ∨ element = dot then kept
  else if element = dotDot then kept.tail
  else element :: kept

theorem mem_of_mem_cleanStep {path kept : List Bytes} {element : Bytes}
    (member : element ∈ path.foldl cleanStep kept) : element ∈ path ∨ element ∈ kept := by
  induction path generalizing kept with
  | nil => exact Or.inr member
  | cons first rest ih =>
      rw [List.foldl_cons] at member
      rcases ih member with behind | before
      · exact Or.inl (List.mem_cons_of_mem _ behind)
      · rw [cleanStep] at before
        split_ifs at before
        · exact Or.inr before
        · exact Or.inr (List.mem_of_mem_tail before)
        · rcases List.mem_cons.mp before with rfl | before
          · exact Or.inl List.mem_cons_self
          · exact Or.inr before

/-- `filepath.Clean` of a rooted path. -/
def clean (path : Bytes) : Bytes :=
  slash :: [slash].intercalate ((elements path).foldl cleanStep []).reverse

/-- `filepath.Abs` of a path that is not absolute, in a working directory. -/
def abs (wd path : Bytes) : Bytes := clean (wd ++ slash :: path)

/-! ## Walking -/

/-- A file system.  Links are followed by `enter`, and a directory has the entries `.` and `..`. -/
structure Tree (δ : Type) where
  /-- The root directory. -/
  root : δ
  /-- Where a name leads from a place. -/
  enter : δ → Bytes → Option δ

namespace Tree

variable {δ : Type} (tree : Tree δ)

/-- Walk on by one element, where an empty one stands for the directory itself. -/
def step (place : δ) (element : Bytes) : Option δ :=
  tree.enter place (if element = [] then dot else element)

/-- What an absolute path denotes. -/
def denotes (path : Bytes) : Option δ := (elements path).foldlM tree.step tree.root

/-- What `os.Stat` finds under a path, in a working directory. -/
def stat (wd path : Bytes) : Option δ :=
  if path.head? = some slash then tree.denotes path else tree.denotes (wd ++ slash :: path)

/-- A file system without links: the way back from a name leads to where the name was found. -/
structure LinkFree : Prop where
  /-- A dot leads nowhere else. -/
  here : ∀ {place next}, tree.enter place dot = some next → next = place
  /-- Two dots lead back. -/
  back : ∀ {place name next last}, name ≠ dot → name ≠ dotDot → tree.enter place name = some next →
    tree.enter next dotDot = some last → last = place
  /-- There is no way back from the root. -/
  top : ∀ {next}, tree.enter tree.root dotDot = some next → next = tree.root

variable {tree}

/-- The elements kept lead to the place reached. -/
theorem LinkFree.walk_kept (linkFree : tree.LinkFree) {path : List Bytes} {kept : List Bytes}
    {place last : δ} (reached : kept.reverse.foldlM tree.step tree.root = some place)
    (names : ∀ name ∈ kept, name ≠ [] ∧ name ≠ dot ∧ name ≠ dotDot)
    (walked : path.foldlM tree.step place = some last) :
    (path.foldl cleanStep kept).reverse.foldlM tree.step tree.root = some last ∧
      ∀ name ∈ path.foldl cleanStep kept, name ≠ [] ∧ name ≠ dot ∧ name ≠ dotDot := by
  induction path generalizing kept place with
  | nil =>
      cases walked
      exact ⟨reached, names⟩
  | cons element rest ih =>
      rw [List.foldlM_cons] at walked
      obtain ⟨next, stepped, behind⟩ := Option.bind_eq_some_iff.mp walked
      rw [List.foldl_cons, cleanStep]
      split_ifs with still up
      · have same : next = place := by
          apply linkFree.here
          rcases still with rfl | rfl
          · exact stepped
          · exact stepped
        subst same
        exact ih reached names behind
      · subst up
        have upward : tree.enter place dotDot = some next := stepped
        cases kept with
        | nil =>
            cases reached
            have same := linkFree.top upward
            subst same
            exact ih rfl names behind
        | cons name kept =>
            rw [List.reverse_cons, List.foldlM_append] at reached
            obtain ⟨before, front, entered⟩ := Option.bind_eq_some_iff.mp reached
            obtain ⟨nonempty, noDot, noDotDot⟩ := names name List.mem_cons_self
            have same : next = before := by
              apply linkFree.back noDot noDotDot _ upward
              simpa [step, nonempty] using entered
            subst same
            exact ih front (fun other member => names other (List.mem_cons_of_mem _ member)) behind
      · refine ih ?_ ?_ behind
        · rw [List.reverse_cons, List.foldlM_append, reached]
          simpa using stepped
        · intro name member
          rcases List.mem_cons.mp member with rfl | member
          · exact ⟨fun empty => still (Or.inl empty), fun same => still (Or.inr same), up⟩
          · exact names name member

/-- Without links, a rooted path denotes the same when it is cleaned. -/
theorem LinkFree.denotes_clean (linkFree : tree.LinkFree) {path : Bytes} {last : δ}
    (rooted : path.head? = some slash) (found : tree.denotes path = some last) :
    tree.denotes (clean path) = some last := by
  obtain ⟨rest, rfl⟩ := List.head?_eq_some_iff.mp rooted
  rw [denotes, elements_cons, List.foldlM_cons] at found
  obtain ⟨next, first, walked⟩ := Option.bind_eq_some_iff.mp found
  have same : next = tree.root := linkFree.here first
  subst same
  obtain ⟨reached, _⟩ := @LinkFree.walk_kept δ tree linkFree (elements rest) [] tree.root last rfl
    (by simp) walked
  have start : tree.step tree.root [] = some tree.root := first
  have kept : (elements (slash :: rest)).foldl cleanStep [] =
      (elements rest).foldl cleanStep [] := by
    rw [elements_cons]
    rfl
  rw [clean, kept, denotes, elements_cons, List.foldlM_cons, start]
  change (elements _).foldlM tree.step tree.root = some last
  rcases List.eq_nil_or_concat ((elements rest).foldl cleanStep []) with empty | ⟨_, _, split⟩
  · rw [empty] at reached ⊢
    cases reached
    simpa [elements, List.splitOn_nil] using start
  · rw [elements, List.splitOn_intercalate, reached]
    · intro name member
      have element := mem_of_mem_cleanStep (List.mem_reverse.mp member)
      exact slash_notMem_elements (element.resolve_right (by simp))
    · simp [split]

end Tree

end Go.Filepath
