import CommonGo.Go.Url

/-!
# Joining paths to a URL

`JoinURLPaths` trims the slashes from every path, leaves out those of which nothing is left, and
puts one slash in front of each of the others.  Lists of paths act on URLs that way: to join one
list after another is to join both at once.
-/

namespace CommonGo.UrlUtil

open Go Go.Url

/-- The loop of `JoinURLPaths` over its paths. -/
def cleanPaths (paths : List Bytes) : List Bytes :=
  paths.foldl (fun clean path =>
    if trimByte path slash ≠ [] then clean ++ [trimByte path slash] else clean) []

/-- `JoinURLPaths`. -/
def joinURLPaths (baseURL : Bytes) (paths : List Bytes) : Bytes :=
  if (cleanPaths paths).length = 0 then trimRightByte baseURL slash
  else trimRightByte baseURL slash ++ [slash] ++ [slash].intercalate (cleanPaths paths)

/-! ## The paths that are left -/

theorem cleanPaths_eq (paths : List Bytes) :
    cleanPaths paths = (paths.map (trimByte · slash)).filter (· ≠ []) := by
  suffices from_start : ∀ clean, paths.foldl (fun clean path =>
      if trimByte path slash ≠ [] then clean ++ [trimByte path slash] else clean) clean =
        clean ++ (paths.map (trimByte · slash)).filter (· ≠ []) from from_start []
  induction paths with
  | nil => simp
  | cons path paths ih =>
      intro clean
      rw [List.foldl_cons, ih, List.map_cons]
      by_cases empty : trimByte path slash = []
      · simp [empty]
      · simp [empty]

theorem cleanPaths_append (paths more : List Bytes) :
    cleanPaths (paths ++ more) = cleanPaths paths ++ cleanPaths more := by
  simp only [cleanPaths_eq, List.map_append, List.filter_append]

theorem cleanPaths_cons (path : Bytes) (paths : List Bytes) :
    cleanPaths (path :: paths) = cleanPaths [path] ++ cleanPaths paths :=
  cleanPaths_append [path] paths

/-- A path that is left has no slash at either end. -/
theorem trimmed_of_mem_cleanPaths {path : Bytes} {paths : List Bytes}
    (member : path ∈ cleanPaths paths) :
    path ≠ [] ∧ path.head? ≠ some slash ∧ path.getLast? ≠ some slash := by
  rw [cleanPaths_eq, List.mem_filter] at member
  obtain ⟨inside, nonempty⟩ := member
  obtain ⟨original, _, rfl⟩ := List.mem_map.mp inside
  refine ⟨by simpa using nonempty, head?_trimLeftByte _ _, ?_⟩
  rw [trimByte_eq]
  exact getLast?_trimRightByte _ _

/-! ## Joining -/

/-- The URL without trailing slashes, and one slash in front of each path that is left. -/
theorem joinURLPaths_eq (baseURL : Bytes) (paths : List Bytes) :
    joinURLPaths baseURL paths =
      trimRightByte baseURL slash ++ (cleanPaths paths).flatMap (slash :: ·) := by
  rw [joinURLPaths]
  cases cleanPaths paths with
  | nil => simp
  | cons first rest =>
      rw [if_neg (by simp), List.append_assoc]
      congr 1
      induction rest generalizing first with
      | nil => simp
      | cons second rest ih => simpa [List.intercalate] using ih second

/-- What has been joined has no trailing slash. -/
theorem trimRightByte_joinURLPaths (baseURL : Bytes) (paths : List Bytes) :
    trimRightByte (joinURLPaths baseURL paths) slash = joinURLPaths baseURL paths := by
  rw [joinURLPaths_eq]
  rcases List.eq_nil_or_concat (cleanPaths paths) with none | ⟨front, last, split⟩
  · rw [none, List.flatMap_nil, List.append_nil]
    exact List.rdropWhile_idempotent _ _
  · rw [List.concat_eq_append] at split
    have member : last ∈ cleanPaths paths := by simp [split]
    obtain ⟨nonempty, _, trimmed⟩ := trimmed_of_mem_cleanPaths member
    apply trimRightByte_of_getLast?
    rw [split, List.flatMap_append, ← List.append_assoc, List.flatMap_singleton,
      List.append_cons, List.getLast?_append_of_ne_nil _ nonempty]
    exact trimmed

theorem joinURLPaths_append (baseURL : Bytes) (paths more : List Bytes) :
    joinURLPaths (joinURLPaths baseURL paths) more = joinURLPaths baseURL (paths ++ more) := by
  rw [joinURLPaths_eq, trimRightByte_joinURLPaths, joinURLPaths_eq, joinURLPaths_eq,
    cleanPaths_append, List.flatMap_append, List.append_assoc]

/-! ## Slashes that do not matter -/

theorem trimByte_pad (front back : Nat) (path : Bytes) :
    trimByte (List.replicate front slash ++ path ++ List.replicate back slash) slash =
      trimByte path slash := by
  rw [trimByte, trimRightByte_replicate, ← trimByte, trimByte_eq, trimLeftByte_replicate,
    ← trimByte_eq]

theorem cleanPaths_pad (front back : Nat) (path : Bytes) :
    cleanPaths [List.replicate front slash ++ path ++ List.replicate back slash] =
      cleanPaths [path] := by
  rw [cleanPaths_eq, cleanPaths_eq, List.map_singleton, List.map_singleton, trimByte_pad]

theorem cleanPaths_slashes (count : Nat) : cleanPaths [List.replicate count slash] = [] := by
  have padded := cleanPaths_pad count 0 []
  rwa [List.append_nil, List.replicate_zero, List.append_nil] at padded

/-- Lists of paths act on URLs, and the slashes at the ends of their parts do not matter. -/
theorem joinURLPaths_action (baseURL : Bytes) (paths more : List Bytes) :
    joinURLPaths (joinURLPaths baseURL paths) more = joinURLPaths baseURL (paths ++ more) ∧
      (∀ front back path,
        joinURLPaths baseURL
            (paths ++ (List.replicate front slash ++ path ++ List.replicate back slash) :: more) =
          joinURLPaths baseURL (paths ++ path :: more)) ∧
      (∀ count, joinURLPaths (baseURL ++ List.replicate count slash) paths =
        joinURLPaths baseURL paths) ∧
      (∀ count, joinURLPaths baseURL (paths ++ List.replicate count slash :: more) =
        joinURLPaths baseURL (paths ++ more)) ∧
      joinURLPaths baseURL paths =
        trimRightByte baseURL slash ++
          ((paths.map (trimByte · slash)).filter (· ≠ [])).flatMap (slash :: ·) ∧
      ∀ path ∈ (paths.map (trimByte · slash)).filter (· ≠ []),
        path ≠ [] ∧ path.head? ≠ some slash ∧ path.getLast? ≠ some slash := by
  rw [← cleanPaths_eq, ← joinURLPaths_eq]
  refine ⟨joinURLPaths_append baseURL paths more, fun front back path => ?_, fun count => ?_,
    fun count => ?_, rfl, fun path => trimmed_of_mem_cleanPaths⟩
  · rw [joinURLPaths_eq, joinURLPaths_eq, cleanPaths_append, cleanPaths_append, cleanPaths_cons,
      cleanPaths_cons path, cleanPaths_pad]
  · rw [joinURLPaths_eq, joinURLPaths_eq, trimRightByte_replicate]
  · rw [joinURLPaths_eq, joinURLPaths_eq, cleanPaths_append, cleanPaths_append, cleanPaths_cons,
      cleanPaths_slashes, List.nil_append]

/-- A base with a trailing slash, and a path that is all slashes. -/
theorem joinURLPaths_action_sample :
    joinURLPaths (joinURLPaths (ascii "http://h/") [ascii "/api/", ascii "//"]) [ascii "v1"] =
        ascii "http://h/api/v1" ∧
      ascii "api" ≠ [] ∧ (ascii "api").head? ≠ some slash ∧
      (ascii "api").getLast? ≠ some slash := by
  obtain ⟨joined, _, _, _, _, trimmed⟩ :=
    joinURLPaths_action (ascii "http://h/") [ascii "/api/", ascii "//"] [ascii "v1"]
  exact ⟨joined.trans (by decide), trimmed (ascii "api") (by decide)⟩

end CommonGo.UrlUtil
