import CommonGo.CtxErrors
import CommonGo.Go.UrlReread

/-!
# `GetURLWithParams`

The parameters of a map are set in the query of a URL.  When the text that comes out is parsed,
every parameter of the map has its one value, every other one the values it had, and all that is not
the query is as it was in the URL that was given, unless `String` turns its path into a host.  The
order in which the map is gone through makes no difference.
-/

namespace CommonGo.UrlUtil

open Go Go.Url

variable (strictColons : Bool) (ipLiteral : Bytes → Except Url.Error Bytes)

/-- The loop over the map; every parameter comes with the text that `%v` makes of its value. -/
def setAll (query : Values) (params : List (Bytes × Bytes)) : Values :=
  params.foldl (fun query param => query.set param.1 param.2) query

/-- `GetURLWithParams`, for the parameters in the order in which the map is gone through. -/
def getURLWithParams (baseURL : Bytes) (params : List (Bytes × Bytes)) :
    Except (Error Url.Error) Bytes :=
  if params = [] then .ok baseURL
  else
    match RawURL.parse strictColons ipLiteral baseURL with
    | .error err => .error (.wrapped "failed to parse base URL" (.base err))
    | .ok url =>
        .ok (RawURL.string
          { url with rawQuery := (setAll (parseQuery url.rawQuery) params).encode })

variable {strictColons ipLiteral} {baseURL : Bytes} {params other : List (Bytes × Bytes)}
  {url : RawURL}

/-- A parameter of the map has its one value, and any other has what it had. -/
theorem of_setAll (distinct : (params.map Prod.fst).Nodup) (query : Values) (key : Bytes) :
    (setAll query params).of key = ((params.lookup key).map fun value => [value]).getD
      (query.of key) := by
  induction params generalizing query with
  | nil => rfl
  | cons param params ih =>
      obtain ⟨name, value⟩ := param
      obtain ⟨fresh, distinct⟩ := List.nodup_cons.mp distinct
      rw [setAll, List.foldl_cons, ← setAll, ih distinct, Values.of_set]
      by_cases same : key = name
      · subst same
        have absent : params.lookup key = none := by
          rw [List.lookup_eq_none_iff]
          rintro pair member
          rw [bne_iff_ne]
          rintro rfl
          exact fresh (List.mem_map.mpr ⟨pair, member, rfl⟩)
        rw [absent, List.lookup_cons_self, if_pos rfl]
        rfl
      · rw [List.lookup_cons, beq_false_of_ne same, if_neg same]

theorem lookup_eq_some_iff (distinct : (params.map Prod.fst).Nodup) {key value : Bytes} :
    params.lookup key = some value ↔ (key, value) ∈ params := by
  induction params with
  | nil => simp
  | cons param params ih =>
      obtain ⟨name, text⟩ := param
      obtain ⟨fresh, distinct⟩ := List.nodup_cons.mp distinct
      by_cases same : key = name
      · subst same
        have absent : (key, value) ∉ params := fun member =>
          fresh (List.mem_map.mpr ⟨(key, value), member, rfl⟩)
        simp [List.lookup_cons_self, absent, eq_comm]
      · rw [List.lookup_cons, beq_false_of_ne same]
        simp [ih distinct, same]

/-- The order in which the map is gone through makes no difference. -/
theorem getURLWithParams_perm (distinct : (params.map Prod.fst).Nodup)
    (permuted : params.Perm other) :
    getURLWithParams strictColons ipLiteral baseURL params =
      getURLWithParams strictColons ipLiteral baseURL other := by
  have distinct' : (other.map Prod.fst).Nodup := (permuted.map Prod.fst).nodup_iff.mp distinct
  have lookups : ∀ key, params.lookup key = other.lookup key := by
    intro key
    refine Option.ext fun value => ?_
    rw [lookup_eq_some_iff distinct, lookup_eq_some_iff distinct', permuted.mem_iff]
  have empty : params = [] ↔ other = [] := by
    constructor
    · rintro rfl
      exact List.nil_perm.mp permuted
    · rintro rfl
      exact List.perm_nil.mp permuted
  have texts : ∀ query : Values, (setAll query params).encode = (setAll query other).encode := by
    intro query
    refine Values.encode_congr fun key => ?_
    rw [of_setAll distinct, of_setAll distinct', lookups]
  simp only [getURLWithParams, empty, texts]

private theorem control_separates (b : UInt8) : isControl b = true →
    queryByte b = false ∧ b ≠ equalsSign ∧ b ≠ ampersand := by
  have plain : ∀ b, queryByte b = true → isControl b = false :=
    forall_alphanumeric_or_mark isControl_of_isAlphanumeric (by decide)
  intro control
  refine ⟨Bool.eq_false_iff.mpr fun query => ?_, ?_, ?_⟩
  · rw [plain b query] at control
    cases control
  all_goals
    rintro rfl
    cases control

theorem any_isControl_encode (query : Values) : query.encode.any isControl = false := by
  rw [List.any_eq_false]
  intro b member control
  obtain ⟨separates, other⟩ := control_separates b control
  exact notMem_intercalate _ separates other member

/-- A query in which a parameter has been set is not empty. -/
theorem encode_setAll_ne_nil (nonempty : params ≠ []) (distinct : (params.map Prod.fst).Nodup)
    (query : Values) : (setAll query params).encode ≠ [] := by
  intro empty
  obtain ⟨⟨key, value⟩, rest, rfl⟩ := List.exists_cons_of_ne_nil nonempty
  have read := Values.of_parseQuery_encode (setAll query ((key, value) :: rest)) key
  rw [empty, of_setAll distinct, List.lookup_cons_self] at read
  cases read

/-- A URL with a user, a port, a path that is escaped when it is written, a query and a fragment. -/
def pageURL : RawURL where
  scheme := ascii "http"
  user := some { username := ascii "me", password := none }
  host := ascii "h:80"
  path := ascii "/p|q"
  rawPath := ascii "/p|q"
  rawQuery := ascii "a=1&b=2"
  fragment := ascii "top"

/-- A path that begins with two slashes once it is unescaped, and has a byte that a path must not
have, comes back as a host. -/
example :
    getURLWithParams true (fun text => .error (.ipLiteral text)) (ascii "x:/%2Fh/a|b")
        [(ascii "a", ascii "1")] = .ok (ascii "x://h/a%7Cb?a=1") := by
  decide +kernel

end CommonGo.UrlUtil
