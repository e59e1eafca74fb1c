/-!
# Wrapped errors

The part of the errors package that the other packages lean on: `Wrap` puts a message around an
error and leaves a nil error nil, and `errors.Is` looks through the messages.  Before it wraps an
error, `Wrap` translates it as the translations that a program has registered say.
-/

namespace CommonGo

variable {ε : Type}

/-- An error from elsewhere, or one with a message around it. -/
inductive Error (ε : Type) where
  | base (err : ε)
  | wrapped (message : String) (err : Error ε)
  deriving DecidableEq, Repr

/-- `ctxerrors.Wrap` as long as no translation is registered.  No package of this repository
registers one. -/
def wrap (err : Option (Error ε)) (message : String) : Option (Error ε) :=
  err.map (.wrapped message)

@[simp] theorem wrap_none (message : String) : wrap (none : Option (Error ε)) message = none := rfl

@[simp] theorem wrap_some (err : Error ε) (message : String) :
    wrap (some err) message = some (.wrapped message err) := rfl

/-! ## Looking for an error -/

/-- What `errors.Is` finds in an error from elsewhere, which may be of a type with a method of its
own for it, or of one that cannot be compared: such an error is not found in itself. -/
abbrev Finds (ε : Type) := ε → Error ε → Bool

/-- The registered translations, in the order in which the loop over them goes. -/
abbrev ErrorMap (ε : Type) := List (Error ε × Error ε)

section Find

variable [DecidableEq ε] (finds : Finds ε)

/-- `errors.Is` for errors that are not nil. -/
def Error.is : Error ε → Error ε → Bool
  | .base err, target => finds err target
  | .wrapped message err, target => .wrapped message err == target || err.is target

/-- `translate`: the first translation of an error that is found counts. -/
def translate (map : ErrorMap ε) (err : Error ε) : Error ε :=
  match map.find? fun entry => err.is finds entry.1 with
  | some entry => entry.2
  | none => err

/-- `ctxerrors.Wrap`. -/
def wrapTranslated (map : ErrorMap ε) (err : Option (Error ε)) (message : String) :
    Option (Error ε) :=
  err.map fun err => .wrapped message (translate finds map err)

theorem wrapTranslated_nil : wrapTranslated finds [] = wrap := rfl

@[simp] theorem isSome_wrapTranslated (map : ErrorMap ε) (err : Option (Error ε))
    (message : String) : (wrapTranslated finds map err message).isSome = err.isSome := by
  simp [wrapTranslated]

/-- What is found in an error is found in it with a message around it. -/
theorem Error.is_wrapped {err target : Error ε} (found : err.is finds target = true)
    (message : String) : (wrapped message err).is finds target = true := by
  rw [is, found, Bool.or_true]

end Find

end CommonGo
