/-!
# Failures of a query

Each constructor names a cause. Values appear in it as their text, which is made
together with the failure. A value may have none (a time out of reach of its written
form), and then there is no failure to return: making it panics, which breaks off
whatever is going on, and changes made up to then stay. A failure without a message
stands for such a panic. It is never told to anybody; those with a message are.

A failed compilation wraps its cause once for every plan element around it, the
outermost first.
-/

namespace StreamQuery

/-- The text of a value, or nothing where the value has no written form. -/
abbrev Rendering := Option String

inductive Error where
  /-- An aggregate met a value of another kind than the one it is locked to. -/
  | mixedTypes (aggregate kind : String) (value : Rendering)
      (lockedKind : String) (lockedValue : Rendering)
  /-- An operator or aggregate does not take values of this kind at all. -/
  | invalidType (context kind : String) (value : Rendering)
  | groupNotFound (aggregate : String) (key : Rendering)
  | compile (element : String) (cause : Error)
  | internal (message : String)
  | typeMismatch (left right : String)
  | invalidArgument (message : Rendering)
  | notFound (entity : String)
  | cancelled (reason : String)
  | external (message : String)
  deriving DecidableEq, Repr

namespace Error

/-- The text of a failure. There is none where making the failure panics. -/
def message : Error → Rendering
  | .mixedTypes aggregate kind value lockedKind lockedValue => do
    let values := s!"{← value} and {← lockedValue}"
    return s!"mixed types in {aggregate}: {kind} and {lockedKind} with values {values}"
  | .invalidType context kind value => do
    return s!"invalid type in {context}: {kind} with value {← value}"
  | .groupNotFound aggregate key => do return s!"{aggregate} for key {← key} not found"
  | .compile element cause => do
    return s!"couldn't materialize {element}: {← cause.message}"
  | .internal message => some s!"An internal operation failed: {message}"
  | .typeMismatch left right => some s!"cannot compare {left} with {right}"
  | .invalidArgument message => do return s!"Invalid argument: {← message}"
  | .notFound entity => some s!"not found: {entity}"
  | .cancelled reason => some s!"query cancelled: {reason}"
  | .external message => some s!"external source error: {message}"

def rootCause : Error → Error
  | .compile _ cause => cause.rootCause
  | error => error

/-- The plan elements wrapped around the root cause, the outermost first. -/
def compilePath : Error → List String
  | .compile element cause => element :: cause.compilePath
  | _ => []

def source : Error → Option Error
  | .compile _ cause => some cause
  | _ => none

/-- The failure of a broken precondition, in words that always exist. -/
def argument (message : String) : Error := .invalidArgument (some message)

end Error

def wrapFailure {α : Type} (element : String) (result : Except Error α) : Except Error α :=
  result.mapError (Error.compile element)

def liftOutcome {m : Type → Type} [Monad m] {α : Type} (result : Except Error α) :
    ExceptT Error m α :=
  ExceptT.mk (pure result)

end StreamQuery
