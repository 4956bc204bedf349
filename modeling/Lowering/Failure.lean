/-!
# Failures

A failure is a cause together with the path to the place where it arose. Messages
name the path from the outside in and end with the cause. A step of the path that
has no text, such as an empty name, is left out.
-/

namespace Lowering

/-- A cause and the path to its place, outermost step first. -/
structure Failure (Step Cause : Type) where
  path : List Step
  cause : Cause
  deriving DecidableEq, Repr

namespace Failure

variable {Step Cause : Type}

/-- A failure at the place itself. -/
def here (cause : Cause) : Failure Step Cause := ⟨[], cause⟩

/-- The same failure seen from one step further out. -/
def inside (step : Step) (f : Failure Step Cause) : Failure Step Cause :=
  ⟨step :: f.path, f.cause⟩

/-- Put the texts of a path in front of a message. -/
def prependPath (path : List String) (message : String) : String :=
  path.foldr (fun step rest => if step = "" then rest else step ++ ": " ++ rest) message

/-- The message of a failure. -/
def message (stepText : Step → String) (causeText : Cause → String)
    (f : Failure Step Cause) : String :=
  prependPath (f.path.map stepText) (causeText f.cause)

end Failure
end Lowering
