import Lowering.Env.Basic
import Lowering.Expr.Basic

/-!
# Captured names

A closure captures the names that its lambda refers to and that the routine could
not find otherwise. Primitives, names bound inside of the lambda and globals that
no local name hides are not captured. Names that only a nested lambda needs are
captured too, so that the nested closure can be built from the outer one.

The names are collected in one pass, which carries the names bound on the way down
and adds to an ordered set; captured values are numbered in the order of first
occurrence.
-/

namespace Lowering

/-- Whether a reference to `name` has to be captured, under binders of the names
`bound`, by a closure made in the environment `e`. -/
def Env.needsCapture (e : Env) (bound : List String) (name : String) : Bool :=
  !isPrimitive name && !bound.contains name && ((e.local? name).isSome || !e.isGlobal name)

mutual

/-- Add the names to capture in an expression that stands under binders of the
names `bound`. -/
def Expr.collect (e : Env) : Expr → List String → OrderedSet String → OrderedSet String
  | .var x, bound, found => if e.needsCapture bound x then found.insert x else found
  | .ctor _, _, found => found
  | .num _, _, found => found
  | .char _, _, found => found
  | .caseOf scrutinee branches, bound, found =>
    collectBranches e branches bound (scrutinee.collect e bound found)
  | .letIn x value body, bound, found =>
    body.collect e (x :: bound) (value.collect e bound found)
  | .lam x body, bound, found => body.collect e (x :: bound) found
  | .app f a, bound, found => a.collect e bound (f.collect e bound found)
  | .missing, _, found => found
  | .foreign _, _, found => found

/-- Add the names to capture in the bodies of branches. -/
def collectBranches (e : Env) :
    List Branch → List String → OrderedSet String → OrderedSet String
  | [], _, found => found
  | .mk _ params body :: rest, bound, found =>
    collectBranches e rest bound (body.collect e (params ++ bound) found)

end

/-- The names that the closure of `fun param => body` captures in the environment
`e`, in the order of their slots. -/
def captures (e : Env) (param : String) (body : Expr) : List String :=
  ((Expr.lam param body).collect e [] ∅).keys

end Lowering
