import Lowering.Env.Basic
import Lowering.Expr.Basic

/-!
# Free names and scoping

`Expr.free` lists the free occurrences of names from left to right. `Expr.Scoped` says
that every name has a meaning: it is a primitive, it is bound on the way to it, or it is
the name of a definition.
-/

namespace Lowering

mutual

/-- The free occurrences of names in an expression. -/
def Expr.free : Expr → List String
  | .var x => [x]
  | .ctor _ => []
  | .num _ => []
  | .char _ => []
  | .caseOf scrutinee branches => scrutinee.free ++ freeInBranches branches
  | .letIn x value body => value.free ++ body.free.filter (· ≠ x)
  | .lam x body => body.free.filter (· ≠ x)
  | .app f a => f.free ++ a.free
  | .missing => []
  | .foreign _ => []

def freeInBranches : List Branch → List String
  | [] => []
  | .mk _ params body :: rest => body.free.filter (· ∉ params) ++ freeInBranches rest

end

mutual

/-- Every name in the expression has a meaning under binders of the names `bound`, and
no part of the expression is missing or foreign. -/
def Expr.Scoped (globals : List String) : List String → Expr → Prop
  | bound, .var x => isPrimitive x = true ∨ x ∈ bound ∨ x ∈ globals
  | _, .ctor _ => True
  | _, .num _ => True
  | _, .char _ => True
  | bound, .caseOf scrutinee branches =>
    scrutinee.Scoped globals bound ∧ BranchesScoped globals bound branches
  | bound, .letIn x value body => value.Scoped globals bound ∧ body.Scoped globals (x :: bound)
  | bound, .lam x body => body.Scoped globals (x :: bound)
  | bound, .app f a => f.Scoped globals bound ∧ a.Scoped globals bound
  | _, .missing => False
  | _, .foreign _ => False

def BranchesScoped (globals bound : List String) : List Branch → Prop
  | [] => True
  | .mk _ params body :: rest =>
    body.Scoped globals (params ++ bound) ∧ BranchesScoped globals bound rest

end

end Lowering
