import Lowering.Expr.Kind

/-!
# Parts of expressions

The lambdas and the case expressions of an expression, outer ones before inner ones
and left ones before right ones. Routines and cases are numbered in this order. The
holes of an expression are its parts that have no meaning.
-/

namespace Lowering

mutual

/-- The lambdas in an expression, each with its parameter and its body. -/
def Expr.lambdas : Expr → List (String × Expr)
  | .var _ => []
  | .ctor _ => []
  | .num _ => []
  | .char _ => []
  | .caseOf scrutinee branches => scrutinee.lambdas ++ lambdasInBranches branches
  | .letIn _ value body => value.lambdas ++ body.lambdas
  | .lam x body => (x, body) :: body.lambdas
  | .app f a => f.lambdas ++ a.lambdas
  | .missing => []
  | .foreign _ => []

def lambdasInBranches : List Branch → List (String × Expr)
  | [] => []
  | .mk _ _ body :: rest => body.lambdas ++ lambdasInBranches rest

end

mutual

/-- The case expressions in an expression, each by its branches. -/
def Expr.cases : Expr → List (List Branch)
  | .var _ => []
  | .ctor _ => []
  | .num _ => []
  | .char _ => []
  | .caseOf scrutinee branches => branches :: (scrutinee.cases ++ casesInBranches branches)
  | .letIn _ value body => value.cases ++ body.cases
  | .lam _ body => body.cases
  | .app f a => f.cases ++ a.cases
  | .missing => []
  | .foreign _ => []

def casesInBranches : List Branch → List (List Branch)
  | [] => []
  | .mk _ _ body :: rest => body.cases ++ casesInBranches rest

end

mutual

/-- The kinds of the missing and foreign parts of an expression. -/
def Expr.holes : Expr → List String
  | .var _ => []
  | .ctor _ => []
  | .num _ => []
  | .char _ => []
  | .caseOf scrutinee branches => scrutinee.holes ++ holesInBranches branches
  | .letIn _ value body => value.holes ++ body.holes
  | .lam _ body => body.holes
  | .app f a => f.holes ++ a.holes
  | .missing => [Expr.missing.kindName]
  | .foreign kind => [(Expr.foreign kind).kindName]

def holesInBranches : List Branch → List String
  | [] => []
  | .mk _ _ body :: rest => body.holes ++ holesInBranches rest

end

theorem lambdasInBranches_eq (bs : List Branch) :
    lambdasInBranches bs = (bs.map Branch.body).flatMap Expr.lambdas := by
  induction bs with
  | nil => rfl
  | cons b bs ih =>
      obtain ⟨c, params, e⟩ := b
      simp [lambdasInBranches, ih, Branch.body]

theorem casesInBranches_eq (bs : List Branch) :
    casesInBranches bs = (bs.map Branch.body).flatMap Expr.cases := by
  induction bs with
  | nil => rfl
  | cons b bs ih =>
      obtain ⟨c, params, e⟩ := b
      simp [casesInBranches, ih, Branch.body]

theorem holesInBranches_eq (bs : List Branch) :
    holesInBranches bs = (bs.map Branch.body).flatMap Expr.holes := by
  induction bs with
  | nil => rfl
  | cons b bs ih =>
      obtain ⟨c, params, e⟩ := b
      simp [holesInBranches, ih, Branch.body]

namespace Program

/-- The lambdas in a program. -/
def lambdas (p : Program) : List (String × Expr) := p.flatMap fun d => d.body.lambdas

/-- The case expressions in a program. -/
def cases (p : Program) : List (List Branch) := p.flatMap fun d => d.body.cases

end Program
end Lowering
