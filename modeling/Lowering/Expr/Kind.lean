import Lowering.Expr.Basic

/-!
# Kinds of nodes

Definitions, branches and expressions have a kind, which is the word that their written
form starts with and which messages name.
-/

namespace Lowering

/-- The kinds of expressions. -/
inductive ExprKind where
  | var
  | ctor
  | num
  | char
  | caseOf
  | letIn
  | lam
  | app
  deriving DecidableEq, Repr

/-- The kinds of nodes. -/
inductive NodeKind where
  | definition
  | branch
  | expr (kind : ExprKind)
  deriving DecidableEq, Repr

namespace ExprKind

/-- The word that a node of this kind starts with. -/
def name : ExprKind → String
  | .var => "ExprVar"
  | .ctor => "ExprConstructor"
  | .num => "ExprNumber"
  | .char => "ExprChar"
  | .caseOf => "ExprCase"
  | .letIn => "ExprLet"
  | .lam => "ExprLambda"
  | .app => "ExprApply"

/-- The number of fields after the kind. -/
def arity : ExprKind → Nat
  | .var => 1
  | .ctor => 1
  | .num => 1
  | .char => 1
  | .caseOf => 2
  | .letIn => 3
  | .lam => 2
  | .app => 2

def all : List ExprKind := [.var, .ctor, .num, .char, .caseOf, .letIn, .lam, .app]

def ofName? (s : String) : Option ExprKind := all.find? (·.name == s)

end ExprKind

namespace NodeKind

def name : NodeKind → String
  | .definition => "Def"
  | .branch => "CaseBranch"
  | .expr kind => kind.name

def arity : NodeKind → Nat
  | .definition => 2
  | .branch => 3
  | .expr kind => kind.arity

end NodeKind

/-- The kind of an expression as messages name it. -/
def Expr.kindName : Expr → String
  | .var _ => ExprKind.var.name
  | .ctor _ => ExprKind.ctor.name
  | .num _ => ExprKind.num.name
  | .char _ => ExprKind.char.name
  | .caseOf _ _ => ExprKind.caseOf.name
  | .letIn _ _ _ => ExprKind.letIn.name
  | .lam _ _ => ExprKind.lam.name
  | .app _ _ => ExprKind.app.name
  | .missing => "<nil>"
  | .foreign kind => kind

end Lowering
