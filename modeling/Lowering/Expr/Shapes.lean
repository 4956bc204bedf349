import Lowering.Dispatch
import Lowering.Expr.Parts

/-!
# The shapes of a program

A shape is the name of a constructor, or of what numbers, characters and closures are.
The encounters of an expression are its constructors in the order in which lowering meets
them, each with the number of words that an object of it has there. They decide the ids of
the shapes. The shapes of an expression are those of the objects that it makes, in the
order of the code that makes them.
-/

namespace Lowering

/-- What a case meets between its scrutinee and its branches. Branches that are told apart by
their position are not met. -/
def Dispatch.encounters : Dispatch → List Branch → List (String × Nat)
  | .position, _ => []
  | .tag, bs => bs.map fun b => (b.ctor, b.params.length + 1)

mutual

/-- The encounters of an expression that is applied to `count` arguments. -/
def Expr.encountersIn (mode : Dispatch) : Expr → Nat → List (String × Nat)
  | .var _, _ => []
  | .ctor c, count => [(c, count + 1)]
  | .num _, _ => []
  | .char _, _ => []
  | .caseOf scrutinee branches, _ =>
    scrutinee.encountersIn mode 0 ++ mode.encounters branches ++
      encountersInBranches mode branches
  | .letIn _ value body, _ => value.encountersIn mode 0 ++ body.encountersIn mode 0
  | .lam _ body, _ => body.encountersIn mode 0
  | .app f a, count => f.encountersIn mode (count + 1) ++ a.encountersIn mode 0
  | .missing, _ => []
  | .foreign _, _ => []

def encountersInBranches (mode : Dispatch) : List Branch → List (String × Nat)
  | [] => []
  | .mk _ _ body :: rest => body.encountersIn mode 0 ++ encountersInBranches mode rest

end

/-- The constructors that are met in an expression. -/
def Expr.encounters (mode : Dispatch) (e : Expr) : List (String × Nat) := e.encountersIn mode 0

/-- The encounters with names that have not been met before. -/
def firstEncounters : List (String × Nat) → List (String × Nat)
  | [] => []
  | x :: rest => x :: (firstEncounters rest).filter fun y => y.1 ≠ x.1

/-- The expression is a constructor with its arguments. -/
def Expr.isConstruction : Expr → Bool
  | .ctor _ => true
  | .app f _ => f.isConstruction
  | _ => false

mutual

/-- The shapes of the objects that an expression makes, those of its lambdas' bodies left out.
The arguments of a constructor are made from the last to the first, and then its own object. -/
def Expr.shapes : Expr → List String
  | .var _ => []
  | .ctor c => [c]
  | .num _ => ["Num"]
  | .char _ => ["Char"]
  | .caseOf scrutinee branches => scrutinee.shapes ++ shapesInBranches branches
  | .letIn _ value body => value.shapes ++ body.shapes
  | .lam _ _ => ["Closure"]
  | .app f a => if f.isConstruction then a.shapes ++ f.shapes else f.shapes ++ a.shapes
  | .missing => []
  | .foreign _ => []

def shapesInBranches : List Branch → List String
  | [] => []
  | .mk _ _ body :: rest => body.shapes ++ shapesInBranches rest

end

mutual

/-- The shapes of the objects that the bodies of lambdas make, inner ones before outer ones. -/
def Expr.routineShapes : Expr → List String
  | .var _ => []
  | .ctor _ => []
  | .num _ => []
  | .char _ => []
  | .caseOf scrutinee branches => scrutinee.routineShapes ++ routineShapesInBranches branches
  | .letIn _ value body => value.routineShapes ++ body.routineShapes
  | .lam _ body => body.routineShapes ++ body.shapes
  | .app f a => f.routineShapes ++ a.routineShapes
  | .missing => []
  | .foreign _ => []

def routineShapesInBranches : List Branch → List String
  | [] => []
  | .mk _ _ body :: rest => body.routineShapes ++ routineShapesInBranches rest

end

theorem encountersInBranches_eq (mode : Dispatch) (bs : List Branch) :
    encountersInBranches mode bs = (bs.map Branch.body).flatMap (Expr.encounters mode) := by
  induction bs with
  | nil => rfl
  | cons b bs ih =>
      obtain ⟨c, params, e⟩ := b
      simp [encountersInBranches, ih, Branch.body, Expr.encounters]

namespace Program

/-- The constructors that are met in a program. -/
def encounters (mode : Dispatch) (p : Program) : List (String × Nat) :=
  p.flatMap fun d => d.body.encounters mode

/-- The shapes of the objects that a program makes. The routines stand before the definitions. -/
def shapes (p : Program) : List String :=
  (p.flatMap fun d => d.body.routineShapes) ++ p.flatMap fun d => d.body.shapes

end Program
end Lowering
