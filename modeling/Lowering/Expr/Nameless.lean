import Lowering.Env.Basic
import Lowering.Expr.Basic

/-!
# Expressions without local names

`Expr.nameless` replaces every variable by what it refers to and forgets the names of the
binders. A local variable becomes the number of binders between it and its own, counted
from the inside out. Two expressions that differ only in the names of their local
variables have the same nameless form.
-/

namespace Lowering

/-- What a variable refers to. -/
inductive Ref where
  | primitive (name : String)
  /-- The binder that is reached after `index` others. -/
  | bound (index : Nat)
  | free (name : String)
  deriving DecidableEq, Repr

/-- What a name refers to below binders of the names `binders`, the innermost first. No
binder captures the name of a primitive. -/
def Ref.of (binders : List String) (x : String) : Ref :=
  if isPrimitive x then .primitive x
  else
    match binders.idxOf? x with
    | some index => .bound index
    | none => .free x

mutual

/-- Expressions whose binders have no names. -/
inductive Nameless where
  | var (ref : Ref)
  | ctor (name : String)
  | num (value : Int64)
  | char (value : Int64)
  | caseOf (scrutinee : Nameless) (branches : List NamelessBranch)
  | letIn (value body : Nameless)
  | lam (body : Nameless)
  | app (func arg : Nameless)
  | missing
  | foreign (kind : String)

/-- A branch that binds `params` fields. -/
inductive NamelessBranch where
  | mk (ctor : String) (params : Nat) (body : Nameless)

end

mutual

/-- The nameless form of an expression below the given binders. -/
def Expr.nameless : List String → Expr → Nameless
  | binders, .var x => .var (.of binders x)
  | _, .ctor c => .ctor c
  | _, .num n => .num n
  | _, .char n => .char n
  | binders, .caseOf scrutinee branches =>
    .caseOf (scrutinee.nameless binders) (namelessBranches binders branches)
  | binders, .letIn x value body =>
    .letIn (value.nameless binders) (body.nameless (x :: binders))
  | binders, .lam x body => .lam (body.nameless (x :: binders))
  | binders, .app f a => .app (f.nameless binders) (a.nameless binders)
  | _, .missing => .missing
  | _, .foreign kind => .foreign kind

/-- The last parameter of a branch is its innermost binder: it hides earlier ones of the
same name. -/
def namelessBranches : List String → List Branch → List NamelessBranch
  | _, [] => []
  | binders, .mk c params body :: rest =>
    .mk c params.length (body.nameless (params.reverse ++ binders)) ::
      namelessBranches binders rest

end

/-- Two programs define the same names in the same order, and the bodies differ only in the
names of their local variables. -/
def Program.AlphaEquiv (p q : Program) : Prop :=
  p.map (fun d => (d.name, d.body.nameless [])) = q.map fun d => (d.name, d.body.nameless [])

end Lowering
