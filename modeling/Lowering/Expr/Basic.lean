/-!
# The source language

A program is a list of named definitions. Numbers and characters are 64-bit
words. Applications take one argument at a time; `call` and `spine` pass between
a chain of applications and its head with all arguments.
-/

namespace Lowering

mutual

/-- Expressions. -/
inductive Expr where
  | var (name : String)
  | ctor (name : String)
  | num (value : Int64)
  | char (value : Int64)
  | caseOf (scrutinee : Expr) (branches : List Branch)
  /-- The name is bound in `body` only. -/
  | letIn (name : String) (value body : Expr)
  | lam (param : String) (body : Expr)
  | app (func arg : Expr)
  /-- No expression where one should stand. -/
  | missing
  /-- An expression of a kind that the language does not have. -/
  | foreign (kind : String)

/-- A branch names the fields of the constructor it is for. -/
inductive Branch where
  | mk (ctor : String) (params : List String) (body : Expr)

end

namespace Branch

def ctor : Branch → String
  | mk c _ _ => c

def params : Branch → List String
  | mk _ ps _ => ps

def body : Branch → Expr
  | mk _ _ b => b

end Branch

structure Def where
  name : String
  body : Expr

abbrev Program := List Def

instance : Inhabited Expr := ⟨.missing⟩

namespace Expr

/-- Apply `f` to the arguments, one after the other. -/
def call (f : Expr) (args : List Expr) : Expr := args.foldl .app f

/-- The head of a chain of applications, and the arguments of the chain followed
by `rest`. -/
def spineOnto : Expr → List Expr → Expr × List Expr
  | .app f a, rest => f.spineOnto (a :: rest)
  | e, rest => (e, rest)

/-- The head of a chain of applications and its arguments in source order. -/
def spine (e : Expr) : Expr × List Expr := e.spineOnto []

theorem spineOnto_app (f a : Expr) (rest : List Expr) :
    (Expr.app f a).spineOnto rest = f.spineOnto (a :: rest) := rfl

@[simp] theorem call_nil (f : Expr) : f.call [] = f := rfl

@[simp] theorem call_cons (f a : Expr) (args : List Expr) :
    f.call (a :: args) = (Expr.app f a).call args := rfl

end Expr
end Lowering
