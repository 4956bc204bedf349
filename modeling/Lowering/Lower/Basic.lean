import Lowering.Env.Basic
import Lowering.Failure
import Lowering.Fragment
import Lowering.Label
import Lowering.Tag
import Lowering.Text.Quoted

/-!
# The state of lowering

Lowering draws registers, labels and tags from a `LowerState` and looks names up
in its environment. A failure keeps the state that was reached: the tags met before
it stay registered.

`withLocal` and `inScope` change the scope for the extent of one computation. They
put the old scope back whether the computation succeeds or fails.
-/

namespace Lowering

/-- What makes an expression or a program impossible to lower. -/
inductive LowerError where
  /-- The language has no construct of this kind. -/
  | unsupported (kind : String)
  | unbound (name : String)
  /-- A captured value is needed where no closure is running. -/
  | outsideRoutine (name : String)
  /-- Two definitions have this name. -/
  | redefined (name : String)
  /-- A definition has the name of a generated label. -/
  | reserved (name : String)
  /-- The compiler has already been given a program. -/
  | reused
  deriving DecidableEq, Repr

namespace LowerError

def message : LowerError → String
  | .unsupported kind => "unsupported construct: " ++ Text.quote kind
  | .unbound name => (Unbound.mk name).message
  | .outsideRoutine name => "enclosed " ++ name ++ " outside of routine"
  | .redefined name => "name redefined: " ++ name
  | .reserved name => "name is reserved for generated labels: " ++ name
  | .reused => "compiler reused"

end LowerError

/-- Where in a program lowering is. -/
inductive LowerStep where
  | definition (name : String)
  | letValue (name : String)
  | letBody (name : String)
  | lambda (param : String)
  /-- The values that the closure of a lambda captures. -/
  | capture (param : String)
  | scrutinee
  | branch (ctor : String)
  | func
  | arg
  /-- The argument of a primitive. -/
  | primitiveArg (name : String)
  /-- The argument of a variable. -/
  | varArg (name : String)
  | ctorArg (ctor : String) (index : Nat)
  deriving DecidableEq, Repr

namespace LowerStep

def text : LowerStep → String
  | .definition name => "def " ++ name
  | .letValue name => "let " ++ name ++ ": value"
  | .letBody name => "let " ++ name
  | .lambda param => "lambda " ++ param
  | .capture param => "lambda " ++ param ++ ": capture"
  | .scrutinee => "case: scrutinee"
  | .branch ctor => "case: branch " ++ ctor
  | .func => "apply: func"
  | .arg => "apply: arg"
  | .primitiveArg name => name
  | .varArg name => name ++ ": arg"
  | .ctorArg ctor index => ctor ++ ": arg " ++ toString index

end LowerStep

abbrev LowerFailure := Failure LowerStep LowerError

namespace LowerFailure

def message (f : LowerFailure) : String := Failure.message LowerStep.text LowerError.message f

end LowerFailure

structure LowerState where
  env : Env := {}
  tags : Registry := Registry.builtin
  /-- The id of the last case. -/
  cases : Nat := 0
  /-- The number of routines so far. -/
  routines : Nat := 0
  deriving DecidableEq, Repr

instance : Inhabited LowerState := ⟨{}⟩

/-- Computations on the state that may fail. A failure comes with the state in
which it arose. -/
abbrev LowerM := EStateM LowerFailure LowerState

namespace LowerM

def fail {α : Type} (cause : LowerError) : LowerM α := throw (Failure.here cause)

/-- Record on which step of the path a failure of `x` arose. -/
def within {α : Type} (step : LowerStep) (x : LowerM α) : LowerM α := fun s =>
  match x s with
  | .ok a s => .ok a s
  | .error f s => .error (f.inside step) s

def env : LowerM Env := fun s => .ok s.env s

def fresh : LowerM Reg := fun s => .ok s.env.fresh.1 { s with env := s.env.fresh.2 }

/-- Declare a global, and tell whether it is new. -/
def declare (name : String) : LowerM Bool := fun s =>
  .ok (s.env.declare name).1 { s with env := (s.env.declare name).2 }

/-- The tag of a constructor that is met with `size` words. -/
def tag (name : String) (size : Nat) : LowerM Tag := fun s =>
  .ok (s.tags.tag name size).1.1 { s with tags := (s.tags.tag name size).2 }

/-- The id of a new case. -/
def newCase : LowerM Nat := fun s => .ok (s.cases + 1) { s with cases := s.cases + 1 }

/-- The label of a new routine. -/
def newRoutine : LowerM Label := fun s =>
  .ok (Label.routine s.routines) { s with routines := s.routines + 1 }

/-- Change the scope that a state has. -/
def onScope (f : Scope → Scope) (s : LowerState) : LowerState :=
  { s with env := { s.env with scope := f s.env.scope } }

/-- Run `x` with `name` bound to `b`. -/
def withLocal {α : Type} (name : String) (b : Binding) (x : LowerM α) : LowerM α := fun s =>
  let (undo, scope) := s.env.scope.shadow name b
  match x (onScope (fun _ => scope) s) with
  | .ok a s => .ok a (onScope (·.restore undo) s)
  | .error f s => .error f (onScope (·.restore undo) s)

/-- Run `x` in another scope. -/
def inScope {α : Type} (scope : Scope) (x : LowerM α) : LowerM α := fun s =>
  match x (onScope (fun _ => scope) s) with
  | .ok a t => .ok a (onScope (fun _ => s.env.scope) t)
  | .error f t => .error f (onScope (fun _ => s.env.scope) t)

end LowerM
end Lowering
