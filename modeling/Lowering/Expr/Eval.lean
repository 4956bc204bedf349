import Lowering.Env.Basic
import Lowering.Expr.Basic
import Lowering.Machine

/-!
# The meaning of programs

Evaluation is by value. Definitions are evaluated in order, and each sets its global;
an expression sees the globals that are set at that time. Local names hide globals,
and a primitive's name denotes the primitive whatever else it is bound to.

* A chain of applications of a constructor evaluates its arguments from the last to the
  first.
* An application of a variable evaluates its argument first, any other application its
  function first.
* A primitive prints the payload of its argument, a number or character, and returns the
  argument.
* A case takes the first branch for the scrutinee's constructor. If a branch names a
  parameter twice, the later one counts.

`eval` stops after `fuel` nested evaluations. It has no result if that is not enough,
or if the expression has no meaning: a name is not bound, or a value is not of the kind
that is needed.
-/

namespace Lowering

inductive Value where
  | num (value : Int64)
  | char (value : Int64)
  | ctor (name : String) (args : List Value)
  | closure (param : String) (body : Expr) (locals : List (String × Value))

abbrev Locals := List (String × Value)

/-- A value, and what was printed on the way to it. -/
abbrev Outcome (α : Type) := Option (α × List Printed)

namespace Outcome

/-- Continue with the value of `x`, after what it printed. -/
def andThen {α β : Type} (x : Outcome α) (f : α → Outcome β) : Outcome β :=
  match x with
  | none => none
  | some (a, printed) =>
    match f a with
    | none => none
    | some (b, more) => some (b, printed ++ more)

end Outcome

/-- What a primitive prints for a value. -/
def Value.printed? (primitive : String) (v : Value) : Option Printed :=
  let payload (n : Int64) : Printed :=
    if primitive = printCharName then .char n.toInt else .int n.toInt
  match v with
  | .num n => some (payload n)
  | .char n => some (payload n)
  | _ => none

/-- The value of a variable. -/
def lookupValue? (globals locals : Locals) (x : String) : Option Value :=
  if isPrimitive x then none
  else match locals.lookup x with
    | some v => some v
    | none => globals.lookup x

/-- Evaluate expressions from the last to the first. -/
def evalLastFirst (eval : Expr → Outcome Value) : List Expr → Outcome (List Value)
  | [] => some ([], [])
  | e :: rest =>
    (evalLastFirst eval rest).andThen fun vs => (eval e).andThen fun v => some (v :: vs, [])

/-- The body of the first branch for a constructor, and its parameters as locals in
front of `locals`. -/
def selectBranch? (ctor : String) (args : List Value) (locals : Locals) :
    List Branch → Option (Expr × Locals)
  | [] => none
  | .mk c params body :: rest =>
    if c = ctor then
      if params.length ≤ args.length then some (body, (params.zip args).reverse ++ locals)
      else none
    else selectBranch? ctor args locals rest

/-- Evaluate an expression. -/
def Expr.eval (globals : Locals) : Nat → Locals → Expr → Outcome Value
  | 0, _, _ => none
  | fuel + 1, locals, e =>
    let apply (f v : Value) : Outcome Value :=
      match f with
      | .closure param body captured => body.eval globals fuel ((param, v) :: captured)
      | _ => none
    match e with
    | .var x => (lookupValue? globals locals x).map (·, [])
    | .ctor c => some (.ctor c [], [])
    | .num n => some (.num n, [])
    | .char n => some (.char n, [])
    | .caseOf scrutinee branches =>
      (scrutinee.eval globals fuel locals).andThen fun
        | .ctor c args =>
          match selectBranch? c args locals branches with
          | some (body, inner) => body.eval globals fuel inner
          | none => none
        | _ => none
    | .letIn x value body =>
      (value.eval globals fuel locals).andThen fun v => body.eval globals fuel ((x, v) :: locals)
    | .lam x body => some (.closure x body locals, [])
    | .app f a =>
      match (Expr.app f a).spine with
      | (.ctor c, args) =>
        (evalLastFirst (Expr.eval globals fuel locals) args).andThen fun vs =>
          some (.ctor c vs, [])
      | _ =>
        match f with
        | .var x =>
          (a.eval globals fuel locals).andThen fun v =>
            if isPrimitive x then (v.printed? x).map fun p => (v, [p])
            else
              match lookupValue? globals locals x with
              | some g => apply g v
              | none => none
        | f =>
          (f.eval globals fuel locals).andThen fun g =>
            (a.eval globals fuel locals).andThen fun v => apply g v
    | .missing => none
    | .foreign _ => none

/-- Evaluate definitions in order, each with the globals set before it. The result lists
the globals that are set at the end, the latest first. -/
def Program.eval (fuel : Nat) : Locals → Program → Outcome Locals
  | globals, [] => some (globals, [])
  | globals, d :: rest =>
    (d.body.eval globals fuel []).andThen fun v => Program.eval fuel ((d.name, v) :: globals) rest

end Lowering
