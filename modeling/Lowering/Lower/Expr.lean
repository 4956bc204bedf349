import Lowering.Capture
import Lowering.Dispatch
import Lowering.Expr.Kind
import Lowering.Lower.Basic

/-!
# Lowering expressions

`Expr.lower mode e dst` gives code that leaves a reference to the value of `e` in
`dst`. Every object has its tag in slot 0:

* a number or character is a tag and a payload;
* a constructor with `n` arguments is a tag and `n` references;
* a closure is a tag, the address of its routine and the captured values.

A routine finds its closure in `@fun` and its argument in `@arg`, and leaves its
result in `@res`. It copies the first two into registers of its own before they can
be overwritten by another call.

The arguments of a constructor are lowered in source order, but the code of later
arguments runs first.
-/

namespace Lowering

open LowerM

/-- Put a word into a slot of the object in `obj`, by way of `tmp`. -/
def storeInt (obj : Reg) (slot : Int) (tmp : Reg) (value : Int) : Code :=
  [.movInt tmp value, .store obj slot tmp]

/-- Put registers into consecutive slots of the object in `obj`. -/
def storeAll (obj : Reg) : Nat → List Reg → Code
  | _, [] => []
  | slot, r :: rest => .store obj slot r :: storeAll obj (slot + 1) rest

/-- An object that holds a tag and a word. -/
def lowerBoxed (shape : String) (value : Int64) (dst : Reg) : LowerM Fragment := do
  let t ← tag shape 2
  let tmp ← fresh
  let obj ← fresh
  return .ofCode <|
    [.alloc obj t.size] ++ storeInt obj 0 tmp t.id ++ storeInt obj 1 tmp value.toInt ++
    [.movReg dst obj]

/-- A constructor without arguments. -/
def lowerCtor (c : String) (dst : Reg) : LowerM Fragment := do
  let t ← tag c 1
  let tmp ← fresh
  let obj ← fresh
  return .ofCode <| [.alloc obj t.size] ++ storeInt obj 0 tmp t.id ++ [.movReg dst obj]

/-- Move the value of a variable into `dst`. A primitive instead prints the payload
of the object that is in `dst` already. -/
def lowerVar (x : String) (dst : Reg) : LowerM Fragment := do
  if isPrimitive x then
    let r ← fresh
    return .ofCode [.load r dst 1, if x = printCharName then .printChar r else .print r]
  let e ← env
  match e.resolve x with
  | .error u => fail (.unbound u.name)
  | .ok (.register _ r) => return .ofCode [.movReg dst r]
  | .ok (.enclosed _ index) =>
    match e.scope.closure with
    | none => fail (.outsideRoutine x)
    | some closure => return .ofCode [.load dst closure (captureSlot index)]

/-- Load the values of captured names, each into a register of its own. -/
def lowerCaptures : List String → LowerM (List Reg × Fragment)
  | [] => return ([], ∅)
  | x :: rest => do
    let r ← fresh
    let f ← lowerVar x r
    let (regs, g) ← lowerCaptures rest
    return (r :: regs, f ++ g)

/-- Call the closure in `func` with the argument in `arg`. -/
def lowerCall (func arg dst : Reg) : LowerM Fragment := do
  let address ← fresh
  let res ← fresh
  return .ofCode
    [.load address func 1, .movReg .callee func, .movReg .argument arg, .icall address,
      .movReg res .result, .movReg dst res]

/-- Build the object of a constructor from its arguments. -/
def lowerConstruct (t : Tag) (args : List Reg) (dst : Reg) : LowerM Fragment := do
  let obj ← fresh
  let tmp ← fresh
  return .ofCode <|
    [.alloc obj (args.length + 1 : Nat)] ++ storeInt obj 0 tmp t.id ++ storeAll obj 1 args ++
    [.movReg dst obj]

/-- Build a closure from the address of its routine and the captured values. -/
def lowerClosure (label : Label) (captured : List Reg) (dst : Reg) : LowerM Fragment := do
  let t ← tag "Closure" 1
  let obj ← fresh
  let tmp ← fresh
  return .ofCode <|
    [.alloc obj (captureOffset + captured.length : Nat)] ++ storeInt obj 0 tmp t.id ++
    [.movLabel tmp label, .store obj 1 tmp] ++ storeAll obj captureOffset captured ++
    [.movReg dst obj]

/-- The scope of a routine: its parameter is in a register and the captured names
are in the closure. -/
def routineScope (closure : Reg) (param : String) (arg : Reg) (captured : List String) : Scope :=
  captured.zipIdx.foldl (fun s (x, i) => s.bind x (.enclosed x i))
    ((Scope.routine closure).bind param (.register param arg))

/-- The number that the tag of the scrutinee is compared with for a branch. -/
def branchNumber (mode : Dispatch) (index : Nat) (b : Branch) : LowerM Int :=
  match mode with
  | .position => return index
  | .tag => do
    let t ← tag b.ctor (b.params.length + 1)
    return t.id

/-- Compare the tag in `tagReg` with the number of each branch from `index` on, and jump
to the branch that has it. -/
def lowerComparisons (mode : Dispatch) (id : Nat) (tagReg wanted : Reg) :
    Nat → List Branch → LowerM Code
  | _, [] => return []
  | index, b :: rest => do
    let number ← branchNumber mode index b
    let code ← lowerComparisons mode id tagReg wanted (index + 1) rest
    return .movInt wanted number :: .jumpEq tagReg wanted (.branch id index) :: code

/-- Bind the names to the fields of the object in `value`, from field `field` on, for
the extent of `body`. -/
def withFields (value : Reg) : Nat → List String → LowerM Fragment → LowerM Fragment
  | _, [], body => body
  | field, x :: rest, body => do
    let r ← fresh
    let f ← withLocal x (.register x r) (withFields value (field + 1) rest body)
    return .ofCode [.load r value (field : Int)] ++ f

/-- What an application applies. -/
inductive Callee where
  /-- A constructor that has `count` arguments already. -/
  | ctor (name : String) (count : Nat)
  | primitive (name : String)
  | var (name : String)
  | other
  deriving DecidableEq, Repr

/-- What an application of `f` applies. -/
def Expr.callee (f : Expr) : Callee :=
  match f.spine with
  | (.ctor c, args) => .ctor c args.length
  | (.var x, []) => if isPrimitive x then .primitive x else .var x
  | _ => .other

mutual

/-- Lower an expression: the code leaves a reference to its value in `dst`. -/
def Expr.lower (mode : Dispatch) : Expr → Reg → LowerM Fragment
  | .var x, dst => lowerVar x dst
  | .ctor c, dst => lowerCtor c dst
  | .num n, dst => lowerBoxed "Num" n dst
  | .char n, dst => lowerBoxed "Char" n dst
  | .caseOf scrutinee branches, dst => do
    let value ← fresh
    let tagReg ← fresh
    let wanted ← fresh
    let id ← newCase
    let s ← within .scrutinee (scrutinee.lower mode value)
    let comparisons ← lowerComparisons mode id tagReg wanted 0 branches
    let bodies ← lowerBranches mode id value 0 branches dst
    return s ++ .ofCode (.load tagReg value 0 :: comparisons) ++ bodies ++
      .ofCode [.mark (.caseEnd id)]
  | .letIn x value body, dst => do
    let tmp ← fresh
    let v ← within (.letValue x) (value.lower mode tmp)
    let b ← withLocal x (.register x tmp) (within (.letBody x) (body.lower mode dst))
    return v ++ b
  | .lam x body, dst => do
    let label ← newRoutine
    let captured := captures (← env) x body
    let closure ← fresh
    let arg ← fresh
    let res ← fresh
    let b ← within (.lambda x)
      (inScope (routineScope closure x arg captured) (body.lower mode res))
    let routine : Routine :=
      { label, free := captured
        code := [.mark label, .movReg closure .callee, .movReg arg .argument] ++ b.code ++
          [.movReg .result res, .ret] }
    let (values, loads) ← within (.capture x) (lowerCaptures captured)
    let build ← lowerClosure label values dst
    return ⟨[], b.routines ++ [routine]⟩ ++ loads ++ build
  | .app f a, dst =>
    match f.callee with
    | .ctor c count => do
      let t ← tag c (count + 2)
      let (regs, before) ← f.lowerArgs mode c
      let r ← fresh
      let last ← within (.ctorArg c count) (a.lower mode r)
      let build ← lowerConstruct t (regs ++ [r]) dst
      return before.prepend last ++ build
    | .primitive x => do
      let arg ← within (.primitiveArg x) (a.lower mode dst)
      let print ← lowerVar x dst
      return arg ++ print
    | .var x => do
      let funcReg ← fresh
      let argReg ← fresh
      let arg ← within (.varArg x) (a.lower mode argReg)
      let func ← lowerVar x funcReg
      let call ← lowerCall funcReg argReg dst
      return arg ++ func ++ call
    | .other => do
      let funcReg ← fresh
      let argReg ← fresh
      let func ← within .func (f.lower mode funcReg)
      let arg ← within .arg (a.lower mode argReg)
      let call ← lowerCall funcReg argReg dst
      return func ++ arg ++ call
  | .missing, _ => fail (.unsupported Expr.missing.kindName)
  | .foreign kind, _ => fail (.unsupported (Expr.foreign kind).kindName)

/-- Lower the arguments of a chain of applications of the constructor `c`, each into
a register of its own. The code of later arguments runs first. -/
def Expr.lowerArgs (mode : Dispatch) (c : String) : Expr → LowerM (List Reg × Fragment)
  | .app f a => do
    let (regs, before) ← f.lowerArgs mode c
    let r ← fresh
    let arg ← within (.ctorArg c regs.length) (a.lower mode r)
    return (regs ++ [r], before.prepend arg)
  | _ => return ([], ∅)

/-- Lower the branches of a case from `index` on. Each is marked by its label and
ends with a jump to the end of the case. -/
def lowerBranches (mode : Dispatch) (id : Nat) (value : Reg) :
    Nat → List Branch → Reg → LowerM Fragment
  | _, [], _ => return ∅
  | index, .mk c params body :: rest, dst => do
    let b ← within (.branch c) (withFields value 1 params (body.lower mode dst))
    let others ← lowerBranches mode id value (index + 1) rest dst
    return .ofCode [.mark (.branch id index)] ++ b ++ .ofCode [.jump (.caseEnd id)] ++ others

end

end Lowering
