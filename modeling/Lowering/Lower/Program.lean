import Lowering.Lower.Expr

/-!
# Lowering programs

The code of a program is a jump to its first definition, then all routines, then
the definitions in order. Each definition starts with its mark and ends by moving
its value into its global. All names are declared before any body is lowered, so a
definition may refer to a later one.
-/

namespace Lowering

open LowerM

/-- Lower one definition. -/
def Def.lower (mode : Dispatch) (d : Def) : LowerM Fragment := do
  let value ← fresh
  let body ← d.body.lower mode value
  return .ofCode [.mark ⟨d.name⟩] ++ body ++ .ofCode [.movReg (.global d.name) value]

namespace Program

/-- Declare the names of all definitions. They have to be distinct, and no name may
look like a generated label. -/
def declareAll : Program → LowerM Unit
  | [] => return ()
  | d :: rest => do
    if Label.isGenerated d.name then fail (.reserved d.name)
    let new ← declare d.name
    if !new then fail (.redefined d.name)
    declareAll rest

/-- Lower definitions one after the other. -/
def lowerDefs (mode : Dispatch) : Program → LowerM (List Fragment)
  | [] => return []
  | d :: rest => do
    let f ← within (.definition d.name) (d.lower mode)
    let fs ← lowerDefs mode rest
    return f :: fs

/-- Arrange the lowered definitions of a program. A program without definitions has
no code. -/
def assemble : Program → List Fragment → Code
  | [], _ => []
  | d :: _, defs =>
    .jump ⟨d.name⟩ :: (defs.flatMap Fragment.routines).flatMap Routine.code ++
      defs.flatMap Fragment.code

/-- Lower a whole program. -/
def lower (mode : Dispatch) (p : Program) : LowerM Code := do
  declareAll p
  let defs ← lowerDefs mode p
  return assemble p defs

end Program

/-- A compiler lowers one program. It then refuses others, but still knows the tags
of the one it was given. -/
structure Compiler where
  mode : Dispatch
  state : LowerState := {}
  used : Bool := false

namespace Compiler

def new (mode : Dispatch) : Compiler := { mode }

/-- Lower a program, and the compiler after that. -/
def compile (c : Compiler) (p : Program) : Except LowerFailure Code × Compiler :=
  if c.used then (.error (.here .reused), c)
  else
    match p.lower c.mode c.state with
    | .ok code s => (.ok code, { c with state := s, used := true })
    | .error f s => (.error f, { c with state := s, used := true })

end Compiler
end Lowering
