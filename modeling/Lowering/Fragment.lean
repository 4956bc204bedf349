import Lowering.Instr

/-!
# Code fragments

Lowering an expression gives code that runs in place and the routines of the
lambdas inside it, which are placed elsewhere.
-/

namespace Lowering

/-- The body of a lambda as a block of its own, with the names that its closure
captures. -/
structure Routine where
  label : Label
  code : Code
  free : List String
  deriving DecidableEq, Repr

structure Fragment where
  code : Code
  routines : List Routine
  deriving DecidableEq, Repr

namespace Fragment

def empty : Fragment := ⟨[], []⟩

instance : EmptyCollection Fragment := ⟨empty⟩

instance : Inhabited Fragment := ⟨empty⟩

/-- Code without routines. -/
def ofCode (code : Code) : Fragment := ⟨code, []⟩

def emit (f : Fragment) (code : Code) : Fragment := ⟨f.code ++ code, f.routines⟩

/-- `g` runs after `f`. -/
def append (f g : Fragment) : Fragment := ⟨f.code ++ g.code, f.routines ++ g.routines⟩

/-- `g` runs before `f`, but its routines still come last. -/
def prepend (f g : Fragment) : Fragment := ⟨g.code ++ f.code, f.routines ++ g.routines⟩

instance : Append Fragment := ⟨append⟩

@[simp] theorem code_empty : (∅ : Fragment).code = [] := rfl

@[simp] theorem routines_empty : (∅ : Fragment).routines = [] := rfl

@[simp] theorem code_ofCode (code : Code) : (ofCode code).code = code := rfl

@[simp] theorem routines_ofCode (code : Code) : (ofCode code).routines = [] := rfl

@[simp] theorem code_append (f g : Fragment) : (f ++ g).code = f.code ++ g.code := rfl

@[simp] theorem routines_append (f g : Fragment) :
    (f ++ g).routines = f.routines ++ g.routines := rfl

@[simp] theorem code_prepend (f g : Fragment) : (f.prepend g).code = g.code ++ f.code := rfl

@[simp] theorem routines_prepend (f g : Fragment) :
    (f.prepend g).routines = f.routines ++ g.routines := rfl

end Fragment
end Lowering
