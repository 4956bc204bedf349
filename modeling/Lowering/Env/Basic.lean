import Lowering.Instr
import Lowering.NameMap
import Lowering.OrderedSet
import Lowering.Wire

/-!
# Environments

An environment tells where the value of a name lives. Its `shared` part, the
register counter and the declared globals, is common to a program and all of its
routines. Its `scope` belongs to one of them: the local names, and the register
that holds the running closure.

Local names hide globals. `Scope.shadow` binds a name for a while: it returns an
`Undo` that puts back the binding the name had before.
-/

namespace Lowering

/-- Where a value lives. -/
inductive Binding where
  /-- In a register. -/
  | register (name : String) (reg : Reg)
  /-- In the running closure, as the captured value with number `index`. -/
  | enclosed (name : String) (index : Int)
  deriving DecidableEq, Repr

/-- The closure slot of the first captured value. Slot 0 holds the tag and slot 1
the address of the routine. -/
def captureOffset : Nat := 2

/-- The closure slot of the captured value with number `index`. -/
def captureSlot (index : Int) : Int := index + captureOffset

namespace Binding

/-- What is written of a binding. A slot is written as a 64-bit word. -/
def fields : Binding → List (String × Wire.Item)
  | .register name reg => [("name", .string name), ("reg", .string reg.text)]
  | .enclosed name index =>
    [("name", .string name), ("slot", .int (Int64.ofInt (captureSlot index)))]

/-- Write a binding at the end of `buffer`. -/
def append (buffer : Wire.Bytes) (b : Binding) : Wire.Bytes := Wire.appendMap buffer b.fields

/-- The wire form of a binding. -/
def wire (b : Binding) : Wire.Bytes := b.append []

end Binding

/-- Bindings by name. -/
abbrev Bindings := NameMap Binding

/-- The names that are local to one routine, or to the definitions. -/
structure Scope where
  bindings : Bindings := ∅
  /-- The register of the running closure. There is none outside of routines. -/
  closure : Option Reg := none
  deriving DecidableEq, Repr

/-- The binding of a name, or its absence, to be put back later. -/
structure Undo where
  name : String
  previous : Option Binding
  deriving DecidableEq, Repr

namespace Scope

def lookup? (s : Scope) (name : String) : Option Binding := s.bindings.lookup? name

def bind (s : Scope) (name : String) (b : Binding) : Scope :=
  { s with bindings := s.bindings.insert name b }

def unbind (s : Scope) (name : String) : Scope :=
  { s with bindings := s.bindings.erase name }

/-- Bind `name`, and remember what it was bound to. -/
def shadow (s : Scope) (name : String) (b : Binding) : Undo × Scope :=
  (⟨name, s.lookup? name⟩, s.bind name b)

/-- Put back what an `Undo` remembers. -/
def restore (s : Scope) (u : Undo) : Scope :=
  match u.previous with
  | some b => s.bind u.name b
  | none => s.unbind u.name

/-- The scope of a routine that runs with its closure in the given register. -/
def routine (closure : Reg) : Scope := { closure := some closure }

@[simp] theorem lookup?_bind_self (s : Scope) (name : String) (b : Binding) :
    (s.bind name b).lookup? name = some b :=
  s.bindings.lookup?_insert_self name b

theorem lookup?_bind_of_ne (s : Scope) {name other : String} (h : other ≠ name) (b : Binding) :
    (s.bind name b).lookup? other = s.lookup? other :=
  NameMap.lookup?_insert_of_ne h b s.bindings

@[simp] theorem lookup?_unbind_self (s : Scope) (name : String) :
    (s.unbind name).lookup? name = none :=
  s.bindings.lookup?_erase_self name

theorem lookup?_unbind_of_ne (s : Scope) {name other : String} (h : other ≠ name) :
    (s.unbind name).lookup? other = s.lookup? other :=
  NameMap.lookup?_erase_of_ne h s.bindings

/-- A name whose binding is put back is bound to what the undo remembers. -/
@[simp] theorem lookup?_restore_self (s : Scope) (u : Undo) :
    (s.restore u).lookup? u.name = u.previous := by
  obtain ⟨name, previous⟩ := u
  cases previous with
  | none => exact lookup?_unbind_self s name
  | some b => exact lookup?_bind_self s name b

theorem lookup?_restore_of_ne (s : Scope) {u : Undo} {other : String} (h : other ≠ u.name) :
    (s.restore u).lookup? other = s.lookup? other := by
  obtain ⟨name, previous⟩ := u
  cases previous with
  | none => exact lookup?_unbind_of_ne s h
  | some b => exact lookup?_bind_of_ne s h b

@[simp] theorem closure_bind (s : Scope) (name : String) (b : Binding) :
    (s.bind name b).closure = s.closure := rfl

@[simp] theorem closure_unbind (s : Scope) (name : String) :
    (s.unbind name).closure = s.closure := rfl

@[simp] theorem closure_restore (s : Scope) (u : Undo) : (s.restore u).closure = s.closure := by
  obtain ⟨name, previous⟩ := u
  cases previous <;> rfl

/-- Undoing a shadowing at once gives the scope back. -/
theorem restore_shadow (s : Scope) (name : String) (b : Binding) :
    (s.shadow name b).2.restore (s.shadow name b).1 = s := by
  obtain ⟨bs, closure⟩ := s
  cases h : bs.lookup? name with
  | none => simp [shadow, restore, lookup?, h, bind, unbind, NameMap.erase_insert_of_lookup? b h]
  | some old => simp [shadow, restore, lookup?, h, bind, NameMap.insert_insert_of_lookup? b h]

end Scope

/-- What all scopes of one program have in common. -/
structure Shared where
  /-- The number of the last register that was handed out. -/
  next : Nat := 0
  globals : OrderedSet String := ∅
  deriving DecidableEq, Repr

structure Env where
  shared : Shared := {}
  scope : Scope := {}
  deriving DecidableEq, Repr

instance : Inhabited Env := ⟨{}⟩

/-- The names of the printing primitives. They denote the primitives whatever
else is bound to them. -/
def printIntName : String := "unsafePrintInt"

def printCharName : String := "unsafePrintChar"

def isPrimitive (name : String) : Bool := name == printIntName || name == printCharName

/-- No local binding and no global has this name. -/
structure Unbound where
  name : String
  deriving DecidableEq, Repr

def Unbound.message (u : Unbound) : String := "unbound name: " ++ u.name

namespace Shared

/-- A register that was never handed out before. -/
def fresh (s : Shared) : Reg × Shared :=
  (Reg.virtual (s.next + 1 : Nat), { s with next := s.next + 1 })

/-- Declare a global, and tell whether it is new. -/
def declare (s : Shared) (name : String) : Bool × Shared :=
  ((s.globals.add name).1, { s with globals := (s.globals.add name).2 })

end Shared

namespace Env

def fresh (e : Env) : Reg × Env := (e.shared.fresh.1, { e with shared := e.shared.fresh.2 })

def declare (e : Env) (name : String) : Bool × Env :=
  ((e.shared.declare name).1, { e with shared := (e.shared.declare name).2 })

def isGlobal (e : Env) (name : String) : Bool := e.shared.globals.contains name

/-- The local binding of a name. -/
def local? (e : Env) (name : String) : Option Binding := e.scope.lookup? name

/-- Whether the name has a local binding or is a global. -/
def exists? (e : Env) (name : String) : Bool := (e.local? name).isSome || e.isGlobal name

/-- Find out where the value of a name lives. -/
def resolve (e : Env) (name : String) : Except Unbound Binding :=
  match e.local? name with
  | some b => .ok b
  | none => if e.isGlobal name then .ok (.register name (Reg.global name)) else .error ⟨name⟩

/-- A name exists if it can be resolved. -/
theorem exists?_eq_true_iff (e : Env) (name : String) :
    e.exists? name = true ↔ ∃ b, e.resolve name = .ok b := by
  cases hlocal : e.local? name with
  | some b => simp [exists?, resolve, hlocal]
  | none => cases hglobal : e.isGlobal name <;> simp [exists?, resolve, hlocal, hglobal]

/-- The register of the running closure as a text, empty outside of routines. -/
def closureText (e : Env) : String := (e.scope.closure.map Reg.text).getD ""

/-- The wire form of an environment. `origin` says where it was made. -/
def wire (e : Env) (origin : String) : Wire.Bytes :=
  Wire.appendMap [] [("from", .string origin), ("closure", .string e.closureText),
    ("locals", .int (Int64.ofNat e.scope.bindings.size)),
    ("next", .int (Int64.ofNat e.shared.next))]

end Env
end Lowering
