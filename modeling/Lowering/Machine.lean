import Lowering.Instr

/-!
# The register machine

`step` runs one instruction. Virtual registers belong to the running activation of a
routine: a call sets them aside and starts with none of them set, and a return brings
those of the caller back. All other registers are shared. Objects are never freed, so
a reference to an object is its position in the heap.

`step` has no result when the counter has left the code, which is how a run ends, and
when an instruction cannot be carried out: it reads a register that is not set, follows
a word that is no reference, names a slot that the object does not have, or returns with
nowhere to return to.
-/

namespace Lowering

abbrev Word := Int

abbrev Registers := Reg → Option Word

/-- What the printing instructions put out. -/
inductive Printed where
  | int (value : Word)
  | char (value : Word)
  deriving DecidableEq, Repr

/-- An activation that waits for a call to return. -/
structure Caller where
  resume : Nat
  regs : Registers

structure Machine where
  pc : Nat := 0
  heap : List (List Word) := []
  shared : Registers := fun _ => none
  /-- The virtual registers of the running activation. -/
  regs : Registers := fun _ => none
  /-- The waiting activations, innermost first. -/
  callers : List Caller := []
  output : List Printed := []

instance : Inhabited Machine := ⟨{}⟩

def Registers.set (regs : Registers) (r : Reg) (v : Word) : Registers := fun x =>
  if x = r then some v else regs x

/-- The address of a label: the position of its mark. -/
def Code.address? (code : Code) (label : Label) : Option Nat := code.idxOf? (.mark label)

namespace Machine

def get? (m : Machine) (r : Reg) : Option Word := if r.isVirtual then m.regs r else m.shared r

def set (m : Machine) (r : Reg) (v : Word) : Machine :=
  if r.isVirtual then { m with regs := m.regs.set r v } else { m with shared := m.shared.set r v }

@[simp] theorem get?_set_self (m : Machine) (r : Reg) (v : Word) :
    (m.set r v).get? r = some v := by
  by_cases h : r.isVirtual = true <;> simp [get?, set, h, Registers.set]

theorem get?_set_of_ne (m : Machine) {r x : Reg} (h : x ≠ r) (v : Word) :
    (m.set r v).get? x = m.get? x := by
  by_cases hr : r.isVirtual = true <;> by_cases hx : x.isVirtual = true <;>
    simp [get?, set, hr, hx, Registers.set, h]

/-- Advance to the next instruction. -/
def next (m : Machine) : Machine := { m with pc := m.pc + 1 }

/-- The position in the heap and the words of the object that a register refers to. -/
def object? (m : Machine) (r : Reg) : Option (Nat × List Word) := do
  let p ← m.get? r
  if p < 0 then none
  else
    let words ← m.heap[p.toNat]?
    return (p.toNat, words)

/-- The position of a slot in an object of `size` words. -/
def slot? (index : Int) (size : Nat) : Option Nat :=
  if 0 ≤ index ∧ index < size then some index.toNat else none

def load? (m : Machine) (r : Reg) (index : Int) : Option Word := do
  let (_, words) ← m.object? r
  let i ← slot? index words.length
  words[i]?

def store? (m : Machine) (r : Reg) (index : Int) (v : Word) : Option Machine := do
  let (p, words) ← m.object? r
  let i ← slot? index words.length
  return { m with heap := m.heap.set p (words.set i v) }

/-- A new object, with all of its words zero. -/
def alloc? (m : Machine) (r : Reg) (slots : Int) : Option Machine :=
  if slots < 0 then none
  else
    let grown := { m with heap := m.heap ++ [List.replicate slots.toNat 0] }
    some (grown.set r m.heap.length)

def jump? (m : Machine) (code : Code) (label : Label) : Option Machine := do
  let pc ← code.address? label
  return { m with pc }

/-- Enter the routine at an address, which has to hold a mark. -/
def call? (m : Machine) (code : Code) (address : Word) : Option Machine :=
  if address < 0 then none
  else
    match code[address.toNat]? with
    | some (.mark _) =>
      some { m with pc := address.toNat, regs := fun _ => none
                    callers := ⟨m.pc + 1, m.regs⟩ :: m.callers }
    | _ => none

def return? (m : Machine) : Option Machine :=
  match m.callers with
  | [] => none
  | c :: rest => some { m with pc := c.resume, regs := c.regs, callers := rest }

def print (m : Machine) (p : Printed) : Machine := { m with output := m.output ++ [p] }

/-- Carry out an instruction. -/
def exec (code : Code) (m : Machine) : Instr → Option Machine
  | .mark _ => some m.next
  | .movReg dst src => do return (m.set dst (← m.get? src)).next
  | .movInt dst value => some (m.set dst value).next
  | .movLabel dst label => do return (m.set dst (← code.address? label)).next
  | .alloc dst slots => do return (← m.alloc? dst slots).next
  | .load dst src index => do return (m.set dst (← m.load? src index)).next
  | .store dst index src => do return (← m.store? dst index (← m.get? src)).next
  | .print src => do return (m.print (.int (← m.get? src))).next
  | .printChar src => do return (m.print (.char (← m.get? src))).next
  | .jump label => m.jump? code label
  | .jumpEq left right label => do
    if (← m.get? left) = (← m.get? right) then m.jump? code label else some m.next
  | .icall src => do m.call? code (← m.get? src)
  | .ret => m.return?

/-- One step of a run. -/
def step (code : Code) (m : Machine) : Option Machine := do
  let i ← code[m.pc]?
  m.exec code i

/-- The counter has left the code. -/
def Halted (code : Code) (m : Machine) : Prop := code.length ≤ m.pc

instance (code : Code) (m : Machine) : Decidable (m.Halted code) :=
  inferInstanceAs (Decidable (_ ≤ _))

/-- Exactly `n` steps. -/
def steps (code : Code) : Nat → Machine → Option Machine
  | 0, m => some m
  | n + 1, m => (m.step code).bind (steps code n)

/-- The run from `m` ends in `t`. -/
def Runs (code : Code) (m t : Machine) : Prop := ∃ n, m.steps code n = some t ∧ t.Halted code

end Machine
end Lowering
