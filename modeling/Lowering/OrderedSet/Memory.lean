import Lowering.OrderedSet

/-!
# Sets in memory

A set keeps its keys in an array. Who asks for the keys gets an array with a copy of
them, to read and to overwrite at will. All arrays are in one `KeyMemory`: whether an
overwritten key is one of the set is a question of addresses.
-/

namespace Lowering

/-- The memory of a set and of those who asked for its keys. -/
structure KeyMemory (α : Type) where
  /-- The arrays in the order of their addresses. -/
  arrays : List (List α) := [[]]
  /-- The address of the set's own array. -/
  own : Nat := 0
  index : List (α × Nat) := []
  /-- The addresses that were handed out, in order. -/
  given : List Nat := []
  deriving DecidableEq, Repr

/-- What can be asked of a set, and done to the keys that it handed out. -/
inductive KeyRequest (α : Type) where
  /-- Add a key. Without room for it the keys move to another array. -/
  | add (key : α) (moves : Bool)
  | contains (key : α)
  | keys
  /-- Overwrite one position of an array. Arrays are counted in the order in which
  they were handed out. -/
  | overwrite (array position : Nat) (key : α)
  deriving DecidableEq, Repr

inductive KeyAnswer where
  | done
  | flag (b : Bool)
  | address (n : Nat)
  deriving DecidableEq, Repr

namespace KeyMemory

variable {α : Type}

/-- The address of the next new array. -/
def next (m : KeyMemory α) : Nat := m.arrays.length

def read (m : KeyMemory α) (address : Nat) : List α := m.arrays[address]?.getD []

def write (m : KeyMemory α) (address : Nat) (keys : List α) : KeyMemory α :=
  { m with arrays := m.arrays.set address keys }

/-- Put keys into a new array. -/
def alloc (m : KeyMemory α) (keys : List α) : KeyMemory α :=
  { m with arrays := m.arrays ++ [keys] }

/-- The set as it stands in memory. -/
def table (m : KeyMemory α) : KeyTable α := ⟨m.read m.own, m.index⟩

/-- Put a set into the place of the old one, or next to it. -/
def store (m : KeyMemory α) (t : KeyTable α) (moves : Bool) : KeyMemory α :=
  if moves then { m.alloc t.keys with own := m.next, index := t.index }
  else { m.write m.own t.keys with index := t.index }

/-- Answer one request. -/
def step [DecidableEq α] (m : KeyMemory α) : KeyRequest α → KeyAnswer × KeyMemory α
  | .add a moves =>
    match m.table.add a with
    | (false, _) => (.flag false, m)
    | (true, t) => (.flag true, m.store t moves)
  | .contains a => (.flag (m.table.contains a), m)
  | .keys =>
    (.address m.next, { m.alloc (m.read m.own) with given := m.given ++ [m.next] })
  | .overwrite n i a =>
    match m.given[n]? with
    | none => (.done, m)
    | some address => (.done, m.write address ((m.read address).set i a))

variable {m : KeyMemory α} {address other : Nat} {keys : List α}

@[simp] theorem next_write : (m.write address keys).next = m.next := List.length_set

@[simp] theorem next_alloc : (m.alloc keys).next = m.next + 1 := List.length_append

theorem read_write_self (h : address < m.next) : (m.write address keys).read address = keys := by
  rw [read, write, List.getElem?_set_self h]
  rfl

theorem read_write_of_ne (h : address ≠ other) :
    (m.write address keys).read other = m.read other := by
  rw [read, write, List.getElem?_set_ne h]
  rfl

theorem read_alloc_self : (m.alloc keys).read m.next = keys := by
  rw [read, alloc, next, List.getElem?_concat_length]
  rfl

theorem read_alloc_of_lt (h : address < m.next) :
    (m.alloc keys).read address = m.read address := by
  rw [read, alloc, List.getElem?_append_left h]
  rfl

end KeyMemory
end Lowering
