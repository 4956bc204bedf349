import Lowering.Proofs.Rules

/-!
# The instructions of lowered code

Much of what is said of lowered code is said of each of its instructions (`Code.Each`): which
registers they read or write, where they make objects, that they do not jump. The lemmas here say
which instructions the pieces of code are made of. The four pieces that make an object are made
of the same ones (`Code.Building`).
-/

namespace Lowering

namespace Code

/-- Each instruction of the code is as `P` says. -/
def Each (P : Instr → Prop) (code : Code) : Prop := ∀ i ∈ code, P i

variable {P Q : Instr → Prop} {c d : Code}

theorem Each.mono (h : c.Each P) (hPQ : ∀ i, P i → Q i) : c.Each Q := fun i hi => hPQ i (h i hi)

@[simp] theorem each_nil : Each P [] := List.forall_mem_nil P

@[simp] theorem each_cons {i : Instr} : Each P (i :: c) ↔ P i ∧ c.Each P := List.forall_mem_cons

@[simp] theorem each_append : Each P (c ++ d) ↔ c.Each P ∧ d.Each P := List.forall_mem_append

theorem each_storeAll {obj : Reg} {regs : List Reg} (h : ∀ n, ∀ r ∈ regs, P (.store obj n r))
    (slot : Nat) : Each P (storeAll obj slot regs) := by
  induction regs generalizing slot with
  | nil => exact each_nil
  | cons r rest ih =>
      refine each_cons.mpr ⟨h _ r List.mem_cons_self, ?_⟩
      exact ih (fun n q hq => h n q (List.mem_cons_of_mem r hq)) (slot + 1)

/-- What `P` says of the instructions that make an object in `obj` with the given fields and move
it to `dst`. Other words get into the object by way of `tmp`. -/
structure Building (P : Instr → Prop) (obj tmp dst : Reg) (fields : List Reg) : Prop where
  alloc : ∀ n, P (.alloc obj n)
  word : ∀ n, P (.movInt tmp n)
  address : ∀ l, P (.movLabel tmp l)
  store : ∀ n, P (.store obj n tmp)
  field : ∀ n, ∀ r ∈ fields, P (.store obj n r)
  move : P (.movReg dst obj)

namespace Building

variable {obj tmp dst : Reg} {fields : List Reg}

theorem boxedCode (h : Building P obj tmp dst []) (t : Tag) (value : Int64) :
    Each P (boxedCode t value tmp obj dst) := by
  simp [Lowering.boxedCode, storeInt, h.alloc, h.word, h.store, h.move]

theorem ctorCode (h : Building P obj tmp dst []) (t : Tag) :
    Each P (ctorCode t tmp obj dst) := by
  simp [Lowering.ctorCode, storeInt, h.alloc, h.word, h.store, h.move]

theorem constructCode (h : Building P obj tmp dst fields) (t : Tag) :
    Each P (constructCode t fields obj tmp dst) := by
  simp [Lowering.constructCode, storeInt, h.alloc, h.word, h.store, h.move,
    each_storeAll h.field]

theorem closureCode (h : Building P obj tmp dst fields) (t : Tag) (label : Label) :
    Each P (closureCode t label fields obj tmp dst) := by
  simp [Lowering.closureCode, storeInt, h.alloc, h.word, h.address, h.store, h.move,
    each_storeAll h.field]

end Building

theorem each_printCode {tmp dst : Reg} (hload : P (.load tmp dst 1)) (hint : P (.print tmp))
    (hchar : P (.printChar tmp)) (x : String) : Each P (printCode x tmp dst) := by
  by_cases hx : x = printCharName
  · simp [printCode, hx, hload, hchar]
  · simp [printCode, hx, hload, hint]

theorem each_callCode {func arg address res dst : Reg} :
    Each P (callCode func arg address res dst) ↔
      P (.load address func 1) ∧ P (.movReg .callee func) ∧ P (.movReg .argument arg) ∧
        P (.icall address) ∧ P (.movReg res .result) ∧ P (.movReg dst res) := by
  simp [callCode]

theorem each_routineCode {label : Label} {closure arg res : Reg} {body : Code} :
    Each P (routineCode label closure arg res body) ↔
      (P (.mark label) ∧ P (.movReg closure .callee) ∧ P (.movReg arg .argument)) ∧
        body.Each P ∧ P (.movReg .result res) ∧ P .ret := by
  simp [routineCode, and_assoc]

end Code

theorem RefersAll.each {P : Instr → Prop} {xs : List String} {s : LowerState} {c : Code}
    (h : RefersAll xs s c)
    (hP : ∀ i < xs.length, ∀ x c, Refers x (s.reg (i + 1)) (s.skip (i + 1)) c → c.Each P) :
    c.Each P := by
  induction h with
  | nil => exact Code.each_nil
  | @cons x rest s c cs head _ ih =>
      refine Code.each_append.mpr ⟨hP 0 (Nat.succ_pos _) x c head, ih fun i hi y d hd => ?_⟩
      rw [LowerState.reg_skip, LowerState.skip_skip, Nat.add_comm 1] at hd
      exact hP (i + 1) (Nat.succ_lt_succ hi) y d hd

theorem Compares.each {P : Instr → Prop} {mode : Dispatch} {id : Nat} {tagReg wanted : Reg}
    {index : Nat} {bs : List Branch} {s t : LowerState} {code : Code}
    (h : Compares mode id tagReg wanted index bs s code t) (hword : ∀ n, P (.movInt wanted n))
    (hjump : ∀ l, P (.jumpEq tagReg wanted l)) : code.Each P := by
  induction h with
  | nil => exact Code.each_nil
  | cons _ ih => exact Code.each_cons.mpr ⟨hword _, Code.each_cons.mpr ⟨hjump _, ih⟩⟩

namespace Fragment

/-- Each instruction of the fragment and of its routines is as `P` says. -/
def Each (P : Instr → Prop) (f : Fragment) : Prop := f.allCode.Each P

variable {P Q : Instr → Prop} {f g : Fragment}

theorem Each.mono (h : f.Each P) (hPQ : ∀ i, P i → Q i) : f.Each Q := Code.Each.mono h hPQ

@[simp] theorem each_ofCode {code : Code} : (ofCode code).Each P ↔ code.Each P := by
  simp [Each, allCode]

@[simp] theorem each_empty : (∅ : Fragment).Each P := by
  simp [Each, allCode]

@[simp] theorem each_append : (f ++ g).Each P ↔ f.Each P ∧ g.Each P := by
  simp [Each, allCode]
  tauto

@[simp] theorem each_prepend : (f.prepend g).Each P ↔ f.Each P ∧ g.Each P := by
  simp [Each, allCode]
  tauto

/-- The code of a lambda's body becomes that of a routine. -/
theorem Each.lambda {code routine : Code} {label : Label} {free : List String} (h : f.Each P)
    (hcode : code.Each P) (hroutine : f.code.Each P → routine.Each P) :
    Each P ⟨code, f.routines ++ [⟨label, routine, free⟩]⟩ := by
  obtain ⟨hf, hroutines⟩ := Code.each_append.mp h
  simpa [Each, allCode, hcode, hroutines] using hroutine hf

end Fragment

end Lowering
