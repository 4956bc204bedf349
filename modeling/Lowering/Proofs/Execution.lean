import Lowering.Machine
import Lowering.Proofs.Labels

/-!
# Running a stretch of code

`code.Holds pc c` says that the instructions `c` stand at address `pc`. A run that gets
through them is described by `Machine.Passes`: it ends right behind them and changes only
a range of virtual registers and one more, the destination. What the run does to the heap
is said apart from that, since an object is built by several instructions
(`Machine.Builds`).
-/

namespace Lowering

namespace Code

/-- The instructions `c` stand at address `pc`. -/
def Holds (code : Code) (pc : Nat) (c : Code) : Prop := c <+: code.drop pc

namespace Holds

variable {code c d : Code} {pc : Nat} {i : Instr}

theorem left (h : code.Holds pc (c ++ d)) : code.Holds pc c :=
  (List.prefix_append c d).trans h

theorem right (h : code.Holds pc (c ++ d)) : code.Holds (pc + c.length) d := by
  have hdrop := h.drop c.length
  rwa [List.drop_left, List.drop_drop] at hdrop

theorem head (h : code.Holds pc (i :: c)) : code[pc]? = some i := by
  obtain ⟨rest, hrest⟩ := h
  have hhead : (code.drop pc)[0]? = some i := by rw [← hrest]; rfl
  rwa [List.getElem?_drop, Nat.add_zero] at hhead

theorem tail (h : code.Holds pc (i :: c)) : code.Holds (pc + 1) c :=
  right (c := [i]) h

/-- A block of the code stands at some address. -/
theorem exists_of_within (h : c <:+: code) : ∃ pc, code.Holds pc c := by
  obtain ⟨before, after, rfl⟩ := h
  refine ⟨before.length, after, ?_⟩
  rw [List.append_assoc, List.drop_left]

end Holds

theorem marks_append (c d : Code) : marks (c ++ d) = marks c ++ marks d := by
  simp [marks]

theorem mem_marks {code : Code} {pc : Nat} {l : Label} (h : code[pc]? = some (.mark l)) :
    l ∈ code.marks := by
  have hmem : Instr.mark l ∈ code := List.mem_of_getElem? h
  exact List.mem_filterMap.mpr ⟨.mark l, List.mem_filterMap.mpr ⟨_, hmem, rfl⟩, rfl⟩

/-- If no label is marked twice, its address is the place of any mark of it. -/
theorem address?_eq {code : Code} (hmarks : code.marks.Nodup) {pc : Nat} {l : Label}
    (h : code[pc]? = some (.mark l)) : code.address? l = some pc := by
  obtain ⟨hpc, hmark⟩ := List.getElem?_eq_some_iff.mp h
  refine List.idxOf?_eq_some_iff.mpr ⟨hpc, hmark, fun j hj hmark' => ?_⟩
  rw [← List.take_append_drop pc code, marks_append] at hmarks
  have hbefore : (code.take pc)[j]? = some (.mark l) := by
    rw [List.getElem?_take_of_lt hj, List.getElem?_eq_getElem (hj.trans hpc), hmark']
  have hafter : (code.drop pc)[0]? = some (.mark l) := by
    rw [List.getElem?_drop, Nat.add_zero, h]
  exact (List.nodup_append'.mp hmarks).2.2 (mem_marks hbefore) (mem_marks hafter)

end Code

namespace Machine

@[simp] theorem pc_set (m : Machine) (r : Reg) (w : Word) : (m.set r w).pc = m.pc := by
  simp only [set]; split <;> rfl
@[simp] theorem heap_set (m : Machine) (r : Reg) (w : Word) : (m.set r w).heap = m.heap := by
  simp only [set]; split <;> rfl
@[simp] theorem callers_set (m : Machine) (r : Reg) (w : Word) :
    (m.set r w).callers = m.callers := by
  simp only [set]; split <;> rfl
@[simp] theorem output_set (m : Machine) (r : Reg) (w : Word) :
    (m.set r w).output = m.output := by
  simp only [set]; split <;> rfl

@[simp] theorem pc_next (m : Machine) : m.next.pc = m.pc + 1 := rfl
@[simp] theorem heap_next (m : Machine) : m.next.heap = m.heap := rfl
@[simp] theorem callers_next (m : Machine) : m.next.callers = m.callers := rfl
@[simp] theorem output_next (m : Machine) : m.next.output = m.output := rfl
@[simp] theorem get?_next (m : Machine) (r : Reg) : m.next.get? r = m.get? r := rfl

/-- The same machine, about to go on somewhere else. -/
def moveTo (m : Machine) (pc : Nat) : Machine := { m with pc }

@[simp] theorem pc_moveTo (m : Machine) (pc : Nat) : (m.moveTo pc).pc = pc := rfl
@[simp] theorem heap_moveTo (m : Machine) (pc : Nat) : (m.moveTo pc).heap = m.heap := rfl
@[simp] theorem output_moveTo (m : Machine) (pc : Nat) : (m.moveTo pc).output = m.output := rfl
@[simp] theorem get?_moveTo (m : Machine) (pc : Nat) (r : Reg) :
    (m.moveTo pc).get? r = m.get? r := rfl

theorem exec_mark (code : Code) (m : Machine) (l : Label) :
    m.exec code (.mark l) = some (m.moveTo (m.pc + 1)) := rfl

theorem jump?_eq {code : Code} {m : Machine} {l : Label} {pc : Nat}
    (h : code.address? l = some pc) : m.jump? code l = some (m.moveTo pc) := by
  simp [jump?, h, moveTo]

/-- The run from `m` comes to `t`. -/
def Leads (code : Code) (m t : Machine) : Prop := ∃ n, m.steps code n = some t

namespace Leads

variable {code : Code} {m t u : Machine} {i : Instr}

theorem refl (m : Machine) : Leads code m m := ⟨0, rfl⟩

theorem of_exec (hi : code[m.pc]? = some i) (h : m.exec code i = some t) : Leads code m t :=
  ⟨1, by simp [steps, step, hi, h]⟩

theorem movReg {c : Code} {dst src : Reg} {w : Word}
    (hcode : code.Holds m.pc (.movReg dst src :: c)) (hw : m.get? src = some w) :
    Leads code m (m.set dst w).next :=
  of_exec hcode.head (by simp [exec, hw])

theorem trans (h : Leads code m t) (k : Leads code t u) : Leads code m u := by
  obtain ⟨n, hn⟩ := h
  obtain ⟨j, hj⟩ := k
  refine ⟨n + j, ?_⟩
  induction n generalizing m with
  | zero =>
      cases hn
      rwa [Nat.zero_add]
  | succ n ih =>
      rw [Nat.add_right_comm, steps]
      rw [steps] at hn
      obtain ⟨m₁, hm₁, hn⟩ := Option.bind_eq_some_iff.mp hn
      exact Option.bind_eq_some_iff.mpr ⟨m₁, hm₁, ih hn⟩

end Leads

/-- The run from `m` prints and comes to `t`. Apart from the heap and the registers of the
calling convention, it changes only the virtual registers from `lo + 1` to `hi` and the one
with number `d`. -/
structure Goes (code : Code) (lo hi d : Nat) (printed : List Printed) (m t : Machine) :
    Prop where
  leads : Leads code m t
  regs : ∀ k : Nat, k ≤ lo ∨ hi < k → k ≠ d → t.get? (.virtual k) = m.get? (.virtual k)
  globals : ∀ x, t.get? (.global x) = m.get? (.global x)
  callers : t.callers = m.callers
  output : t.output = m.output ++ printed

namespace Goes

variable {code : Code} {lo hi d lo' hi' d' : Nat} {printed printed' : List Printed}
  {m t u : Machine} {i : Instr}

theorem trans (h : Goes code lo hi d printed m t) (k : Goes code lo hi d printed' t u) :
    Goes code lo hi d (printed ++ printed') m u where
  leads := h.leads.trans k.leads
  regs j hj hd := (k.regs j hj hd).trans (h.regs j hj hd)
  globals x := (k.globals x).trans (h.globals x)
  callers := k.callers.trans h.callers
  output := by rw [k.output, h.output, List.append_assoc]

/-- More registers may be said to change. -/
theorem widen (h : Goes code lo hi d printed m t) (hlo : lo' ≤ lo) (hhi : hi ≤ hi')
    (hd : d = d' ∨ lo' < d ∧ d ≤ hi') : Goes code lo' hi' d' printed m t where
  leads := h.leads
  regs j hj hjd := h.regs j (by omega) (by omega)
  globals := h.globals
  callers := h.callers
  output := h.output

/-- An instruction that only moves the counter. -/
theorem counter {pc : Nat} (hi : code[m.pc]? = some i)
    (hexec : m.exec code i = some (m.moveTo pc)) : Goes code lo hi' d [] m (m.moveTo pc) where
  leads := .of_exec hi hexec
  regs _ _ _ := rfl
  globals _ := rfl
  callers := rfl
  output := (List.append_nil _).symm

/-- A jump comes to a stop behind the mark it names. -/
theorem jumpMark {l : Label} {pc : Nat} (hunique : code.marks.Nodup)
    (hjump : code[m.pc]? = some (.jump l)) (hmark : code[pc]? = some (.mark l)) :
    Goes code lo hi' d [] m (m.moveTo (pc + 1)) :=
  trans (counter hjump (jump?_eq (Code.address?_eq hunique hmark)))
    (counter (m := m.moveTo pc) hmark (exec_mark code _ l))

end Goes

/-- The run goes through the instructions `c` and comes to a stop behind them. -/
structure Passes (code c : Code) (lo hi d : Nat) (printed : List Printed) (m t : Machine) :
    Prop extends Goes code lo hi d printed m t where
  pc : t.pc = m.pc + c.length

namespace Passes

variable {code c c' : Code} {lo hi d lo' hi' d' : Nat} {printed printed' : List Printed}
  {m t u : Machine} {i : Instr}

theorem refl (m : Machine) : Passes code [] lo hi d [] m m where
  leads := .refl m
  pc := rfl
  regs _ _ _ := rfl
  globals _ := rfl
  callers := rfl
  output := (List.append_nil _).symm

theorem trans (h : Passes code c lo hi d printed m t)
    (k : Passes code c' lo hi d printed' t u) :
    Passes code (c ++ c') lo hi d (printed ++ printed') m u where
  toGoes := h.toGoes.trans k.toGoes
  pc := by rw [k.pc, h.pc, List.length_append, Nat.add_assoc]

theorem widen (h : Passes code c lo hi d printed m t) (hlo : lo' ≤ lo) (hhi : hi ≤ hi')
    (hd : d = d' ∨ lo' < d ∧ d ≤ hi') : Passes code c lo' hi' d' printed m t where
  toGoes := h.toGoes.widen hlo hhi hd
  pc := h.pc

/-- What follows the instructions stands where the run has come to. -/
theorem holds (h : Passes code c lo hi d printed m t) (hcode : code.Holds m.pc (c ++ c')) :
    code.Holds t.pc c' :=
  h.pc ▸ hcode.right

/-- An instruction that sets one virtual register. -/
theorem set {k : Nat} {w : Word} (hcode : code.Holds m.pc [i])
    (hexec : m.exec code i = some (m.set (.virtual k) w).next) :
    Passes code [i] lo hi k [] m (m.set (.virtual k) w).next where
  leads := .of_exec hcode.head hexec
  pc := by simp
  regs j _ hj := by
    rw [get?_next]
    exact get?_set_of_ne m (by simpa using hj) w
  globals x := by
    rw [get?_next]
    exact get?_set_of_ne m (Reg.ne_of_isVirtual (by simp) (by simp)).symm w
  callers := by simp
  output := by simp

theorem exists_set {k : Nat} {w : Word} (lo hi : Nat) (hcode : code.Holds m.pc [i])
    (hexec : m.exec code i = some (m.set (.virtual k) w).next) :
    ∃ t, Passes code [i] lo hi k [] m t ∧ t.heap = m.heap ∧ t.get? (.virtual k) = some w ∧
      ∀ j : Nat, j ≠ k → t.get? (.virtual j) = m.get? (.virtual j) := by
  refine ⟨_, .set hcode hexec, heap_set m _ _, ?_, ?_⟩
  · rw [get?_next, get?_set_self]
  · intro j hj
    rw [get?_next]
    exact get?_set_of_ne m (by simpa using hj) w

/-- An instruction that only prints. -/
theorem print {p : Printed} (hcode : code.Holds m.pc [i])
    (hexec : m.exec code i = some (m.print p).next) :
    Passes code [i] lo hi d [p] m (m.print p).next where
  leads := .of_exec hcode.head hexec
  pc := rfl
  regs _ _ _ := rfl
  globals _ := rfl
  callers := rfl
  output := rfl

end Passes

/-- A virtual register with a number up to `n` holds the word. -/
def HasUpTo (m : Machine) (n : Nat) (r : Reg) (w : Word) : Prop :=
  ∃ k : Nat, r = .virtual k ∧ k ≤ n ∧ m.get? r = some w

/-- The word refers to an object with these words. -/
def PointsTo (heap : List (List Word)) (w : Word) (words : List Word) : Prop :=
  0 ≤ w ∧ heap[w.toNat]? = some words

theorem PointsTo.mono {heap heap' : List (List Word)} {w : Word} {words : List Word}
    (h : PointsTo heap w words) (hheap : heap <+: heap') : PointsTo heap' w words := by
  obtain ⟨more, rfl⟩ := hheap
  refine ⟨h.1, ?_⟩
  rw [List.getElem?_append_left (List.getElem?_eq_some_iff.mp h.2).1, h.2]

theorem pointsTo_length (heap : List (List Word)) (words : List Word) :
    PointsTo (heap ++ [words]) heap.length words :=
  ⟨Int.natCast_nonneg _, by simp⟩

theorem object?_eq {m : Machine} {r : Reg} {w : Word} {words : List Word}
    (hr : m.get? r = some w) (hw : PointsTo m.heap w words) :
    m.object? r = some (w.toNat, words) := by
  simp [object?, hr, hw.2, not_lt.mpr hw.1]

theorem slot?_natCast {k size : Nat} (h : k < size) : slot? k size = some k := by
  simp [slot?, h]

theorem load?_eq {m : Machine} {r : Reg} {w u : Word} {words : List Word} {k : Nat}
    (hr : m.get? r = some w) (hw : PointsTo m.heap w words) (hu : words[k]? = some u) :
    m.load? r k = some u := by
  have hk := (List.getElem?_eq_some_iff.mp hu).1
  simp [load?, object?_eq hr hw, slot?_natCast hk, hu]

/-- The instructions `c` build one object and leave a reference to it in the register with
number `o`. Its first words are `done`, and `left` words are still zero. -/
structure Builds (code c : Code) (lo hi o : Nat) (done : List Word) (left : Nat)
    (m t : Machine) : Prop extends Passes code c lo hi hi [] m t where
  heap : t.heap = m.heap ++ [done ++ List.replicate left 0]
  obj : t.get? (.virtual o) = some (m.heap.length : Int)

namespace Builds

variable {code c : Code} {lo hi o left : Nat} {done : List Word} {m t : Machine}

theorem get?_of_hasUpTo {r : Reg} {w : Word} (h : Builds code c lo hi o done left m t)
    (hlo : lo < hi) (hr : m.HasUpTo lo r w) : t.get? r = some w := by
  obtain ⟨k, rfl, hk, hw⟩ := hr
  exact (h.regs k (.inl hk) (by omega)).trans hw

theorem alloc {n : Nat} (hcode : code.Holds m.pc [.alloc (.virtual o) n]) (hlo : lo < o)
    (hhi : o ≤ hi) : ∃ t, Builds code [.alloc (.virtual o) n] lo hi o [] n m t := by
  let grown : Machine := { m with heap := m.heap ++ [List.replicate n 0] }
  have hexec : m.exec code (.alloc (.virtual o) n) =
      some (grown.set (.virtual o) (m.heap.length : Int)).next := by
    simp [exec, alloc?, grown, not_lt.mpr (Int.natCast_nonneg n)]
  refine ⟨(grown.set (.virtual o) (m.heap.length : Int)).next, ?_, ?_, ?_⟩
  · exact {
      leads := .of_exec hcode.head hexec
      pc := by simp [grown]
      regs := by
        intro j hj _
        rw [get?_next, get?_set_of_ne grown (by simp; omega)]
        rfl
      globals := by
        intro x
        rw [get?_next, get?_set_of_ne grown (Reg.ne_of_isVirtual (by simp) (by simp)).symm]
        rfl
      callers := by simp [grown]
      output := by simp [grown] }
  · simp [grown]
  · simp

/-- The next word is copied from a register. -/
theorem store {slot : Int} {r : Reg} {w : Word}
    (h : Builds code c lo hi o done (left + 1) m t)
    (hcode : code.Holds m.pc (c ++ [Instr.store (.virtual o) slot r]))
    (hslot : slot = (done.length : Int)) (hr : t.get? r = some w) :
    ∃ u, Builds code (c ++ [Instr.store (.virtual o) slot r]) lo hi o (done ++ [w]) left m u ∧
      ∀ q, u.get? q = t.get? q := by
  subst hslot
  have hobject : t.object? (.virtual o) =
      some (m.heap.length, done ++ List.replicate (left + 1) 0) := by
    refine object?_eq h.obj ?_
    rw [h.heap]
    exact pointsTo_length _ _
  have hset : t.heap.set m.heap.length ((done ++ List.replicate (left + 1) 0).set done.length w) =
      m.heap ++ [done ++ [w] ++ List.replicate left 0] := by
    simp [h.heap, List.replicate_succ]
  let stored : Machine := { t with heap := m.heap ++ [done ++ [w] ++ List.replicate left 0] }
  have hexec : t.exec code (.store (.virtual o) done.length r) = some stored.next := by
    have hslot : slot? (done.length : Int) (done ++ List.replicate (left + 1) 0).length =
        some done.length := slot?_natCast (by simp)
    simp only [exec, hr, store?, hobject, hslot, Option.pure_def, Option.bind_eq_bind,
      Option.bind_some, hset, stored]
  refine ⟨stored.next, ⟨?_, rfl, h.obj⟩, fun _ => rfl⟩
  refine .trans h.toPasses ?_
  exact {
    leads := .of_exec (h.holds hcode).head hexec
    pc := rfl
    regs := fun _ _ _ => rfl
    globals := fun _ => rfl
    callers := rfl
    output := (List.append_nil _).symm }

/-- The next word goes through another register. -/
theorem storeVia {slot : Int} {k : Nat} {i : Instr} {w : Word}
    (h : Builds code c lo hi o done (left + 1) m t)
    (hcode : code.Holds m.pc (c ++ [i, .store (.virtual o) slot (.virtual k)]))
    (hslot : slot = (done.length : Int))
    (hexec : t.exec code i = some (t.set (.virtual k) w).next)
    (hlo : lo < k) (hhi : k ≤ hi) (hk : k ≠ o) :
    ∃ u, Builds code (c ++ [i, .store (.virtual o) slot (.virtual k)]) lo hi o (done ++ [w])
      left m u := by
  rw [List.append_cons] at hcode ⊢
  have hset : Passes code [i] lo hi hi [] t (t.set (.virtual k) w).next :=
    (Passes.set (h.holds hcode.left) hexec).widen le_rfl le_rfl (.inr ⟨hlo, hhi⟩)
  have hvalue : Builds code (c ++ [i]) lo hi o done (left + 1) m (t.set (.virtual k) w).next := by
    refine ⟨h.toPasses.trans hset, by simpa using h.heap, ?_⟩
    rw [get?_next, get?_set_of_ne t (by simpa using hk.symm), h.obj]
  obtain ⟨u, hu, -⟩ := hvalue.store hcode hslot (get?_set_self t _ w)
  exact ⟨u, hu⟩

theorem storeInt {slot : Int} {k : Nat} {w : Word}
    (h : Builds code c lo hi o done (left + 1) m t)
    (hcode : code.Holds m.pc (c ++ storeInt (.virtual o) slot (.virtual k) w))
    (hslot : slot = (done.length : Int)) (hlo : lo < k) (hhi : k ≤ hi) (hk : k ≠ o) :
    ∃ u, Builds code (c ++ Lowering.storeInt (.virtual o) slot (.virtual k) w) lo hi o
      (done ++ [w]) left m u :=
  h.storeVia hcode hslot rfl hlo hhi hk

/-- The next words are copied from registers that building does not change. -/
theorem storeAll {slot : Nat} {regs : List Reg} {ws : List Word}
    (h : Builds code c lo hi o done (ws.length + left) m t)
    (hcode : code.Holds m.pc (c ++ storeAll (.virtual o) slot regs))
    (hslot : slot = done.length) (hregs : List.Forall₂ (fun r w => t.get? r = some w) regs ws) :
    ∃ u, Builds code (c ++ Lowering.storeAll (.virtual o) slot regs) lo hi o (done ++ ws) left
      m u := by
  induction regs generalizing c done slot t ws with
  | nil =>
      cases hregs
      refine ⟨t, ?_⟩
      simpa [Lowering.storeAll] using h
  | cons r regs ih =>
      cases hregs with
      | @cons _ w _ ws hr hregs =>
          rw [Lowering.storeAll, List.append_cons] at hcode ⊢
          rw [List.length_cons, Nat.add_right_comm] at h
          obtain ⟨u, hu, hsame⟩ := h.store hcode.left (by rw [hslot]) hr
          rw [List.append_cons done]
          exact ih hu hcode (by simp [hslot]) (by simpa only [hsame] using hregs)

end Builds

/-- The instructions `c` put a reference to a new object into the register with number `d`. -/
def Leaves (code c : Code) (lo hi d : Nat) (words : List Word) (m : Machine) : Prop :=
  ∃ t, Passes code c lo hi d [] m t ∧ t.heap = m.heap ++ [words] ∧
    t.get? (.virtual d) = some (m.heap.length : Int)

namespace Leaves

variable {code c : Code} {lo hi d o k : Nat} {m : Machine}

/-- The reference to the object is moved to its destination. -/
theorem of_builds {done : List Word} {left : Nat} {t : Machine}
    (h : Builds code c lo hi o done left m t) (hlo : lo < hi)
    (hcode : code.Holds m.pc (c ++ [Instr.movReg (.virtual d) (.virtual o)])) :
    Leaves code (c ++ [Instr.movReg (.virtual d) (.virtual o)]) lo hi d
      (done ++ List.replicate left 0) m := by
  have hpasses : Passes code c lo hi d [] m t :=
    h.toPasses.widen le_rfl le_rfl (.inr ⟨hlo, le_rfl⟩)
  refine ⟨(t.set (.virtual d) (m.heap.length : Int)).next, ?_, by simp [h.heap], by simp⟩
  exact hpasses.trans (.set (h.holds hcode) (by simp [exec, h.obj]))

variable (ho : lo < o ∧ o ≤ hi) (hk : lo < k ∧ k ≤ hi) (hne : k ≠ o)
include ho hk hne

theorem boxed {t : Tag} {value : Int64} (hsize : t.size = 2)
    (hcode : code.Holds m.pc (boxedCode t value (.virtual k) (.virtual o) (.virtual d))) :
    Leaves code (boxedCode t value (.virtual k) (.virtual o) (.virtual d)) lo hi d
      [t.id, value.toInt] m := by
  rw [boxedCode, hsize] at hcode ⊢
  obtain ⟨m₁, h₁⟩ := Builds.alloc (n := 2) hcode.left.left.left ho.1 ho.2
  obtain ⟨m₂, h₂⟩ := h₁.storeInt hcode.left.left rfl hk.1 hk.2 hne
  obtain ⟨m₃, h₃⟩ := h₂.storeInt hcode.left rfl hk.1 hk.2 hne
  exact of_builds h₃ (by omega) hcode

theorem ctor {t : Tag} {n : Nat} (hsize : t.size = (n + 1 : Nat))
    (hcode : code.Holds m.pc (ctorCode t (.virtual k) (.virtual o) (.virtual d))) :
    Leaves code (ctorCode t (.virtual k) (.virtual o) (.virtual d)) lo hi d
      (t.id :: List.replicate n 0) m := by
  rw [ctorCode, hsize] at hcode ⊢
  obtain ⟨m₁, h₁⟩ := Builds.alloc hcode.left.left ho.1 ho.2
  obtain ⟨m₂, h₂⟩ := h₁.storeInt hcode.left rfl hk.1 hk.2 hne
  exact of_builds h₂ (by omega) hcode

theorem construct {t : Tag} {args : List Reg} {ws : List Word}
    (hargs : List.Forall₂ (m.HasUpTo lo) args ws)
    (hcode : code.Holds m.pc (constructCode t args (.virtual o) (.virtual k) (.virtual d))) :
    Leaves code (constructCode t args (.virtual o) (.virtual k) (.virtual d)) lo hi d
      (t.id :: ws) m := by
  rw [constructCode, hargs.length_eq] at hcode ⊢
  obtain ⟨m₁, h₁⟩ := Builds.alloc hcode.left.left.left ho.1 ho.2
  obtain ⟨m₂, h₂⟩ := h₁.storeInt hcode.left.left rfl hk.1 hk.2 hne
  replace h₂ : Builds code _ lo hi o [t.id] (ws.length + 0) m m₂ := h₂
  obtain ⟨m₃, h₃⟩ := h₂.storeAll hcode.left rfl
    (hargs.imp fun _ _ h => h₂.get?_of_hasUpTo (by omega) h)
  have h := of_builds h₃ (by omega) hcode
  rwa [List.replicate_zero, List.append_nil] at h

theorem closure {t : Tag} {label : Label} {address : Nat} {captured : List Reg} {ws : List Word}
    (haddress : code.address? label = some address)
    (hcaptured : List.Forall₂ (m.HasUpTo lo) captured ws)
    (hcode : code.Holds m.pc
      (closureCode t label captured (.virtual o) (.virtual k) (.virtual d))) :
    Leaves code (closureCode t label captured (.virtual o) (.virtual k) (.virtual d)) lo hi d
      (t.id :: (address : Int) :: ws) m := by
  rw [closureCode, hcaptured.length_eq, Nat.add_comm captureOffset] at hcode ⊢
  obtain ⟨m₁, h₁⟩ := Builds.alloc hcode.left.left.left.left ho.1 ho.2
  obtain ⟨m₂, h₂⟩ := h₁.storeInt hcode.left.left.left rfl hk.1 hk.2 hne
  obtain ⟨m₃, h₃⟩ := h₂.storeVia hcode.left.left rfl
    (show m₂.exec code (.movLabel (.virtual k) label) =
      some (m₂.set (.virtual k) (address : Int)).next by simp [exec, haddress]) hk.1 hk.2 hne
  replace h₃ : Builds code _ lo hi o [t.id, (address : Int)] (ws.length + 0) m m₃ := h₃
  obtain ⟨m₄, h₄⟩ := h₃.storeAll hcode.left rfl
    (hcaptured.imp fun _ _ h => h₃.get?_of_hasUpTo (by omega) h)
  have h := of_builds h₄ (by omega) hcode
  rwa [List.replicate_zero, List.append_nil] at h

end Leaves

end Machine
end Lowering
