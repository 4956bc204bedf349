import Lowering.Proofs.Representation

/-!
# Calls

The code of a call and the code around the body of a routine fit together. `Entered`
describes the machine when the body starts: the routine has its closure and its argument in
registers of its own, and the caller's registers wait. `Returned` describes the machine
when the caller goes on.
-/

namespace Lowering.Machine

variable {code : Code} {m t u : Machine}

theorem regs_next (m : Machine) : m.next.regs = m.regs := rfl

theorem regs_set_virtual (m : Machine) (k : Nat) (w : Word) :
    (m.set (.virtual k) w).regs = m.regs.set (.virtual k) w := by
  simp [set]

theorem regs_set_shared (m : Machine) {r : Reg} (hr : r.isVirtual = false) (w : Word) :
    (m.set r w).regs = m.regs := by
  simp [set, hr]

theorem get?_set_shared_virtual (m : Machine) {r : Reg} (hr : r.isVirtual = false) (k : Nat)
    (w : Word) : (m.set r w).get? (.virtual k) = m.get? (.virtual k) :=
  get?_set_of_ne m (Reg.ne_of_isVirtual (by simp) hr) w

theorem get?_set_virtual_shared (m : Machine) {r : Reg} (hr : r.isVirtual = false) (k : Nat)
    (w : Word) : (m.set (.virtual k) w).get? r = m.get? r :=
  get?_set_of_ne m (Reg.ne_of_isVirtual (by simp) hr).symm w

/-- The machine at the start of a routine's body. The closure is in the register with number
`c` and the argument in the one with number `p`. -/
structure Entered (code : Code) (m t : Machine) (address c p : Nat) (closure arg : Word)
    (saved : Registers) : Prop where
  leads : Leads code m t
  pc : t.pc = address + 3
  heap : t.heap = m.heap
  closure : t.get? (.virtual c) = some closure
  arg : t.get? (.virtual p) = some arg
  globals : ∀ x, t.get? (.global x) = m.get? (.global x)
  callers : t.callers = ⟨m.pc + 4, saved⟩ :: m.callers
  output : t.output = m.output

/-- A call enters the routine of its closure. -/
theorem exists_entered {a b k c p address : Nat} {closure arg : Word} {words : List Word}
    {label : Label} (ha : m.get? (.virtual a) = some closure) (hak : a ≠ k)
    (hb : m.get? (.virtual b) = some arg) (hbk : b ≠ k) (hcp : c ≠ p)
    (hobject : PointsTo m.heap closure words) (haddress : words[1]? = some (address : Int))
    (hcode : code.Holds m.pc [.load (.virtual k) (.virtual a) 1, .movReg .callee (.virtual a),
      .movReg .argument (.virtual b), .icall (.virtual k)])
    (hroutine : code.Holds address
      [.mark label, .movReg (.virtual c) .callee, .movReg (.virtual p) .argument]) :
    ∃ t, Entered code m t address c p closure arg (m.regs.set (.virtual k) address) := by
  let m₁ := (m.set (.virtual k) address).next
  let m₂ := (m₁.set .callee closure).next
  let m₃ := (m₂.set .argument arg).next
  let m₄ : Machine := { m₃ with pc := address, regs := fun _ => none
                                callers := ⟨m₃.pc + 1, m₃.regs⟩ :: m₃.callers }
  let m₅ := (m₄.next.set (.virtual c) closure).next
  let m₆ := (m₅.set (.virtual p) arg).next
  have h₁ : Leads code m m₁ := by
    have hload : m.load? (.virtual a) 1 = some (address : Int) := load?_eq ha hobject haddress
    exact .of_exec hcode.head (by simp [exec, hload, m₁])
  have h₂ : Leads code m₁ m₂ := by
    have hget : m₁.get? (.virtual a) = some closure := by
      rw [get?_next, get?_set_of_ne m (by simpa using hak), ha]
    exact .movReg (by simpa [m₁] using hcode.tail) hget
  have h₃ : Leads code m₂ m₃ := by
    have hget : m₂.get? (.virtual b) = some arg := by
      rw [get?_next, get?_set_shared_virtual _ (by simp), get?_next,
        get?_set_of_ne m (by simpa using hbk), hb]
    exact .movReg (by simpa [m₁, m₂] using hcode.tail.tail) hget
  have h₄ : Leads code m₃ m₄ := by
    have hget : m₃.get? (.virtual k) = some (address : Int) := by
      rw [get?_next, get?_set_shared_virtual _ (by simp), get?_next,
        get?_set_shared_virtual _ (by simp), get?_next, get?_set_self]
    refine .of_exec (by simpa [m₁, m₂, m₃] using hcode.tail.tail.tail.head) ?_
    simp [exec, hget, call?, hroutine.head, not_lt.mpr (Int.natCast_nonneg address), m₄]
  have hshared {r : Reg} (hr : r.isVirtual = false) : m₄.get? r = m₃.get? r := by
    simp [get?, hr, m₄]
  have h₅ : Leads code m₄ m₅ := by
    have hget : m₄.next.get? .callee = some closure := by
      rw [get?_next, hshared (by simp), get?_next, get?_set_of_ne _ (by decide), get?_next,
        get?_set_self]
    exact .trans (.of_exec hroutine.head rfl) (.movReg hroutine.tail hget)
  have h₆ : Leads code m₅ m₆ := by
    have hget : m₅.get? .argument = some arg := by
      rw [get?_next, get?_set_virtual_shared _ (by simp), get?_next, hshared (by simp), get?_next,
        get?_set_self]
    exact .movReg (by simpa [m₅, m₄] using hroutine.tail.tail) hget
  refine ⟨m₆, (((h₁.trans h₂).trans h₃).trans h₄).trans (h₅.trans h₆), ?_, ?_, ?_, ?_, ?_, ?_, ?_⟩
  · simp [m₆, m₅, m₄]
  · simp [m₆, m₅, m₄, m₃, m₂, m₁]
  · rw [get?_next, get?_set_of_ne _ (by simpa using hcp), get?_next, get?_set_self]
  · rw [get?_next, get?_set_self]
  · intro x
    rw [get?_next, get?_set_virtual_shared _ (by simp), get?_next,
      get?_set_virtual_shared _ (by simp), get?_next, hshared (by simp), get?_next,
      get?_set_of_ne _ (Reg.argument_ne_global x).symm, get?_next,
      get?_set_of_ne _ (Reg.callee_ne_global x).symm, get?_next,
      get?_set_virtual_shared _ (by simp)]
  · have hregs : m₃.regs = m.regs.set (.virtual k) address := by
      rw [regs_next, regs_set_shared _ (by simp), regs_next, regs_set_shared _ (by simp),
        regs_next, regs_set_virtual]
    have hpc : m₃.pc = m.pc + 3 := by simp [m₃, m₂, m₁]
    have hcallers : m₃.callers = m.callers := by simp [m₃, m₂, m₁]
    simp [m₆, m₅, m₄, hregs, hpc, hcallers]
  · simp [m₆, m₅, m₄, m₃, m₂, m₁]

/-- The machine when a call is over. The result is in the register with number `d`. -/
structure Returned (code : Code) (m t : Machine) (l d : Nat) (result : Word) (back : Caller)
    (rest : List Caller) : Prop where
  leads : Leads code m t
  pc : t.pc = back.resume + 2
  heap : t.heap = m.heap
  result : t.get? (.virtual d) = some result
  regs : ∀ j : Nat, j ≠ l → j ≠ d → t.get? (.virtual j) = back.regs (.virtual j)
  globals : ∀ x, t.get? (.global x) = m.get? (.global x)
  callers : t.callers = rest
  output : t.output = m.output

/-- A routine returns to its caller. -/
theorem exists_returned {k l d : Nat} {result : Word} {back : Caller} {rest : List Caller}
    (hk : m.get? (.virtual k) = some result) (hcallers : m.callers = back :: rest)
    (hcode : code.Holds m.pc [.movReg .result (.virtual k), .ret])
    (hback : code.Holds back.resume
      [.movReg (.virtual l) .result, .movReg (.virtual d) (.virtual l)]) :
    ∃ t, Returned code m t l d result back rest := by
  let m₁ := (m.set .result result).next
  let m₂ : Machine := { m₁ with pc := back.resume, regs := back.regs, callers := rest }
  let m₃ := (m₂.set (.virtual l) result).next
  let m₄ := (m₃.set (.virtual d) result).next
  have h₁ : Leads code m m₁ := .movReg hcode hk
  have h₂ : Leads code m₁ m₂ :=
    .of_exec (by simpa [m₁] using hcode.tail.head) (by simp [exec, return?, m₁, hcallers, m₂])
  have hshared {r : Reg} (hr : r.isVirtual = false) : m₂.get? r = m₁.get? r := by
    simp [get?, hr, m₂]
  have h₃ : Leads code m₂ m₃ := by
    have hget : m₂.get? .result = some result := by
      rw [hshared (by simp), get?_next, get?_set_self]
    exact .movReg hback hget
  have h₄ : Leads code m₃ m₄ := by
    have hget : m₃.get? (.virtual l) = some result := by rw [get?_next, get?_set_self]
    exact .movReg (by simpa [m₃, m₂] using hback.tail) hget
  refine ⟨m₄, (h₁.trans h₂).trans (h₃.trans h₄), ?_, ?_, ?_, ?_, ?_, ?_, ?_⟩
  · simp [m₄, m₃, m₂]
  · simp [m₄, m₃, m₂, m₁]
  · rw [get?_next, get?_set_self]
  · intro j hl hd
    rw [get?_next, get?_set_of_ne _ (by simpa using hd), get?_next,
      get?_set_of_ne _ (by simpa using hl)]
    simp [get?, m₂]
  · intro x
    rw [get?_next, get?_set_virtual_shared _ (by simp), get?_next,
      get?_set_virtual_shared _ (by simp), hshared (by simp), get?_next,
      get?_set_of_ne _ (Reg.result_ne_global x).symm]
  · simp [m₄, m₃, m₂]
  · simp [m₄, m₃, m₂, m₁]

end Lowering.Machine

namespace Lowering

open Machine

variable {code : Code} {tags : Registry} {globals locals : Locals} {x : String} {e : Expr}
  {m : Machine}

/-- A captured local has its value in the closure. -/
theorem CapturesLocals.exists_value {captured : List String} {values : List Value} {y : String}
    (h : CapturesLocals x e locals captured values) (hy : y ∈ captured) :
    ∃ v, locals.lookup y = some v ∧ values[captured.idxOf y]? = some v := by
  have hindex : captured[captured.idxOf y]? = some y :=
    List.getElem?_eq_some_iff.mpr ⟨List.idxOf_lt_length_of_mem hy, List.getElem_idxOf _⟩
  have hvalue := congrArg (fun l => l[captured.idxOf y]?) h.values
  simp only [List.getElem?_map, hindex, Option.map_some] at hvalue
  obtain ⟨v, hv, hlookup⟩ := Option.map_eq_some_iff.mp hvalue.symm
  exact ⟨v, hlookup.symm, hv⟩

/-- When the body of a routine starts, its scope agrees with the locals that the evaluator
gives it. -/
theorem Agrees.routine {captured : List String} {values : List Value} {id address w aw : Word}
    {fields : List Word} {closure arg : Reg} {v : Value}
    (hcaptures : CapturesLocals x e locals captured values)
    (hobject : PointsTo m.heap w (id :: address :: fields))
    (hfields : RepresentsAll code tags m.heap values fields)
    (hclosure : m.get? closure = some w) (harg : m.get? arg = some aw)
    (hv : Represents code tags m.heap v aw)
    (hglobals : HasGlobals code tags globals m) :
    Agrees code tags globals ((x, v) :: locals) (routineScope closure x arg captured) e.free m where
  locals y hy hp := by
    have hlookup : (routineScope closure x arg captured).lookup? y = _ :=
      lookup?_routineScope hcaptures.nodup y
    by_cases hyx : y = x
    · subst hyx
      rw [if_neg hcaptures.notParam, if_pos rfl] at hlookup
      exact .inr ⟨v, aw, by simp, .register hlookup harg, hv⟩
    have hne : (y == x) = false := by simpa using hyx
    simp only [List.lookup_cons, hne]
    by_cases hcaptured : y ∈ captured
    · rw [if_pos hcaptured] at hlookup
      obtain ⟨u, hu, hvalue⟩ := hcaptures.exists_value hcaptured
      obtain ⟨hlength, heach⟩ := RepresentsAll.iff_get.mp hfields
      obtain ⟨hlt, -⟩ := List.getElem?_eq_some_iff.mp hvalue
      have hfield := List.getElem?_eq_getElem (hlength ▸ hlt)
      refine .inr ⟨u, _, hu, ?_, heach _ _ _ hvalue hfield⟩
      exact .enclosed hlookup (closure_routineScope _ _ _ _) hclosure hobject hfield
    · rw [if_neg hcaptured, if_neg hyx] at hlookup
      have hfree : y ∈ (Expr.lam x e).free := by simp [Expr.free, hy, hyx]
      exact .inl ⟨hlookup, hcaptures.others y hfree hp hcaptured⟩
  globals := hglobals

/-- A call yields what the body of the closure evaluates to. -/
theorem Simulates.call {fuel a b k l d lo hi : Nat} {w aw : Word} {v r : Value}
    {printed : List Printed} (h : Simulates code tags globals fuel)
    (hbody : e.eval globals fuel ((x, v) :: locals) = some (r, printed))
    (hclosure : Represents code tags m.heap (.closure x e locals) w)
    (ha : m.get? (.virtual a) = some w) (hb : m.get? (.virtual b) = some aw)
    (hv : Represents code tags m.heap v aw)
    (hglobals : HasGlobals code tags globals m)
    (hab : a ≤ lo ∧ b ≤ lo) (hk : lo < k ∧ k ≤ hi) (hl : lo < l ∧ l ≤ hi)
    (hcode : code.Holds m.pc
      (callCode (.virtual a) (.virtual b) (.virtual k) (.virtual l) (.virtual d))) :
    Yields code tags (callCode (.virtual a) (.virtual b) (.virtual k) (.virtual l) (.virtual d))
      lo hi d printed r m := by
  cases hclosure with
  | @closure _ _ _ _ t address captured values fields tag object routine captures length each =>
  obtain ⟨hroutine, body, placed⟩ := routine
  rename_i label s u f
  have hcaller : code.Holds m.pc ([.load (.virtual k) (.virtual a) 1, .movReg .callee (.virtual a),
      .movReg .argument (.virtual b), .icall (.virtual k)] ++
      [.movReg (.virtual l) .result, .movReg (.virtual d) (.virtual l)]) := hcode
  obtain ⟨m₁, hentered⟩ := exists_entered (c := s.next + 1) (p := s.next + 2) ha (by omega) hb
    (by omega) (by omega) object rfl hcaller.left hroutine.left.left
  have hready : Ready code tags globals ((x, v) :: locals) e.free
      ((s.skip 3).inScope (routineScope (s.reg 1) x (s.reg 2) captured)) u f m₁ := by
    refine ⟨?_, placed, ?_, ?_⟩
    · rw [hentered.pc]
      exact hroutine.left.right
    · exact .routine captures.nodup ⟨_, rfl, by simp⟩ ⟨_, rfl, by simp⟩
    · refine .routine captures (hentered.heap ▸ object) ?_ hentered.closure hentered.arg
        (hentered.heap ▸ hv) ?_
      · rw [hentered.heap]
        exact RepresentsAll.iff_get.mpr ⟨length, each⟩
      · exact hglobals.mono hentered.globals (hentered.heap ▸ List.prefix_refl _)
  obtain ⟨m₂, rw, hpass, hheap, hrw, hr⟩ := h hbody body (by simp) hready
  have hcallers := hpass.callers.trans hentered.callers
  have hret : code.Holds m₂.pc [.movReg .result (s.reg 3), .ret] := by
    refine hpass.holds ?_
    rw [hentered.pc]
    rw [routineCode, List.append_assoc] at hroutine
    exact hroutine.right
  obtain ⟨m₃, hreturned⟩ := exists_returned hrw hcallers hret hcaller.right
  refine ⟨m₃, rw, ⟨⟨?_, ?_, ?_, ?_, ?_⟩, ?_⟩, ?_, hreturned.result, ?_⟩
  · exact hentered.leads.trans (hpass.leads.trans hreturned.leads)
  · intro j hj hd
    have hjk : j ≠ k := by omega
    rw [hreturned.regs j (by omega) hd]
    simp [Registers.set, hjk, get?]
  · intro y
    rw [hreturned.globals, hpass.globals, hentered.globals]
  · exact hreturned.callers
  · rw [hreturned.output, hpass.output, hentered.output]
  · exact hreturned.pc
  · rw [hreturned.heap, ← hentered.heap]
    exact hheap
  · rw [hreturned.heap]
    exact hr

end Lowering
