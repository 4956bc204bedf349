import Lowering.Proofs.Scoping
import Lowering.Proofs.Sites

/-!
# The layout of closures

The code that builds a closure and the routine that reads it use the same slots. At the
place where a lambda is lowered its captured values are read from where their names live
in the enclosing scope, and are put into the slots from 2 on in the order of the names
(`ClosureBuilt`). In the routine every load from the closure is from one of these slots,
each slot is loaded, and a captured name that is not bound again is read from its own slot
(`ClosureRead`).
-/

namespace Lowering

/-- The instruction moves the value of a local name into `dst`. -/
inductive Reads (scope : Scope) (y : String) (dst : Reg) : Instr → Prop where
  | register {n : String} {r : Reg} (found : scope.lookup? y = some (.register n r)) :
      Reads scope y dst (.movReg dst r)
  | enclosed {n : String} {i : Int} {closure : Reg}
      (found : scope.lookup? y = some (.enclosed n i)) (running : scope.closure = some closure) :
      Reads scope y dst (.load dst closure (captureSlot i))

theorem Refers.reads {y : String} {dst : Reg} {s : LowerState} {c : Code} (h : Refers y dst s c)
    (hlocal : s.scope.lookup? y = none → y ∉ s.globals) :
    ∃ i, c = [i] ∧ Reads s.scope y dst i := by
  cases h with
  | register _ found => exact ⟨_, rfl, .register found⟩
  | enclosed _ found running => exact ⟨_, rfl, .enclosed found running⟩
  | global _ notLocal declared => exact absurd declared (hlocal notLocal)

theorem LowerState.getElem?_regs {s : LowerState} {n k : Nat} (h : k < n) :
    (s.regs n)[k]? = some (s.reg (k + 1)) := by
  simp [regs, h]

/-- The next registers differ from the two after them. -/
theorem LowerState.nodup_regs (s : LowerState) (n : Nat) :
    (s.reg (n + 1) :: s.reg (n + 2) :: s.regs n).Nodup := by
  have hregs : (s.regs n).Nodup := List.nodup_range.map fun i j h => by simpa using h
  refine List.nodup_cons.mpr ⟨?_, List.nodup_cons.mpr ⟨?_, hregs⟩⟩
  · simp [regs]
  · simp only [regs, List.mem_map, List.mem_range, reg_inj, not_exists, not_and]
    omega

/-- Captured values are read one after the other, each into its register. -/
theorem RefersAll.reads {ys : List String} {s : LowerState} {loads : Code}
    (h : RefersAll ys s loads) (hlocal : ∀ y ∈ ys, s.scope.lookup? y = none → y ∉ s.globals) :
    loads.length = ys.length ∧ ∀ k y, ys[k]? = some y →
      ∃ i, loads[k]? = some i ∧ Reads s.scope y (s.reg (k + 1)) i := by
  induction h with
  | nil => simp
  | @cons x rest s c cs head tail ih =>
      obtain ⟨hlength, hreads⟩ := ih fun y hy => hlocal y (by simp [hy])
      obtain ⟨i, rfl, hi⟩ := head.reads (hlocal x (by simp))
      refine ⟨by simp [hlength], ?_⟩
      intro k y hy
      cases k with
      | zero =>
          cases hy
          exact ⟨i, rfl, hi⟩
      | succ k =>
          obtain ⟨i', hi', hreads'⟩ := hreads k y hy
          refine ⟨i', hi', ?_⟩
          rwa [LowerState.reg_skip, Nat.add_comm 1] at hreads'

/-- The code in place loads the slot from the object in a register. -/
def Fragment.Loads (r : Reg) (slot : Int) (f : Fragment) : Prop :=
  ∃ dst, Instr.load dst r slot ∈ f.code

namespace Fragment

variable {r : Reg} {slot : Int} {f g : Fragment}

@[simp] theorem loads_append : (f ++ g).Loads r slot ↔ f.Loads r slot ∨ g.Loads r slot := by
  simp [Loads, exists_or]

@[simp] theorem loads_prepend : (f.prepend g).Loads r slot ↔ f.Loads r slot ∨ g.Loads r slot := by
  simp [Loads, exists_or, or_comm]

@[simp] theorem not_loads_empty : ¬ (∅ : Fragment).Loads r slot := by
  simp [Loads]

theorem loads_ofCode {code : Code} :
    (ofCode code).Loads r slot ↔ ∃ dst, Instr.load dst r slot ∈ code := Iff.rfl

end Fragment

theorem Refers.loads {y n : String} {dst : Reg} {s : LowerState} {code : Code} {i : Int}
    {closure : Reg} (h : Refers y dst s code) (hfound : s.scope.lookup? y = some (.enclosed n i))
    (hclosure : s.scope.closure = some closure) :
    .load dst closure (captureSlot i) ∈ code := by
  cases h with
  | register _ found => simp [found] at hfound
  | enclosed _ found running =>
      simp only [found, running, Option.some.injEq, Binding.enclosed.injEq] at hfound hclosure
      simp [hfound, hclosure]
  | global _ notLocal _ => simp [notLocal] at hfound

theorem RefersAll.loads {ys : List String} {s : LowerState} {code : Code}
    (h : RefersAll ys s code) {y n : String} {i : Int} {closure : Reg} (hy : y ∈ ys)
    (hfound : s.scope.lookup? y = some (.enclosed n i))
    (hclosure : s.scope.closure = some closure) :
    ∃ dst, .load dst closure (captureSlot i) ∈ code := by
  induction h with
  | nil => simp at hy
  | cons head _ ih =>
      rcases List.mem_cons.mp hy with rfl | hy
      · exact ⟨_, List.mem_append_left _ (head.loads hfound hclosure)⟩
      · obtain ⟨dst, hdst⟩ := ih hy hfound hclosure
        exact ⟨dst, List.mem_append_right _ hdst⟩

/-- A captured name that occurs free is loaded from the running closure. -/
theorem Lowers.loads_captured {mode : Dispatch} {ph : Phrase} {s t : LowerState}
    {regs : List Reg} {f : Fragment} (h : Lowers mode ph s regs f t) {y n : String} {i : Int}
    {closure : Reg} (hp : isPrimitive y = false) (hfree : y ∈ ph.free)
    (hfound : s.scope.lookup? y = some (.enclosed n i))
    (hclosure : s.scope.closure = some closure) : f.Loads closure (captureSlot i) := by
  induction h with
  | primitive isPrimitive =>
      rw [List.mem_singleton.mp hfree, isPrimitive] at hp
      cases hp
  | var refers =>
      rw [List.mem_singleton.mp hfree] at hfound
      exact ⟨_, refers.loads hfound hclosure⟩
  | ctor => simp [Expr.free] at hfree
  | num => simp [Expr.free] at hfree
  | char => simp [Expr.free] at hfree
  | caseOf he compares _ scrutinee branches =>
      rcases List.mem_append.mp hfree with hfree | hfree
      · simp [scrutinee hfree hfound hclosure]
      · have hscope := (he.grows.trans compares.grows).scope
        simp [branches hfree (hscope ▸ hfound) (hscope ▸ hclosure)]
  | letIn hv _ value body =>
      rcases List.mem_append.mp hfree with hfree | hfree
      · simp [value hfree hfound hclosure]
      · obtain ⟨hfree, hne⟩ := List.mem_filter.mp hfree
        have hloads := body hfree
          ((Scope.lookup?_bind_of_ne _ (by simpa using hne) _).trans hfound) hclosure
        simp [hloads]
  | lam hcaptured _ values _ _ =>
      have hmem := hcaptured ▸ LowerState.mem_captures.mpr
        ⟨hfree, hp, fun hnone => by simp [hfound] at hnone⟩
      obtain ⟨dst, hdst⟩ := values.loads hmem hfound hclosure
      exact ⟨dst, List.mem_append_left _ hdst⟩
  | construct callee _ args =>
      rw [Phrase.free, Expr.free_of_callee_ctor callee] at hfree
      simp [args hfree hfound hclosure]
  | print isPrimitive _ arg =>
      rcases List.mem_cons.mp hfree with rfl | hfree
      · rw [isPrimitive] at hp
        cases hp
      · simp [arg hfree hfound hclosure]
  | callVar ha refers arg =>
      rcases List.mem_cons.mp hfree with rfl | hfree
      · have hscope := ha.grows.scope
        have hload := refers.loads (hscope ▸ hfound) (hscope ▸ hclosure)
        simp [Fragment.loads_ofCode.mpr ⟨_, hload⟩]
      · simp [arg hfree hfound hclosure]
  | call _ hf _ func arg =>
      rcases List.mem_append.mp hfree with hfree | hfree
      · simp [func hfree hfound hclosure]
      · have hscope := hf.grows.scope
        simp [arg hfree (hscope ▸ hfound) (hscope ▸ hclosure)]
  | head notApp => simp [Expr.spine_of_not_app notApp] at hfree
  | arg hf _ func last =>
      simp only [Phrase.free, Expr.spine_app, List.flatMap_append, List.flatMap_singleton,
        List.mem_append] at hfree
      rcases hfree with hfree | hfree
      · simp [func hfree hfound hclosure]
      · have hscope := hf.grows.scope
        simp [last hfree (hscope ▸ hfound) (hscope ▸ hclosure)]
  | body _ ih => exact ih (by simpa using hfree) hfound hclosure
  | field _ ih =>
      obtain ⟨hfree, hne⟩ := List.mem_filter.mp hfree
      simp only [List.mem_cons, not_or, decide_eq_true_eq] at hne
      have hloads := ih (List.mem_filter.mpr ⟨hfree, by simpa using hne.2⟩)
        ((Scope.lookup?_bind_of_ne _ hne.1 _).trans hfound) hclosure
      simp [hloads]
  | noBranch => simp [freeInBranches] at hfree
  | branch hf _ first rest =>
      rcases List.mem_append.mp hfree with hfree | hfree
      · simp [first hfree hfound hclosure]
      · have hscope := hf.grows.scope
        simp [rest hfree (hscope ▸ hfound) (hscope ▸ hclosure)]

/-- The slot belongs to a name that is in the running closure. -/
def Scope.HasSlot (c : Scope) (slot : Int) : Prop :=
  ∃ y n i, c.lookup? y = some (.enclosed n i) ∧ slot = captureSlot i

theorem Scope.hasSlot_of_bind {c : Scope} {x : String} {r : Reg} {slot : Int}
    (h : (c.bind x (.register x r)).HasSlot slot) : c.HasSlot slot := by
  obtain ⟨y, n, i, hfound, hslot⟩ := h
  by_cases hy : y = x
  · subst hy
    simp at hfound
  · exact ⟨y, n, i, (c.lookup?_bind_of_ne hy _).symm.trans hfound, hslot⟩

/-- The registers that a phrase is given. -/
@[simp] def Phrase.given : Phrase → List Reg
  | .expr _ dst => [dst]
  | .args _ => []
  | .fields value _ _ _ dst => [value, dst]
  | .branches _ value _ _ dst => [value, dst]

theorem Refers.hasSlot {y : String} {dst r : Reg} {s : LowerState} {code : Code} {slot : Int}
    (h : Refers y dst s code) (hload : ∃ d, .load d r slot ∈ code) : s.scope.HasSlot slot := by
  obtain ⟨d, hload⟩ := hload
  cases h with
  | register _ _ => simp at hload
  | enclosed _ found _ =>
      simp only [List.mem_singleton, Instr.load.injEq] at hload
      exact ⟨_, _, _, found, hload.2.2⟩
  | global _ _ _ => simp at hload

theorem RefersAll.hasSlot {ys : List String} {s : LowerState} {code : Code} {r : Reg} {slot : Int}
    (h : RefersAll ys s code) (hload : ∃ d, .load d r slot ∈ code) : s.scope.HasSlot slot := by
  induction h with
  | nil => simp at hload
  | cons head _ ih =>
      simp only [List.mem_append, exists_or] at hload
      rcases hload with hload | hload
      · exact head.hasSlot hload
      · exact ih hload

section

variable {r : Reg} {slot : Int}

theorem eq_of_loads_printCode {x : String} {tmp dst : Reg}
    (h : (Fragment.ofCode (printCode x tmp dst)).Loads r slot) : r = dst := by
  obtain ⟨d, h⟩ := h
  by_cases hx : x = printCharName <;> simp [printCode, hx] at h <;> exact h.2.1

theorem eq_of_loads_callCode {func arg address res dst : Reg}
    (h : (Fragment.ofCode (callCode func arg address res dst)).Loads r slot) : r = func := by
  obtain ⟨d, h⟩ := h
  simp [callCode] at h
  exact h.2.1

theorem not_mem_storeAll (obj : Reg) (k : Nat) (regs : List Reg) (d : Reg) :
    .load d r slot ∉ storeAll obj k regs := by
  induction regs generalizing k with
  | nil => simp [storeAll]
  | cons q rest ih => simpa [storeAll] using ih (k + 1)

theorem not_loads_constructCode (t : Tag) (args : List Reg) (obj tmp dst : Reg) :
    ¬ (Fragment.ofCode (constructCode t args obj tmp dst)).Loads r slot := by
  simp [Fragment.loads_ofCode, constructCode, storeInt, not_mem_storeAll]

theorem not_mem_closureCode (t : Tag) (label : Label) (captured : List Reg) (obj tmp dst d : Reg) :
    .load d r slot ∉ closureCode t label captured obj tmp dst := by
  simp [closureCode, storeInt, not_mem_storeAll]

theorem Compares.not_mem {mode : Dispatch} {id : Nat} {tagReg wanted : Reg} {index : Nat}
    {bs : List Branch} {s t : LowerState} {code : Code}
    (h : Compares mode id tagReg wanted index bs s code t) (d : Reg) : .load d r slot ∉ code := by
  induction h with
  | nil => simp
  | cons _ ih => simpa using ih

end

/-- From a register that was handed out before and that the phrase is not given, there are
only loads of captured values. -/
theorem Lowers.hasSlot_of_loads {mode : Dispatch} {ph : Phrase} {s t : LowerState}
    {regs : List Reg} {f : Fragment} (h : Lowers mode ph s regs f t) {r : Reg} {slot : Int}
    (hr : s.Has r) (hgiven : r ∉ ph.given) (hload : f.Loads r slot) : s.scope.HasSlot slot := by
  induction h with
  | primitive isPrimitive => exact absurd (eq_of_loads_printCode hload) (by simpa using hgiven)
  | var refers => exact refers.hasSlot hload
  | ctor => simp [Fragment.loads_ofCode, ctorCode, storeInt] at hload
  | num => simp [Fragment.loads_ofCode, boxedCode, storeInt] at hload
  | char => simp [Fragment.loads_ofCode, boxedCode, storeInt] at hload
  | caseOf he compares _ scrutinee branches =>
      have hvalue := hr.ne_reg (Nat.zero_lt_one)
      have hgrows := he.grows.trans compares.grows
      simp only [Fragment.loads_append] at hload
      rcases hload with ((hload | hload) | hload) | hload
      · exact scrutinee (hr.mono (Nat.le_add_right _ 3)) (by simpa using hvalue) hload
      · simp [Fragment.loads_ofCode, compares.not_mem] at hload
        exact absurd hload.1 hvalue
      · have hslot := branches (hr.mono ((Nat.le_add_right _ 3).trans hgrows.next))
          (by simpa [hvalue] using hgiven) hload
        exact hgrows.scope ▸ hslot
      · simp [Fragment.loads_ofCode] at hload
  | letIn hv _ value body =>
      rcases Fragment.loads_append.mp hload with hload | hload
      · exact value (hr.mono (Nat.le_succ _)) (by simpa using hr.ne_reg Nat.zero_lt_one) hload
      · have hnext := hv.grows.next
        exact Scope.hasSlot_of_bind
          (body (hr.mono ((Nat.le_succ _).trans hnext)) hgiven hload)
  | lam _ _ values _ _ =>
      simp only [Fragment.Loads, List.mem_append, not_mem_closureCode, or_false] at hload
      exact values.hasSlot hload
  | construct _ _ args =>
      rcases Fragment.loads_append.mp hload with hload | hload
      · exact args hr (by simp) hload
      · exact absurd hload (not_loads_constructCode _ _ _ _ _)
  | print _ _ arg =>
      rcases Fragment.loads_append.mp hload with hload | hload
      · exact arg hr hgiven hload
      · exact absurd (eq_of_loads_printCode hload) (by simpa using hgiven)
  | callVar ha refers arg =>
      simp only [Fragment.loads_append] at hload
      rcases hload with (hload | hload) | hload
      · exact arg (hr.mono (Nat.le_add_right _ 2)) (by simpa using hr.ne_reg Nat.zero_lt_two) hload
      · exact ha.grows.scope ▸ refers.hasSlot hload
      · exact absurd (eq_of_loads_callCode hload) (hr.ne_reg Nat.zero_lt_one)
  | call _ hf _ func arg =>
      simp only [Fragment.loads_append] at hload
      rcases hload with (hload | hload) | hload
      · exact func (hr.mono (Nat.le_add_right _ 2)) (by simpa using hr.ne_reg Nat.zero_lt_one) hload
      · have hslot := arg (hr.mono ((Nat.le_add_right _ 2).trans hf.grows.next))
          (by simpa using hr.ne_reg Nat.zero_lt_two) hload
        exact hf.grows.scope ▸ hslot
      · exact absurd (eq_of_loads_callCode hload) (hr.ne_reg Nat.zero_lt_one)
  | head _ => simp at hload
  | arg hf _ func last =>
      rcases Fragment.loads_prepend.mp hload with hload | hload
      · exact func hr (by simp) hload
      · have hr₁ := hr.mono hf.grows.next
        have hslot := last (hr₁.mono (Nat.le_succ _)) (by simpa using hr₁.ne_reg Nat.zero_lt_one)
          hload
        exact hf.grows.scope ▸ hslot
  | body _ ih => exact ih hr (fun hmem => hgiven (List.mem_cons_of_mem _ hmem)) hload
  | field _ ih =>
      rcases Fragment.loads_append.mp hload with hload | hload
      · simp [Fragment.loads_ofCode] at hload
        simp [hload] at hgiven
      · exact Scope.hasSlot_of_bind (ih (hr.mono (Nat.le_succ _)) hgiven hload)
  | noBranch => simp at hload
  | branch hf _ first rest =>
      simp only [Fragment.loads_append] at hload
      rcases hload with ((hload | hload) | hload) | hload
      · simp [Fragment.loads_ofCode] at hload
      · exact first hr hgiven hload
      · simp [Fragment.loads_ofCode] at hload
      · exact hf.grows.scope ▸ rest (hr.mono hf.grows.next) hgiven hload

namespace Scope

theorem lookup?_bindAll_of_not_mem {c : Scope} {locals : List (String × Reg)} {y : String}
    (h : y ∉ locals.map Prod.fst) : (c.bindAll locals).lookup? y = c.lookup? y := by
  induction locals with
  | nil => rfl
  | cons p rest ih =>
      simp only [List.map_cons, List.mem_cons, not_or] at h
      exact (lookup?_bind_of_ne _ h.1 _).trans (ih h.2)

@[simp] theorem closure_bindAll (c : Scope) (locals : List (String × Reg)) :
    (c.bindAll locals).closure = c.closure := by
  induction locals with
  | nil => rfl
  | cons p rest ih => exact ih

end Scope

/-- The job refers to a variable itself, and moves its value into the register. -/
inductive Job.RefersTo : Job → String → Reg → Prop where
  | var {x : String} {dst : Reg} {s t : LowerState} {f : Fragment}
      (notPrimitive : isPrimitive x = false) : RefersTo ⟨.expr (.var x) dst, s, [], f, t⟩ x dst
  | callee {x : String} {a : Expr} {dst : Reg} {s t : LowerState} {f : Fragment}
      (notPrimitive : isPrimitive x = false) :
      RefersTo ⟨.expr (.app (.var x) a) dst, s, [], f, t⟩ x (s.reg 1)

/-- A reference to a name that is in the running closure loads its slot. -/
theorem Job.RefersTo.load_mem {mode : Dispatch} {j : Job} {y n : String} {r closure : Reg}
    {i : Int} (h : j.RefersTo y r) (hj : j.Lowered mode)
    (hfound : j.start.scope.lookup? y = some (.enclosed n i))
    (hclosure : j.start.scope.closure = some closure) :
    .load r closure (captureSlot i) ∈ j.out.code := by
  cases h with
  | var notPrimitive =>
      simp only [Job.Lowered] at hj
      cases hj with
      | primitive isPrimitive => simp [notPrimitive] at isPrimitive
      | var refers => exact refers.loads hfound hclosure
  | callee notPrimitive =>
      simp only [Job.Lowered] at hj
      cases hj with
      | construct callee _ => simp [Expr.callee, Expr.spine, Expr.spineOnto, notPrimitive] at callee
      | print isPrimitive _ => simp [notPrimitive] at isPrimitive
      | callVar arg refers =>
          have hscope := arg.grows.scope
          have hload := refers.loads (hscope ▸ hfound) (hscope ▸ hclosure)
          simp [hload]
      | call callee _ _ => simp [Expr.callee, Expr.spine, Expr.spineOnto, notPrimitive] at callee

/-- The closure of the routine with this label is built in the block `outer`, for a lambda that
stands in `scope`. The address of the label is taken at this place only, and no other
instruction makes or fills the object. The captured values are read from where their names
live in `scope`, and are put into the slots from 2 on. -/
structure ClosureBuilt (code : Code) (outer : Block) (scope : Scope) (label : Label)
    (captured : List String) : Prop where
  taken : code.taken.count label = 1
  built : ∃ (tag : Tag) (obj tmp dst : Reg) (values : List Reg) (loads : Code),
    loads ++ closureCode tag label values obj tmp dst <:+: outer.code ∧
    (obj :: tmp :: values).Nodup ∧ values.length = captured.length ∧
    loads.length = captured.length ∧
    code.onObject obj = .alloc obj (captureOffset + captured.length : Nat) ::
      .store obj 0 tmp :: .store obj 1 tmp :: storeAll obj captureOffset values ∧
    ∀ (k : Nat) y, captured[k]? = some y → ∃ r i,
      values[k]? = some r ∧ loads[k]? = some i ∧ Reads scope y r i

/-- The routine `inner`, which has its closure in a register, reads the captured values from
the slots from 2 on. -/
structure ClosureRead (mode : Dispatch) (p : Program) (fs : List Fragment) (inner : Block)
    (closure : Reg) (captured : List String) : Prop where
  inRange : ∀ dst (slot : Int), .load dst closure slot ∈ inner.code →
    captureOffset ≤ slot ∧ slot < captureOffset + captured.length
  loaded : ∀ k < captured.length, ∃ dst, .load dst closure (captureSlot k) ∈ inner.code
  references : ∀ locals j y r (k : Nat), Reaches mode p fs inner locals j → j.RefersTo y r →
    captured[k]? = some y → y ∉ locals.map Prod.fst →
      .load r closure (captureSlot k) ∈ j.out.code

/-- The routine with number `n` belongs to the lambda `fun x => e`, which stands in the block
`outer` below binders of `locals`. It captures the free names of the lambda that are local
there, so no primitive and no global that is not hidden. -/
structure LambdaLayout (mode : Dispatch) (p : Program) (fs : List Fragment) (n : Nat)
    (x : String) (e : Expr) (outer : Block) (locals : List (String × Reg)) (inner : Block)
    (closure : Reg) (captured : List String) : Prop where
  reached : ∃ dst s out done,
    Reaches mode p fs outer locals ⟨.expr (.lam x e) dst, s, [], out, done⟩ ∧
    s.routines = n ∧ s.scope = outer.scope.bindAll locals ∧ captured = captures s.env x e
  routine : ∃ arg res body, inner = ⟨routineScope closure x arg captured,
    routineCode (.routine n) closure arg res body⟩
  placed : outer.code <:+: Program.assemble p fs ∧ inner.code <:+: Program.assemble p fs
  nodup : captured.Nodup
  mem_captured_iff : ∀ y, y ∈ captured ↔ y ∈ (Expr.lam x e).free ∧ isPrimitive y = false ∧
    (outer.scope.bindAll locals).lookup? y ≠ none
  built : ClosureBuilt (Program.assemble p fs) outer (outer.scope.bindAll locals) (.routine n)
    captured
  read : ClosureRead mode p fs inner closure captured

theorem onObject_storeAll (obj : Reg) (slot : Nat) (regs : List Reg) :
    Code.onObject obj (storeAll obj slot regs) = storeAll obj slot regs := by
  induction regs generalizing slot with
  | nil => rfl
  | cons r rest ih => simp [storeAll, ih]

theorem onObject_closureCode (t : Tag) (label : Label) (values : List Reg) (obj tmp dst : Reg) :
    (closureCode t label values obj tmp dst).onObject obj =
      .alloc obj (captureOffset + values.length : Nat) :: .store obj 0 tmp :: .store obj 1 tmp ::
        storeAll obj captureOffset values := by
  simp [closureCode, storeInt, onObject_storeAll]

/-- Nothing else in the code makes or fills the object of a closure. -/
theorem Reaches.onObject_closure {mode : Dispatch} {p : Program} {fs : List Fragment}
    {outer : Block} {locals : List (String × Reg)} {j : Job}
    (h : Reaches mode p fs outer locals j) {t : Tag} {label : Label} {values : List Reg}
    {obj tmp dst : Reg} (hobj : obj.Between j.start.next j.done.next)
    (hclosure : closureCode t label values obj tmp dst <:+: j.out.code)
    (honly : (j.out.allCode.onObject obj).Perm
      ((closureCode t label values obj tmp dst).onObject obj)) :
    (Program.assemble p fs).onObject obj =
      (closureCode t label values obj tmp dst).onObject obj := by
  have hsub : ((closureCode t label values obj tmp dst).onObject obj).Sublist
      ((Program.assemble p fs).onObject obj) :=
    ((hclosure.trans h.code_within).trans h.block_within).sublist.filter _
  exact (hsub.eq_of_length ((h.onObject_perm hobj).trans honly).length_eq.symm).symm

section

variable {mode : Dispatch} {p : Program} {fs : List Fragment} {outer : Block}
  {locals : List (String × Reg)} {x : String} {e : Expr} {dst : Reg} {s s₁ s₂ : LowerState}
  {fe : Fragment} {captured : List String} {loads : Code}

/-- Captured names are local where the lambda stands: an unknown name would not be found
when the closure is built. -/
theorem LowerState.mem_captures_iff_of_knows (hcaptured : captured = captures s.env x e)
    (hknown : ∀ y ∈ captured, s.Knows y) {y : String} :
    y ∈ captured ↔
      y ∈ (Expr.lam x e).free ∧ isPrimitive y = false ∧ s.scope.lookup? y ≠ none := by
  have hmem := LowerState.mem_captures (s := s) (x := x) (e := e) (y := y)
  rw [hcaptured] at hknown ⊢
  rw [hmem]
  refine and_congr_right fun hfree => and_congr_right fun hp => ⟨?_, ?_⟩
  · intro hglobal hnone
    have hknows := hknown y (hmem.mpr ⟨hfree, hp, hglobal⟩)
    simp [LowerState.Knows, hp, hnone] at hknows
    exact hglobal hnone hknows
  · intro hlocal hnone
    exact absurd hnone hlocal

theorem ClosureRead.of_lowers (hcaptured : captured = captures s.env x e)
    (body : Lowers mode (.expr e (s.reg 3))
      ((s.enterRoutine.skip 3).inScope (routineScope (s.reg 1) x (s.reg 2) captured)) [] fe s₁) :
    ClosureRead mode p fs
      ⟨routineScope (s.reg 1) x (s.reg 2) captured,
        routineCode (.routine s.routines) (s.reg 1) (s.reg 2) (s.reg 3) fe.code⟩
      (s.reg 1) captured := by
  have hnodup : captured.Nodup := hcaptured ▸ nodup_captures _ _ _
  have hfound {k : Nat} {y : String} (hy : captured[k]? = some y) :
      (routineScope (s.reg 1) x (s.reg 2) captured).lookup? y = some (.enclosed y k) := by
    obtain ⟨hk, rfl⟩ := List.getElem?_eq_some_iff.mp hy
    rw [lookup?_routineScope hnodup, if_pos (List.getElem_mem hk), hnodup.idxOf_getElem k hk]
  constructor
  · intro d slot hload
    have hloads : fe.Loads (s.reg 1) slot := ⟨d, by simpa [routineCode] using hload⟩
    have hgiven : s.reg 1 ∉ (Phrase.expr e (s.reg 3)).given := by simp
    obtain ⟨y, n, i, hslot, rfl⟩ := body.hasSlot_of_loads ⟨_, rfl, by simp⟩ hgiven hloads
    rw [LowerState.scope_inScope, lookup?_routineScope hnodup] at hslot
    split_ifs at hslot with hy hparam
    · have hindex := List.idxOf_lt_length_of_mem hy
      cases hslot
      simp only [captureSlot]
      omega
    · cases hslot
  · intro k hk
    have hy : captured[k]? = some captured[k] := List.getElem?_eq_getElem hk
    have hmem : captured[k] ∈ captures s.env x e := hcaptured ▸ List.getElem_mem hk
    obtain ⟨hfree, hp, -⟩ := mem_captures.mp hmem
    obtain ⟨d, hd⟩ := body.loads_captured hp (List.mem_of_mem_filter hfree) (hfound hy)
      (closure_routineScope _ _ _ _)
    exact ⟨d, by simp [routineCode, hd]⟩
  · intro locals j y r k hreach hrefers hy hnot
    refine hrefers.load_mem hreach.lowered (n := y) ?_ ?_
    · rw [hreach.scope_eq, Scope.lookup?_bindAll_of_not_mem hnot]
      exact hfound hy
    · rw [hreach.scope_eq, Scope.closure_bindAll]
      exact closure_routineScope _ _ _ _

theorem ClosureBuilt.of_reaches (hcaptured : captured = captures s.env x e)
    (body : Lowers mode (.expr e (s.reg 3))
      ((s.enterRoutine.skip 3).inScope (routineScope (s.reg 1) x (s.reg 2) captured)) [] fe s₁)
    (values : RefersAll captured (s₁.inScope s.scope) loads)
    (hs₂ : s₂ = (s₁.inScope s.scope).skip captured.length)
    (lambda : Reaches mode p fs outer locals ⟨.expr (.lam x e) dst, s, [],
      ⟨loads ++ closureCode (s₂.tagOf "Closure" 1) (.routine s.routines)
          ((s₁.inScope s.scope).regs captured.length) (s₂.reg 1) (s₂.reg 2) dst,
        fe.routines ++ [⟨.routine s.routines,
          routineCode (.routine s.routines) (s.reg 1) (s.reg 2) (s.reg 3) fe.code, captured⟩]⟩,
      (s₂.withTag "Closure" 1).skip 2⟩)
    (htaken : (Program.assemble p fs).taken.count (.routine s.routines) = 1) :
    ClosureBuilt (Program.assemble p fs) outer s.scope (.routine s.routines) captured := by
  have hglobals := body.grows.globals
  have hlocal : ∀ y ∈ captured, (s₁.inScope s.scope).scope.lookup? y = none →
      y ∉ (s₁.inScope s.scope).globals := by
    intro y hy hnone
    have hmem : y ∈ captures s.env x e := hcaptured ▸ hy
    rw [LowerState.globals_inScope, hglobals]
    exact (LowerState.mem_captures.mp hmem).2.2 hnone
  obtain ⟨hlength, hreads⟩ := values.reads hlocal
  have hs₁ : s₂.next = s₁.next + captured.length := by simp [hs₂]
  have hnext := body.grows.next
  simp only [LowerState.next_inScope, LowerState.next_skip, LowerState.next_enterRoutine] at hnext
  have hobj : (s₂.reg 1).Between s₂.next (s₂.next + 2) :=
    LowerState.between_reg (by omega) (by omega)
  have honObject := lambda.onObject_closure (hobj.mono (by simp only; omega) (Nat.le_refl _))
    (List.suffix_append _ _).isInfix ?_
  · refine ⟨htaken, _, _, _, _, _, _, lambda.code_within, ?_, by simp, hlength, ?_, ?_⟩
    · rw [hs₂, LowerState.reg_skip, LowerState.reg_skip]
      exact LowerState.nodup_regs _ _
    · rw [honObject, onObject_closureCode, LowerState.length_regs]
    · intro k y hy
      have hk := (List.getElem?_eq_some_iff.mp hy).1
      obtain ⟨i, hi, hread⟩ := hreads k y hy
      exact ⟨_, i, LowerState.getElem?_regs hk, hi, hread⟩
  · refine (Fragment.onObject_lambda_perm _ _ _ _ _ _ _ _).trans ?_
    have hbody := Code.ObjectsIn.onObject_eq_nil body.objectsIn hobj (.inl (by omega))
    have hplain : loads.ObjectsIn 0 0 := values.objectsIn
    have hloads := hplain.onObject_eq_nil hobj (.inl (Nat.zero_le _))
    rw [hbody, Code.onObject_append, hloads, List.append_nil, List.nil_append]

end

namespace Compiler

/-- The address of a routine is taken at one place. -/
theorem count_taken_routine {mode : Dispatch} {p : Program} {code : Code}
    (h : ((new mode).compile p).1 = .ok code) {n : Nat} (hn : n < p.lambdas.length) :
    code.taken.count (.routine n) = 1 := by
  have hperm := (uses_perm h).filterMap LabelUse.taken?
  rw [Program.filterMap_taken?_uses] at hperm
  have hnodup : ((List.range p.lambdas.length).map Label.routine).Nodup :=
    List.nodup_range.map fun _ _ => Label.routine_injective
  exact (hperm.count_eq _).trans (List.count_eq_one_of_mem hnodup
    (List.mem_map_of_mem (List.mem_range.mpr hn)))

/-- For every lambda of an accepted program, the code that builds its closure and the routine
that reads it agree on the captured names and their slots. -/
theorem lambdas_laid_out {mode : Dispatch} {p : Program} {code : Code}
    (h : ((new mode).compile p).1 = .ok code) :
    ∃ fs, LowersDefs mode p (.declared (p.map Def.name)) fs ((new mode).compile p).2.state ∧
      code = Program.assemble p fs ∧
      ∀ n x e, p.lambdas[n]? = some (x, e) → ∃ outer locals inner closure captured,
        LambdaLayout mode p fs n x e outer locals inner closure captured := by
  obtain ⟨-, fs, hfs, rfl⟩ := compile_eq_ok h
  refine ⟨fs, hfs, rfl, ?_⟩
  intro n x e hn
  obtain ⟨outer, locals, dst, s, out, done, hreach, hnumber⟩ :=
    LowersDefs.lambdasReached [] [] (List.nil_append p).symm (List.nil_append fs).symm (.nil _)
      hfs n x e hn
  have hrange := (List.getElem?_eq_some_iff.mp hn).1
  rw [LowerState.routines_declared, Nat.zero_add] at hnumber
  have hlowered := hreach.lowered
  simp only [Job.Lowered] at hlowered
  cases hlowered with
  | @lam _ _ _ _ s₁ s₂ fe captured loads hcaptured body values hs₂ =>
      have hknown : ∀ y ∈ captured, s.Knows y := fun y hy =>
        (LowerState.knows_inScope_iff (s := s) body.grows.globals).mp (values.knows y hy)
      have hroutine := Reaches.routine hcaptured body values hs₂ hreach
      have htaken := count_taken_routine h hrange
      rw [← hnumber] at htaken ⊢
      refine ⟨outer, locals, ⟨routineScope (s.reg 1) x (s.reg 2) captured,
        routineCode (.routine s.routines) (s.reg 1) (s.reg 2) (s.reg 3) fe.code⟩, s.reg 1,
        captured, ?_⟩
      exact {
        reached := ⟨dst, s, _, _, hreach, rfl, hreach.scope_eq, hcaptured⟩
        routine := ⟨_, _, _, rfl⟩
        placed := ⟨hreach.block_within, hroutine.block_within⟩
        nodup := hcaptured ▸ nodup_captures _ _ _
        mem_captured_iff := fun y => by
          rw [← hreach.scope_eq]
          exact LowerState.mem_captures_iff_of_knows hcaptured hknown
        built := by
          rw [← hreach.scope_eq]
          exact .of_reaches hcaptured body values hs₂ hreach htaken
        read := .of_lowers hcaptured body }

/-- A closure that is built from the closure of the routine around it. The parameter of the
outer lambda hides a global. -/
def nestedClosures : Program :=
  [⟨"x", .lam "x" (.letIn "z" (.num 1) (.lam "y" (.app (.var "x") (.app (.var "y") (.var "z")))))⟩]

theorem lambdas_laid_out_nestedClosures :
    ∃ code, ((new .tag).compile nestedClosures).1 = .ok code ∧
      ∃ fs, LowersDefs .tag nestedClosures (.declared (nestedClosures.map Def.name)) fs
          ((new .tag).compile nestedClosures).2.state ∧
        code = Program.assemble nestedClosures fs ∧
        ∀ n x e, nestedClosures.lambdas[n]? = some (x, e) →
          ∃ outer locals inner closure captured,
            LambdaLayout .tag nestedClosures fs n x e outer locals inner closure captured := by
  obtain ⟨code, h⟩ := exists_code .tag nestedClosures (by decide +kernel)
  exact ⟨code, h, lambdas_laid_out h⟩

end Compiler

end Lowering
