import Lowering.Proofs.Blocks

/-!
# Registers that instructions read and write

The registers of definitions are shared by all code. Lowered code reads them where a variable
is the name of a definition, and it does not write them (`Lowers.keepsGlobals`): each of them
is written at one place, the end of its definition (`Compiler.countP_setsGlobal`).
-/

namespace Lowering

namespace Instr

/-- The registers that an instruction reads. -/
@[simp] def reads : Instr → List Reg
  | .movReg _ src => [src]
  | .load _ src _ => [src]
  | .store dst _ src => [dst, src]
  | .print src => [src]
  | .printChar src => [src]
  | .jumpEq left right _ => [left, right]
  | .icall src => [src]
  | _ => []

/-- The register that an instruction writes. -/
@[simp] def writes? : Instr → Option Reg
  | .movReg dst _ => some dst
  | .movInt dst _ => some dst
  | .movLabel dst _ => some dst
  | .alloc dst _ => some dst
  | .load dst _ _ => some dst
  | _ => none

/-- Whether the instruction writes the register of the definition `x`. -/
def setsGlobal (x : String) (i : Instr) : Bool := i.writes? = some (.global x)

end Instr

/-- The registers of the local variables and of the running closure are in `K`. -/
structure Scope.HeldIn (scope : Scope) (K : Set Reg) : Prop where
  locals : ∀ x n r, scope.lookup? x = some (.register n r) → r ∈ K
  closure : ∀ r, scope.closure = some r → r ∈ K

namespace Scope.HeldIn

variable {scope : Scope} {K K' : Set Reg}

theorem empty (K : Set Reg) : HeldIn {} K := by
  constructor
  · intro x n r hr
    cases hr
  · intro r hr
    cases hr

theorem mono (h : scope.HeldIn K) (hK : K ⊆ K') : scope.HeldIn K' :=
  ⟨fun x n r hr => hK (h.locals x n r hr), fun r hr => hK (h.closure r hr)⟩

theorem bind (h : scope.HeldIn K) {r : Reg} (hr : r ∈ K) (x : String) :
    (scope.bind x (.register x r)).HeldIn K := by
  refine ⟨?_, h.closure⟩
  intro y n q hq
  by_cases hy : y = x
  · subst hy
    rw [Scope.lookup?_bind_self] at hq
    cases hq
    exact hr
  · rw [Scope.lookup?_bind_of_ne _ hy] at hq
    exact h.locals y n q hq

theorem routineScope {captured : List String} (hcaptured : captured.Nodup) {closure arg : Reg}
    (hclosure : closure ∈ K) (harg : arg ∈ K) (x : String) :
    (routineScope closure x arg captured).HeldIn K := by
  constructor
  · intro y n r hr
    rw [lookup?_routineScope hcaptured] at hr
    split at hr
    · cases hr
    · split at hr
      · cases hr
        exact harg
      · cases hr
  · intro r hr
    rw [closure_routineScope] at hr
    cases hr
    exact hclosure

end Scope.HeldIn

/-- The instruction reads registers of `R` and writes registers of `W` only. -/
def Instr.Accesses (R W : Set Reg) (i : Instr) : Prop :=
  (∀ r ∈ i.reads, r ∈ R) ∧ ∀ r ∈ i.writes?, r ∈ W

abbrev Code.Accesses (R W : Set Reg) (code : Code) : Prop := code.Each (Instr.Accesses R W)

abbrev Fragment.Accesses (R W : Set Reg) (f : Fragment) : Prop := f.Each (Instr.Accesses R W)

/-- The registers by which a routine is called. -/
def Reg.linkage : Set Reg := {.callee, .argument, .result}

theorem Reg.linkage_subset_iff {K : Set Reg} :
    Reg.linkage ⊆ K ↔ .callee ∈ K ∧ .argument ∈ K ∧ .result ∈ K := by
  simp [linkage, Set.insert_subset_iff]

namespace Code

variable {R W : Set Reg} {obj tmp dst : Reg}

theorem accesses_building {fields : List Reg} (hobj : obj ∈ R ∩ W) (htmp : tmp ∈ R ∩ W)
    (hdst : dst ∈ W) (hfields : ∀ r ∈ fields, r ∈ R) :
    Building (Instr.Accesses R W) obj tmp dst fields where
  alloc n := by simp [Instr.Accesses, hobj.2]
  word n := by simp [Instr.Accesses, htmp.2]
  address l := by simp [Instr.Accesses, htmp.2]
  store n := by simp [Instr.Accesses, hobj.1, htmp.1]
  field n r hr := by simp [Instr.Accesses, hobj.1, hfields r hr]
  move := by simp [Instr.Accesses, hobj.1, hdst]

theorem accesses_printCode (x : String) (htmp : tmp ∈ R ∩ W) (hdst : dst ∈ R) :
    Accesses R W (printCode x tmp dst) := by
  apply each_printCode <;> simp [Instr.Accesses, htmp.1, htmp.2, hdst]

theorem accesses_callCode {func arg address res : Reg} (hfunc : func ∈ R) (harg : arg ∈ R)
    (haddress : address ∈ R ∩ W) (hres : res ∈ R ∩ W) (hdst : dst ∈ W) (hR : Reg.linkage ⊆ R)
    (hW : Reg.linkage ⊆ W) : Accesses R W (callCode func arg address res dst) := by
  obtain ⟨-, -, hresult⟩ := Reg.linkage_subset_iff.mp hR
  obtain ⟨hcallee, hargument, -⟩ := Reg.linkage_subset_iff.mp hW
  simp [each_callCode, Instr.Accesses, hfunc, harg, haddress.1, haddress.2, hres.1, hres.2, hdst,
    hresult, hcallee, hargument]

theorem accesses_routineCode {label : Label} {closure arg res : Reg} {body : Code}
    (hclosure : closure ∈ W) (harg : arg ∈ W) (hres : res ∈ R) (hR : Reg.linkage ⊆ R)
    (hW : Reg.linkage ⊆ W) (hbody : Accesses R W body) :
    Accesses R W (routineCode label closure arg res body) := by
  obtain ⟨hcallee, hargument, -⟩ := Reg.linkage_subset_iff.mp hR
  obtain ⟨-, -, hresult⟩ := Reg.linkage_subset_iff.mp hW
  simp [each_routineCode, Instr.Accesses, hclosure, harg, hres, hcallee, hargument, hresult]
  exact hbody

end Code

theorem Refers.accesses {x : String} {dst : Reg} {s : LowerState} {c : Code} {R W : Set Reg}
    (h : Refers x dst s c) (hs : s.scope.HeldIn R) (hglobals : ∀ y ∈ s.globals, .global y ∈ R)
    (hdst : dst ∈ W) : c.Accesses R W := by
  cases h with
  | register _ found => simp [Instr.Accesses, hs.locals _ _ _ found, hdst]
  | enclosed _ _ running => simp [Instr.Accesses, hs.closure _ running, hdst]
  | global _ _ declared => simp [Instr.Accesses, hglobals x declared, hdst]

theorem RefersAll.accesses {xs : List String} {s : LowerState} {c : Code} {R W : Set Reg}
    (h : RefersAll xs s c) (hs : s.scope.HeldIn R) (hglobals : ∀ y ∈ s.globals, .global y ∈ R)
    (hregs : ∀ r ∈ s.regs xs.length, r ∈ W) : c.Accesses R W := by
  refine h.each fun i hi _ _ hc => hc.accesses hs hglobals (hregs _ ?_)
  exact List.mem_map.mpr ⟨i, List.mem_range.mpr hi, rfl⟩

theorem Compares.accesses {mode : Dispatch} {id : Nat} {tagReg wanted : Reg} {index : Nat}
    {bs : List Branch} {s t : LowerState} {code : Code} {R W : Set Reg}
    (h : Compares mode id tagReg wanted index bs s code t) (htag : tagReg ∈ R)
    (hwanted : wanted ∈ R ∩ W) : code.Accesses R W := by
  refine h.each ?_ ?_
  · simp [Instr.Accesses, hwanted.2]
  · simp [Instr.Accesses, htag, hwanted.1]

/-- The registers that hold no definition. -/
def Reg.others : Set Reg := {r | ∀ x, r ≠ .global x}

/-- The registers that hold no definition but one of these. -/
def Reg.readable (names : OrderedSet String) : Set Reg := {r | ∀ x, r = .global x → x ∈ names}

theorem Reg.others_subset_readable (names : OrderedSet String) : others ⊆ readable names :=
  fun _ hr x hx => absurd hx (hr x)

theorem Reg.global_mem_readable {names : OrderedSet String} {x : String} (h : x ∈ names) :
    global x ∈ readable names := by
  intro y hy
  rwa [← Reg.global_injective hy]

theorem Reg.linkage_subset_others : linkage ⊆ others :=
  Reg.linkage_subset_iff.mpr ⟨callee_ne_global, argument_ne_global, result_ne_global⟩

theorem LowerState.reg_mem_others (s : LowerState) (i : Nat) : s.reg i ∈ Reg.others := by
  intro x h
  have hvirtual := congrArg Reg.isVirtual h
  simp [LowerState.reg] at hvirtual

@[simp] theorem LowerState.reg_ne_global (s : LowerState) (i : Nat) (x : String) :
    s.reg i ≠ .global x := s.reg_mem_others i x

@[simp] theorem LowerState.global_ne_reg (s : LowerState) (i : Nat) (x : String) :
    .global x ≠ s.reg i := (s.reg_mem_others i x).symm

/-- The code of the fragment and that of its routines read the registers of these definitions
only, and write none. -/
abbrev Fragment.KeepsGlobals (names : OrderedSet String) (f : Fragment) : Prop :=
  f.Accesses (Reg.readable names) Reg.others

/-- The registers that a phrase is lowered for. -/
@[simp] def Phrase.operands : Phrase → List Reg
  | .expr _ dst => [dst]
  | .args _ => []
  | .fields value _ _ _ dst => [value, dst]
  | .branches _ value _ _ dst => [value, dst]

theorem Lowers.regs_mem_others {mode : Dispatch} {ph : Phrase} {s t : LowerState}
    {regs : List Reg} {f : Fragment} (h : Lowers mode ph s regs f t) :
    ∀ r ∈ regs, r ∈ Reg.others := by
  induction h with
  | arg _ _ ih =>
      intro r hr
      rcases List.mem_append.mp hr with hr | hr
      · exact ih r hr
      · rw [List.mem_singleton.mp hr]
        exact LowerState.reg_mem_others _ 1
  | _ => simp

/-- Lowered code reads the registers of declared names only, and writes none of a definition. -/
theorem Lowers.keepsGlobals {mode : Dispatch} {ph : Phrase} {s t : LowerState} {regs : List Reg}
    {f : Fragment} (h : Lowers mode ph s regs f t) (hs : s.scope.HeldIn Reg.others)
    (hph : ∀ r ∈ ph.operands, r ∈ Reg.others) : f.KeepsGlobals s.globals := by
  have hread {names : OrderedSet String} {r : Reg} (hr : r ∈ Reg.others) :
      r ∈ Reg.readable names := Reg.others_subset_readable names hr
  have hreg {names : OrderedSet String} (s : LowerState) (i : Nat) :
      s.reg i ∈ Reg.readable names ∩ Reg.others := ⟨hread (s.reg_mem_others i), s.reg_mem_others i⟩
  have hlinkage {names : OrderedSet String} : Reg.linkage ⊆ Reg.readable names :=
    Reg.linkage_subset_others.trans (Reg.others_subset_readable names)
  induction h with
  | @primitive x dst s _ =>
      exact Fragment.each_ofCode.mpr
        (Code.accesses_printCode x (hreg s 1) (hread (hph dst (by simp))))
  | @var x dst s c refers =>
      exact Fragment.each_ofCode.mpr (refers.accesses (hs.mono (Reg.others_subset_readable _))
        (fun _ => Reg.global_mem_readable) (hph dst (by simp)))
  | @ctor c dst s =>
      exact Fragment.each_ofCode.mpr ((Code.accesses_building (hreg s 2) (hreg s 1)
        (hph dst (by simp)) (List.forall_mem_nil _)).ctorCode _)
  | @num n dst s =>
      exact Fragment.each_ofCode.mpr ((Code.accesses_building (hreg s 2) (hreg s 1)
        (hph dst (by simp)) (List.forall_mem_nil _)).boxedCode _ _)
  | @char n dst s =>
      exact Fragment.each_ofCode.mpr ((Code.accesses_building (hreg s 2) (hreg s 1)
        (hph dst (by simp)) (List.forall_mem_nil _)).boxedCode _ _)
  | @caseOf e bs dst s s₁ s₂ t fe fb tests he compares _ scrutinee branches =>
      have hfe : fe.KeepsGlobals s.globals := scrutinee hs (by simpa using s.reg_mem_others 1)
      have hscope : s₂.scope = s.scope := compares.grows.scope.trans he.grows.scope
      have hglobals : s₂.globals = s.globals := compares.grows.globals.trans he.grows.globals
      have hfb : fb.KeepsGlobals s.globals := by
        rw [← hglobals]
        refine branches (hscope ▸ hs) ?_
        simpa using ⟨s.reg_mem_others 1, hph dst (by simp)⟩
      have htests : tests.Accesses (Reg.readable s.globals) Reg.others :=
        compares.accesses (hreg s 2).1 (hreg s 3)
      simp [hfe, hfb, htests, Instr.Accesses, (hreg s 1).1, s.reg_mem_others 2]
  | @letIn x v b dst s s₁ s₂ fv fb hv _ value body =>
      have hfv : fv.KeepsGlobals s.globals := value hs (by simpa using s.reg_mem_others 1)
      have hfb : fb.KeepsGlobals s₁.globals := body (hs.bind (s.reg_mem_others 1) x) hph
      rw [hv.grows.globals] at hfb
      exact Fragment.each_append.mpr ⟨hfv, hfb⟩
  | @lam x e dst s s₁ s₂ fe captured loads hcaptured he values hs₂ body =>
      subst hs₂
      have hnodup : captured.Nodup := hcaptured ▸ nodup_captures _ _ _
      have hregs : ∀ r ∈ (s₁.inScope s.scope).regs captured.length, r ∈ Reg.others := by
        intro r hr
        obtain ⟨i, -, rfl⟩ := List.mem_map.mp hr
        exact LowerState.reg_mem_others _ _
      have hfe : fe.KeepsGlobals s.globals :=
        body (.routineScope hnodup (s.reg_mem_others 1) (s.reg_mem_others 2) x)
          (by simpa using s.reg_mem_others 3)
      have hloads : loads.Accesses (Reg.readable s₁.globals) Reg.others :=
        values.accesses (hs.mono (Reg.others_subset_readable _)) (fun _ => Reg.global_mem_readable)
          hregs
      rw [he.grows.globals] at hloads
      refine hfe.lambda (Code.each_append.mpr ⟨hloads, ?_⟩) ?_
      · exact (Code.accesses_building (hreg _ _) (hreg _ _) (hph dst (by simp))
          fun r hr => hread (hregs r hr)).closureCode _ _
      · exact Code.accesses_routineCode (s.reg_mem_others 1) (s.reg_mem_others 2) (hreg s 3).1
          hlinkage Reg.linkage_subset_others
  | @construct f a c n dst s s₁ regs fa _ ha args =>
      have hfa : fa.KeepsGlobals s.globals := args hs (by simp)
      refine Fragment.each_append.mpr ⟨hfa, Fragment.each_ofCode.mpr ?_⟩
      exact (Code.accesses_building (hreg s₁ 1) (hreg s₁ 2) (hph dst (by simp))
        fun r hr => hread (ha.regs_mem_others r hr)).constructCode _
  | @print x a dst s s₁ fa _ _ arg =>
      exact Fragment.each_append.mpr ⟨arg hs hph, Fragment.each_ofCode.mpr
        (Code.accesses_printCode x (hreg s₁ 1) (hread (hph dst (by simp))))⟩
  | @callVar x a dst s s₁ fa c ha refers arg =>
      have hfa : fa.KeepsGlobals s.globals := arg hs (by simpa using s.reg_mem_others 2)
      have hscope : s₁.scope = s.scope := ha.grows.scope
      have hc : c.Accesses (Reg.readable s₁.globals) Reg.others :=
        refers.accesses (hscope ▸ hs.mono (Reg.others_subset_readable _))
          (fun _ => Reg.global_mem_readable) (s.reg_mem_others 1)
      rw [ha.grows.globals] at hc
      simp only [Fragment.each_append, Fragment.each_ofCode]
      exact ⟨⟨hfa, hc⟩, Code.accesses_callCode (hreg s 1).1 (hreg s 2).1 (hreg s₁ 1) (hreg s₁ 2)
        (hph dst (by simp)) hlinkage Reg.linkage_subset_others⟩
  | @call f a dst s s₁ s₂ ff fa _ hf _ func arg =>
      have hff : ff.KeepsGlobals s.globals := func hs (by simpa using s.reg_mem_others 1)
      have hscope : s₁.scope = s.scope := hf.grows.scope
      have hfa := arg (hscope ▸ hs) (by simpa using s.reg_mem_others 2)
      rw [hf.grows.globals] at hfa
      simp only [Fragment.each_append, Fragment.each_ofCode]
      exact ⟨⟨hff, hfa⟩, Code.accesses_callCode (hreg s 1).1 (hreg s 2).1 (hreg s₂ 1) (hreg s₂ 2)
        (hph dst (by simp)) hlinkage Reg.linkage_subset_others⟩
  | head _ => exact Fragment.each_empty
  | @arg f a s s₁ t regs before fa hf _ func last =>
      have hscope : s₁.scope = s.scope := hf.grows.scope
      have hfa : fa.KeepsGlobals s₁.globals :=
        last (hscope ▸ hs) (by simpa using s₁.reg_mem_others 1)
      rw [hf.grows.globals] at hfa
      exact Fragment.each_prepend.mpr ⟨func hs (by simp), hfa⟩
  | @body value field e dst s t f _ ih => exact ih hs (by simpa using hph dst (by simp))
  | @field value field x params e dst s s₁ f _ rest =>
      have hvalue := hph value (by simp)
      have hf : f.KeepsGlobals s.globals := rest (hs.bind (s.reg_mem_others 1) x) hph
      simp [hf, Instr.Accesses, hread hvalue, s.reg_mem_others 1]
  | noBranch => exact Fragment.each_empty
  | @branch id value index c params e bs dst s s₁ t f fs hf _ first rest =>
      have hscope : s₁.scope = s.scope := hf.grows.scope
      have hrest := rest (hscope ▸ hs) hph
      rw [hf.grows.globals] at hrest
      simp [first hs hph, hrest, Instr.Accesses]

theorem flatMap_allCode_perm (fs : List Fragment) :
    ((fs.flatMap Fragment.routines).flatMap Routine.code ++ fs.flatMap Fragment.code).Perm
      (fs.flatMap Fragment.allCode) := by
  rw [List.perm_iff_count]
  intro i
  induction fs with
  | nil => rfl
  | cons f fs ih =>
      simp [Fragment.allCode, List.count_append] at ih ⊢
      omega

/-- Of the code of a definition, only the last instruction writes its register. -/
theorem Def.countP_setsGlobal {d : Def} {value : Reg} {body : Fragment}
    {names : OrderedSet String} (hbody : body.KeepsGlobals names) (x : String) :
    (d.fragment value body).allCode.countP (Instr.setsGlobal x) =
      if d.name = x then 1 else 0 := by
  have hnone : body.allCode.countP (Instr.setsGlobal x) = 0 := by
    rw [List.countP_eq_zero]
    intro i hi hset
    exact (hbody i hi).2 (.global x) (of_decide_eq_true hset) x rfl
  have hmark : Instr.setsGlobal x (.mark ⟨d.name⟩) = false := rfl
  have hlast : Instr.setsGlobal x (.movReg (.global d.name) value) = decide (d.name = x) := by
    rw [Instr.setsGlobal, decide_eq_decide]
    exact ⟨fun h => Reg.global_injective (Option.some.inj h), fun h => h ▸ rfl⟩
  rw [Fragment.allCode, List.countP_append] at hnone
  simp [Def.fragment, Fragment.allCode, List.countP_append, List.countP_cons, hmark, hlast]
  omega

theorem Def.reads_fragment {d : Def} {value : Reg} {body : Fragment}
    {names : OrderedSet String} (hvalue : value ∈ Reg.others) (hbody : body.KeepsGlobals names)
    {i : Instr} (hi : i ∈ (d.fragment value body).allCode) {x : String}
    (hx : .global x ∈ i.reads) : x ∈ names := by
  have hcases : i = .mark ⟨d.name⟩ ∨ i = .movReg (.global d.name) value ∨ i ∈ body.allCode := by
    simp [Def.fragment, Fragment.allCode] at hi ⊢
    tauto
  rcases hcases with rfl | rfl | hi
  · simp at hx
  · exact absurd (List.mem_singleton.mp hx).symm (hvalue x)
  · exact (hbody i hi).1 (.global x) hx x rfl

/-- The definitions of a program are lowered to code that keeps the registers of definitions,
each followed by the write to its own. -/
theorem LowersDefs.exists_fragment {mode : Dispatch} {p : Program} {s t : LowerState}
    {fs : List Fragment} (h : LowersDefs mode p s fs t) (hs : s.scope = {}) :
    List.Forall₂ (fun d f => ∃ value body, f = d.fragment value body ∧
      value ∈ Reg.others ∧ body.KeepsGlobals s.globals) p fs := by
  induction h with
  | nil => exact .nil
  | @cons d rest s s₁ t f fs body _ ih =>
      have hbody : f.KeepsGlobals s.globals := body.keepsGlobals (s := s.skip 1)
        (hs ▸ .empty _) (by simpa using s.reg_mem_others 1)
      have hothers := ih (body.grows.scope.trans hs)
      rw [body.grows.globals] at hothers
      exact .cons ⟨s.reg 1, f, rfl, s.reg_mem_others 1, hbody⟩ hothers

namespace Compiler

/-- Apart from the jump at its start, the code of a program is that of its definitions and
their routines. -/
theorem exists_code_perm {mode : Dispatch} {p : Program} {code : Code}
    (h : ((new mode).compile p).1 = .ok code) :
    ∃ fs, code.Perm ((p.head?.toList.map fun d => .jump ⟨d.name⟩) ++
        fs.flatMap Fragment.allCode) ∧
      List.Forall₂ (fun d f => ∃ value body, f = d.fragment value body ∧
        value ∈ Reg.others ∧ body.KeepsGlobals (.ofList (p.map Def.name))) p fs := by
  obtain ⟨-, fs, hfs, rfl⟩ := compile_eq_ok h
  refine ⟨fs, ?_, hfs.exists_fragment rfl⟩
  cases p with
  | nil =>
      rw [hfs.eq_nil_of_nil]
      exact List.Perm.refl _
  | cons d rest => exact (flatMap_allCode_perm fs).cons _

/-- Only registers of definitions that the program has are read. -/
theorem mem_names_of_reads {mode : Dispatch} {p : Program} {code : Code}
    (h : ((new mode).compile p).1 = .ok code) {i : Instr} (hi : i ∈ code) {x : String}
    (hx : .global x ∈ i.reads) : x ∈ p.map Def.name := by
  obtain ⟨fs, hperm, hfs⟩ := exists_code_perm h
  rcases List.mem_append.mp (hperm.mem_iff.mp hi) with hi | hi
  · obtain ⟨d, -, rfl⟩ := List.mem_map.mp hi
    simp at hx
  · obtain ⟨f, hf, hi⟩ := List.mem_flatMap.mp hi
    obtain ⟨d, -, value, body, rfl, hvalue, hbody⟩ := exists_rel_of_mem hfs.flip hf
    exact OrderedSet.mem_ofList.mp (Def.reads_fragment hvalue hbody hi hx)

/-- The register of a definition is written once, and no other register of this kind is. -/
theorem countP_setsGlobal {mode : Dispatch} {p : Program} {code : Code}
    (h : ((new mode).compile p).1 = .ok code) (x : String) :
    code.countP (Instr.setsGlobal x) = (p.map Def.name).count x := by
  obtain ⟨fs, hperm, hfs⟩ := exists_code_perm h
  have hentry : (p.head?.toList.map fun d => Instr.jump ⟨d.name⟩).countP (Instr.setsGlobal x) =
      0 := by
    rw [List.countP_eq_zero]
    intro i hi
    obtain ⟨d, -, rfl⟩ := List.mem_map.mp hi
    simp [Instr.setsGlobal]
  rw [hperm.countP_eq, List.countP_append, hentry, Nat.zero_add]
  generalize OrderedSet.ofList (p.map Def.name) = names at hfs
  clear h hperm hentry
  induction hfs with
  | nil => rfl
  | @cons d f p fs hf _ ih =>
      obtain ⟨value, body, rfl, -, hbody⟩ := hf
      rw [List.flatMap_cons, List.countP_append, Def.countP_setsGlobal hbody, ih, List.map_cons,
        List.count_cons]
      simp [Nat.add_comm]

end Compiler

end Lowering
