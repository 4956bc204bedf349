import Lowering.Proofs.Dataflow
import Lowering.Proofs.Nameless

/-!
# Virtual registers are written before they are read

Lowered code reads a virtual register only where it is written on every path. What a phrase
needs to be known is where its local variables are; what is known behind it is that its
destination is written, too (`Lowers.safe`). Each phrase jumps to labels of its own cases
only, so what is known of jumps to other labels does not change.
-/

namespace Lowering

mutual

/-- Every case has a branch, and the name of a primitive only stands as the function of an
application. -/
def Expr.Regular : Expr → Prop
  | .var x => isPrimitive x = false
  | .ctor _ => True
  | .num _ => True
  | .char _ => True
  | .caseOf scrutinee branches =>
    scrutinee.Regular ∧ branches ≠ [] ∧ RegularBranches branches
  | .letIn _ value body => value.Regular ∧ body.Regular
  | .lam _ body => body.Regular
  | .app f a => ((∃ x, f = .var x) ∨ f.Regular) ∧ a.Regular
  | .missing => True
  | .foreign _ => True

def RegularBranches : List Branch → Prop
  | [] => True
  | .mk _ _ body :: rest => body.Regular ∧ RegularBranches rest

end

/-- A function that is called and is no variable is regular itself. -/
theorem Expr.regular_of_callee {f : Expr} (h : (∃ x, f = .var x) ∨ f.Regular)
    (hcallee : f.callee = .other) : f.Regular := by
  refine h.resolve_left ?_
  rintro ⟨x, rfl⟩
  exact callee_var_ne_other x hcallee

/-- The label belongs to a case whose id is above `lo` and at most `hi`. -/
def Label.OfCase (lo hi : Nat) (l : Label) : Prop :=
  ∃ id, lo < id ∧ id ≤ hi ∧ (l = .caseEnd id ∨ ∃ i, l = .branch id i)

namespace Label

variable {lo hi lo' hi' id : Nat} {l : Label}

theorem ofCase_caseEnd_iff : OfCase lo hi (.caseEnd id) ↔ lo < id ∧ id ≤ hi := by
  constructor
  · rintro ⟨id', hlo, hhi, h | ⟨i, h⟩⟩
    · obtain rfl := caseEnd_injective h
      exact ⟨hlo, hhi⟩
    · exact absurd h.symm (branch_ne_caseEnd _ _ _)
  · rintro ⟨hlo, hhi⟩
    exact ⟨id, hlo, hhi, .inl rfl⟩

theorem ofCase_branch_iff {i : Nat} : OfCase lo hi (.branch id i) ↔ lo < id ∧ id ≤ hi := by
  constructor
  · rintro ⟨id', hlo, hhi, h | ⟨j, h⟩⟩
    · exact absurd h (branch_ne_caseEnd _ _ _)
    · obtain ⟨rfl, -⟩ := branch_injective h
      exact ⟨hlo, hhi⟩
  · rintro ⟨hlo, hhi⟩
    exact ⟨id, hlo, hhi, .inr ⟨i, rfl⟩⟩

theorem not_ofCase_caseEnd (h : id ≤ lo) : ¬ OfCase lo hi (.caseEnd id) := by
  rw [ofCase_caseEnd_iff]
  omega

theorem not_ofCase_branch (h : id ≤ lo) (i : Nat) : ¬ OfCase lo hi (.branch id i) := by
  rw [ofCase_branch_iff]
  omega

theorem OfCase.mono (h : OfCase lo hi l) (hlo : lo' ≤ lo) (hhi : hi ≤ hi') : OfCase lo' hi' l := by
  obtain ⟨id, h₁, h₂, hl⟩ := h
  exact ⟨id, by omega, by omega, hl⟩

/-- A label belongs to one case only. -/
theorem OfCase.not_ofCase (h : OfCase lo hi l) (hout : hi ≤ lo' ∨ hi' ≤ lo) :
    ¬ OfCase lo' hi' l := by
  obtain ⟨id, hlo, hhi, rfl | ⟨i, rfl⟩⟩ := h
  · rw [ofCase_caseEnd_iff]
    omega
  · rw [ofCase_branch_iff]
    omega

end Label

/-- No jump to a label of these cases has been seen. -/
def Known.Fresh (lo hi : Nat) (k : Known) : Prop :=
  ∀ l, Label.OfCase lo hi l → k.jumped l = Set.univ

theorem Known.Fresh.mono {lo hi lo' hi' : Nat} {k : Known} (h : k.Fresh lo hi) (hlo : lo ≤ lo')
    (hhi : hi' ≤ hi) : k.Fresh lo' hi' :=
  fun l hl => h l (hl.mono hlo hhi)

namespace Code

/-- The code reads only what is known, the registers `K` are known behind it, and it jumps only
to labels of cases in this range. -/
structure Passes (lo hi : Nat) (k : Known) (c : Code) (K : Set Reg) : Prop where
  defined : c.Defined k
  here : K ⊆ (scan k c).here
  jumped : ∀ l, ¬ Label.OfCase lo hi l → (scan k c).jumped l = k.jumped l

variable {lo hi lo' hi' : Nat} {k : Known} {c d : Code} {K K' : Set Reg}

theorem Passes.mono (h : c.Passes lo hi k K) (hlo : lo' ≤ lo) (hhi : hi ≤ hi') :
    c.Passes lo' hi' k K :=
  ⟨h.defined, h.here, fun l hl => h.jumped l fun hl' => hl (hl'.mono hlo hhi)⟩

theorem Passes.weaken (h : c.Passes lo hi k K) (hK : K' ⊆ K) : c.Passes lo hi k K' :=
  ⟨h.defined, hK.trans h.here, h.jumped⟩

theorem Passes.append (hc : c.Passes lo hi k K) (hd : d.Passes lo hi (scan k c) K') :
    (c ++ d).Passes lo hi k K' := by
  constructor
  · exact defined_append.mpr ⟨hc.defined, hd.defined⟩
  · rw [scan_append]
    exact hd.here
  · intro l hl
    rw [scan_append, hd.jumped l hl, hc.jumped l hl]

theorem Passes.seq {mid : Nat} (hc : c.Passes lo mid k K) (hd : d.Passes mid hi (scan k c) K')
    (hlo : lo ≤ mid) (hhi : mid ≤ hi) : (c ++ d).Passes lo hi k K' :=
  (hc.mono (Nat.le_refl lo) hhi).append (hd.mono hlo (Nat.le_refl hi))

theorem Passes.fresh (h : c.Passes lo hi k K) (hk : k.Fresh lo' hi') (hout : hi' ≤ lo ∨ hi ≤ lo') :
    (scan k c).Fresh lo' hi' := by
  intro l hl
  rw [h.jumped l (hl.not_ofCase hout), hk l hl]

/-- The code reads only what is known, and it jumps only to labels of cases in this range and
to `exit`, where the registers `K` are known. -/
structure Leaves (lo hi : Nat) (k : Known) (c : Code) (exit : Label) (K : Set Reg) : Prop where
  defined : c.Defined k
  atExit : K ⊆ (scan k c).jumped exit
  jumped : ∀ l, ¬ Label.OfCase lo hi l → l ≠ exit → (scan k c).jumped l = k.jumped l

theorem Leaves.seq {mid : Nat} {exit : Label} (hc : c.Leaves lo mid k exit K)
    (hd : d.Leaves mid hi (scan k c) exit K) (hlo : lo ≤ mid) (hhi : mid ≤ hi) :
    (c ++ d).Leaves lo hi k exit K := by
  constructor
  · exact defined_append.mpr ⟨hc.defined, hd.defined⟩
  · rw [scan_append]
    exact hd.atExit
  · intro l hl hexit
    rw [scan_append, hd.jumped l (fun h => hl (h.mono hlo (Nat.le_refl hi))) hexit,
      hc.jumped l (fun h => hl (h.mono (Nat.le_refl lo) hhi)) hexit]

/-- A branch starts with what all jumps to its mark know and leaves by a jump. -/
theorem Passes.leaves {label exit : Label} (h : c.Passes lo hi (k.after (.mark label)) K)
    (hexit : ¬ Label.OfCase lo hi exit) (hK : K ⊆ k.jumped exit) :
    Leaves lo hi k ([Instr.mark label] ++ c ++ [Instr.jump exit]) exit K := by
  have hscan : scan k ([Instr.mark label] ++ c ++ [Instr.jump exit]) =
      (scan (k.after (.mark label)) c).after (.jump exit) := by simp
  constructor
  · exact ⟨by simp, defined_append.mpr ⟨h.defined, by simp [Defined]⟩⟩
  · rw [hscan]
    refine Known.subset_jumped_after h.here ?_
    rw [h.jumped exit hexit]
    exact hK
  · intro l hl hne
    rw [hscan, Known.jumped_after_of_ne (by simpa using hne.symm), h.jumped l hl]
    rfl

/-- Where control only comes by jumps to the mark that follows. -/
theorem Leaves.passes {exit : Label} (h : c.Leaves lo hi k exit K)
    (hhere : (scan k c).here = Set.univ) (hexit : Label.OfCase lo' hi' exit) (hlo : lo' ≤ lo)
    (hhi : hi ≤ hi') : Passes lo' hi' k (c ++ [Instr.mark exit]) K := by
  have hscan : scan k (c ++ [Instr.mark exit]) = (scan k c).after (.mark exit) := by simp
  constructor
  · exact defined_append.mpr ⟨h.defined, by simp [Defined]⟩
  · rw [hscan]
    exact Set.subset_inter (hhere ▸ Set.subset_univ K) h.atExit
  · intro l hl
    rw [hscan, Known.jumped_after_of_ne (by simp)]
    refine h.jumped l (fun hl' => hl (hl'.mono hlo hhi)) ?_
    rintro rfl
    exact hl hexit

/-- Straight code adds the registers that it writes to what is known. -/
theorem Straight.scan (hc : c.Straight) (k : Known) :
    (Code.scan k c).jumped = k.jumped ∧ k.here ⊆ (Code.scan k c).here ∧
      ∀ x ∈ c, ∀ r, x.writes? = some r → r ∈ (Code.scan k c).here := by
  induction c generalizing k with
  | nil => exact ⟨rfl, subset_rfl, by simp⟩
  | cons x c ih =>
      obtain ⟨hx, hc⟩ := each_cons.mp hc
      obtain ⟨hjumped, hhere, hwrites⟩ := ih hc (k.after x)
      refine ⟨?_, (Known.subset_here_after hx).trans hhere, ?_⟩
      · rw [scan_cons, hjumped]
        funext l
        have htarget : x.target? ≠ some l := by
          rw [hx.target?_eq]
          simp
        exact Known.jumped_after_of_ne htarget
      · intro y hy r hr
        rcases List.mem_cons.mp hy with rfl | hy
        · exact hhere (Known.mem_here_after_of_writes hr)
        · exact hwrites y hy r hr

theorem Passes.of_straight (hc : c.Straight) (hdefined : c.Defined k) (hK : K ⊆ k.here)
    {dst : Reg} {x : Instr} (hx : x ∈ c) (hdst : x.writes? = some dst) :
    c.Passes lo hi k (insert dst K) := by
  obtain ⟨hjumped, hhere, hwrites⟩ := hc.scan k
  refine ⟨hdefined, ?_, fun l _ => congrFun hjumped l⟩
  exact Set.insert_subset (hwrites x hx dst hdst) (hK.trans hhere)

theorem scan_storeAll (k : Known) (obj : Reg) (slot : Nat) (regs : List Reg) :
    scan k (storeAll obj slot regs) = k := by
  induction regs generalizing slot with
  | nil => rfl
  | cons r rest ih => exact ih (slot + 1)

theorem defined_storeAll {obj : Reg} {regs : List Reg} (slot : Nat) (hobj : obj ∈ k.here)
    (hregs : ∀ r ∈ regs, r ∈ k.here) : Defined k (storeAll obj slot regs) := by
  induction regs generalizing slot with
  | nil => trivial
  | cons r rest ih =>
      refine ⟨?_, ih (slot + 1) fun q hq => hregs q (List.mem_cons_of_mem _ hq)⟩
      simp [hobj, hregs r (List.mem_cons_self ..)]

theorem passes_printCode (hK : K ⊆ k.here) (x : String) (tmp : Reg) {dst : Reg} (hdst : dst ∈ K) :
    (printCode x tmp dst).Passes lo hi k K := by
  refine (Passes.of_straight (x := .load tmp dst 1) (straight_printCode x tmp dst) ?_ hK
    (by simp [printCode]) rfl).weaken (Set.subset_insert tmp K)
  by_cases hx : x = printCharName <;> simp [printCode, hx, Defined, Known.after, hK hdst]

theorem passes_boxedCode (hK : K ⊆ k.here) (t : Tag) (value : Int64) (tmp obj dst : Reg) :
    (boxedCode t value tmp obj dst).Passes lo hi k (insert dst K) := by
  refine Passes.of_straight (x := .movReg dst obj) (straight_building.boxedCode _ _) ?_ hK
    (by simp [boxedCode]) rfl
  simp [boxedCode, storeInt, Defined, Known.after]

theorem passes_ctorCode (hK : K ⊆ k.here) (t : Tag) (tmp obj dst : Reg) :
    (ctorCode t tmp obj dst).Passes lo hi k (insert dst K) := by
  refine Passes.of_straight (x := .movReg dst obj) (straight_building.ctorCode _) ?_ hK
    (by simp [ctorCode]) rfl
  simp [ctorCode, storeInt, Defined, Known.after]

theorem passes_constructCode (hK : K ⊆ k.here) (t : Tag) {args : List Reg}
    (hargs : ∀ r ∈ args, r ∈ K) (obj tmp dst : Reg) :
    (constructCode t args obj tmp dst).Passes lo hi k (insert dst K) := by
  refine Passes.of_straight (x := .movReg dst obj) (straight_building.constructCode _) ?_ hK
    (by simp [constructCode]) rfl
  simp only [constructCode, defined_append, scan_append, scan_storeAll]
  refine ⟨⟨⟨by simp [Defined], by simp [storeInt, Defined, Known.after]⟩, ?_⟩, ?_⟩
  · refine defined_storeAll 1 (by simp [storeInt, Known.after]) ?_
    intro r hr
    simp [storeInt, Known.after, hK (hargs r hr)]
  · simp [storeInt, Defined, Known.after]

theorem passes_closureCode (hK : K ⊆ k.here) (t : Tag) (label : Label) {captured : List Reg}
    (hcaptured : ∀ r ∈ captured, r ∈ K) (obj tmp dst : Reg) :
    (closureCode t label captured obj tmp dst).Passes lo hi k (insert dst K) := by
  refine Passes.of_straight (x := .movReg dst obj) (straight_building.closureCode _ _) ?_ hK
    (by simp [closureCode]) rfl
  simp only [closureCode, defined_append, scan_append, scan_storeAll]
  refine ⟨⟨⟨⟨by simp [Defined], by simp [storeInt, Defined, Known.after]⟩, ?_⟩, ?_⟩, ?_⟩
  · simp [storeInt, Defined, Known.after]
  · refine defined_storeAll captureOffset (by simp [storeInt, Known.after]) ?_
    intro r hr
    simp [storeInt, Known.after, hK (hcaptured r hr)]
  · simp [storeInt, Defined, Known.after]

theorem passes_callCode (hK : K ⊆ k.here) {func arg : Reg} (hfunc : func ∈ K) (harg : arg ∈ K)
    (address res dst : Reg) :
    (callCode func arg address res dst).Passes lo hi k (insert dst K) := by
  refine Passes.of_straight (x := .movReg dst res) (straight_callCode _ _ _ _ _) ?_ hK
    (by simp [callCode]) rfl
  simp [callCode, Defined, Known.after, hK hfunc, hK harg]

end Code

theorem Refers.passes {x : String} {dst : Reg} {s : LowerState} {c : Code} {lo hi : Nat}
    {k : Known} {K : Set Reg} (h : Refers x dst s c) (hs : s.scope.HeldIn K) (hK : K ⊆ k.here) :
    c.Passes lo hi k (insert dst K) := by
  have hstraight := h.straight
  cases h with
  | register _ found =>
      refine .of_straight hstraight ?_ hK (List.mem_singleton_self _) rfl
      simp [Code.Defined, hK (hs.locals _ _ _ found)]
  | enclosed _ _ running =>
      refine .of_straight hstraight ?_ hK (List.mem_singleton_self _) rfl
      simp [Code.Defined, hK (hs.closure _ running)]
  | global =>
      refine .of_straight hstraight ?_ hK (List.mem_singleton_self _) rfl
      simp [Code.Defined]

theorem RefersAll.passes {xs : List String} {s : LowerState} {c : Code} {lo hi : Nat}
    {k : Known} {K : Set Reg} (h : RefersAll xs s c) (hs : s.scope.HeldIn K) (hK : K ⊆ k.here) :
    c.Passes lo hi k (K ∪ {r | r ∈ s.regs xs.length}) := by
  induction h generalizing k K with
  | nil s => exact ⟨trivial, by simpa [LowerState.regs] using hK, fun _ _ => rfl⟩
  | @cons x rest s c cs head _ ih =>
      have hhead : c.Passes lo hi k (insert (s.reg 1) K) := head.passes hs hK
      have htail := ih (hs.mono (Set.subset_insert _ K)) hhead.here
      refine (hhead.append htail).weaken ?_
      rw [List.length_cons, LowerState.regs_succ]
      rintro r (hr | hr)
      · exact .inl (.inr hr)
      · rcases List.mem_cons.mp hr with rfl | hr
        · exact .inl (.inl rfl)
        · exact .inr hr

/-- What the comparisons of a case leave to its branches. -/
theorem Compares.passes {mode : Dispatch} {id : Nat} {tagReg wanted : Reg} {index : Nat}
    {bs : List Branch} {s t : LowerState} {code : Code} {k : Known} {K : Set Reg}
    (h : Compares mode id tagReg wanted index bs s code t) (hK : K ⊆ k.here) (htag : tagReg ∈ K) :
    code.Defined k ∧ K ⊆ (code.scan k).here ∧
      (∀ l, K ⊆ k.jumped l → K ⊆ (code.scan k).jumped l) ∧
      ∀ l, (∀ i, l ≠ .branch id i) → (code.scan k).jumped l = k.jumped l := by
  induction h generalizing k with
  | nil => exact ⟨trivial, hK, fun _ hl => hl, fun _ _ => rfl⟩
  | @cons index b bs s t cs _ ih =>
      have hK₁ : K ⊆ insert wanted k.here := hK.trans (Set.subset_insert _ _)
      obtain ⟨hdefined, hhere, hkeeps, hsame⟩ :=
        ih (k := (k.after (.movInt wanted (mode.number s index b))).after
          (.jumpEq tagReg wanted (.branch id index))) hK₁
      refine ⟨⟨by simp, ?_, hdefined⟩, hhere, ?_, ?_⟩
      · simp [Known.after, hK htag]
      · intro l hl
        exact hkeeps l (Known.subset_jumped_after hK₁ hl)
      · intro l hl
        rw [Code.scan_cons, Code.scan_cons, hsame l hl]
        refine Known.jumped_after_of_ne ?_
        simpa using (hl index).symm

/-- What is known when the comparisons of a case are through, and where they jump to, if the
code `c` puts the scrutinee into `value`. -/
theorem Compares.passes_append {mode : Dispatch} {id : Nat} {tagReg wanted value : Reg}
    {index : Nat} {bs : List Branch} {s t : LowerState} {c tests : Code} {lo hi : Nat} {k : Known}
    {K : Set Reg} (h : Compares mode id tagReg wanted index bs s tests t)
    (hc : c.Passes lo hi k (insert value K)) (hid : id ≤ lo)
    (hk : ∀ i, k.jumped (.branch id i) = Set.univ) :
    (c ++ .load tagReg value 0 :: tests).Defined k ∧
      insert value K ⊆ ((c ++ .load tagReg value 0 :: tests).scan k).here ∧
      (∀ i, insert value K ⊆
        ((c ++ .load tagReg value 0 :: tests).scan k).jumped (.branch id i)) ∧
      ∀ l, ¬ Label.OfCase lo hi l → (∀ i, l ≠ .branch id i) →
        ((c ++ .load tagReg value 0 :: tests).scan k).jumped l = k.jumped l := by
  have hload : insert tagReg (insert value K) ⊆
      ((c.scan k).after (.load tagReg value 0)).here := Set.insert_subset_insert hc.here
  obtain ⟨hdefined, hhere, hkeeps, hsame⟩ := h.passes hload (Set.mem_insert _ _)
  simp only [Code.scan_append, Code.scan_cons]
  refine ⟨?_, (Set.subset_insert _ _).trans hhere, ?_, ?_⟩
  · refine Code.defined_append.mpr ⟨hc.defined, ?_, hdefined⟩
    simpa using fun _ => hc.here (Set.mem_insert _ _)
  · intro i
    refine (Set.subset_insert _ _).trans (hkeeps _ ?_)
    rw [Known.jumped_after_of_ne (by simp), hc.jumped _ (Label.not_ofCase_branch hid i), hk i]
    exact Set.subset_univ _
  · intro l hl hbranch
    rw [hsame l hbranch, Known.jumped_after_of_ne (by simp), hc.jumped l hl]

/-- The expressions of a phrase are regular. The head of a chain may be a primitive. -/
def Phrase.Regular : Phrase → Prop
  | .expr e _ => e.Regular
  | .args chain => (∃ x, chain = .var x) ∨ chain.Regular
  | .fields _ _ _ body _ => body.Regular
  | .branches _ _ _ bs _ => RegularBranches bs

/-- What is known behind a phrase, if the registers `K` are known in front of it. The branches
of a case are entered by jumps and left by a jump to the end of the case. -/
def Phrase.Passes (s t : LowerState) (regs : List Reg) (code : Code) (k : Known) (K : Set Reg) :
    Phrase → Prop
  | .expr _ dst => code.Passes s.cases t.cases k (insert dst K)
  | .args _ => code.Passes s.cases t.cases k (K ∪ {r | r ∈ regs})
  | .fields value _ _ _ dst => value ∈ K → code.Passes s.cases t.cases k (insert dst K)
  | .branches id value _ bs dst => value ∈ K → id ≤ s.cases →
    (∀ i, K ⊆ k.jumped (.branch id i)) → insert dst K ⊆ k.jumped (.caseEnd id) →
    code.Leaves s.cases t.cases k (.caseEnd id) (insert dst K) ∧
      (bs ≠ [] ∨ k.here = Set.univ → (code.scan k).here = Set.univ)

/-- The code of a phrase reads only what is known, wherever its locals are known. -/
def Phrase.Safe (ph : Phrase) (s t : LowerState) (regs : List Reg) (code : Code) : Prop :=
  ∀ ⦃k : Known⦄ ⦃K : Set Reg⦄, K ⊆ k.here → s.scope.HeldIn K → k.Fresh s.cases t.cases →
    ph.Passes s t regs code k K

namespace Phrase.Safe

variable {mode : Dispatch} {s s₁ s₂ t : LowerState} {dst : Reg}

theorem caseOf {e : Expr} {bs : List Branch} {fe fb : Fragment} {tests : Code}
    (he : Lowers mode (.expr e (s.reg 1)) (s.skip 3).enterCase [] fe s₁)
    (compares : Compares mode (s.cases + 1) (s.reg 2) (s.reg 3) 0 bs s₁ tests s₂)
    (hb : Lowers mode (.branches (s.cases + 1) (s.reg 1) 0 bs dst) s₂ [] fb t) (hne : bs ≠ [])
    (scrutinee : (Phrase.expr e (s.reg 1)).Safe (s.skip 3).enterCase s₁ [] fe.code)
    (branches : (Phrase.branches (s.cases + 1) (s.reg 1) 0 bs dst).Safe s₂ t [] fb.code) :
    (Phrase.expr (.caseOf e bs) dst).Safe s t []
      (fe ++ .ofCode (.load (s.reg 2) (s.reg 1) 0 :: tests) ++ fb ++
        .ofCode [.mark (.caseEnd (s.cases + 1))]).code := by
  intro k K hK hs hk
  have hecases : s.cases + 1 ≤ s₁.cases := he.grows.cases
  have hccases := compares.counters.2.1
  have hbcases := hb.grows.cases
  have hfirst : fe.code.Passes (s.cases + 1) s₁.cases k (insert (s.reg 1) K) :=
    scrutinee hK hs (hk.mono (Nat.le_succ _) (by omega))
  -- No jump to the labels of this case has been seen yet.
  have hown {l : Label} (hl : Label.OfCase s.cases (s.cases + 1) l) :
      k.jumped l = Set.univ := hk l (hl.mono (Nat.le_refl _) (by omega))
  have hend : Label.OfCase s.cases (s.cases + 1) (.caseEnd (s.cases + 1)) :=
    Label.ofCase_caseEnd_iff.mpr (by omega)
  obtain ⟨hdefined, hhere, hbranch, hsame⟩ := compares.passes_append hfirst (Nat.le_refl _)
    fun i => hown (Label.ofCase_branch_iff.mpr (by omega))
  have hscope : s₂.scope.HeldIn (insert (s.reg 1) K) := by
    rw [compares.grows.scope, he.grows.scope]
    exact hs.mono (Set.subset_insert _ _)
  have hfresh : (Code.scan k (fe.code ++ .load (s.reg 2) (s.reg 1) 0 :: tests)).Fresh
      s₂.cases t.cases := by
    intro l hl
    rw [hsame l (hl.not_ofCase (.inr hccases.ge))]
    · exact hk l (hl.mono (by omega) (Nat.le_refl _))
    · rintro i rfl
      exact Label.not_ofCase_branch (by omega) i hl
  have hunseen : insert dst (insert (s.reg 1) K) ⊆
      (Code.scan k (fe.code ++ .load (s.reg 2) (s.reg 1) 0 :: tests)).jumped
        (.caseEnd (s.cases + 1)) := by
    rw [hsame _ (Label.not_ofCase_caseEnd (Nat.le_refl _))
      fun i => (Label.branch_ne_caseEnd _ _ _).symm, hown hend]
    exact Set.subset_univ _
  obtain ⟨hleaves, hleft⟩ := branches hhere hscope hfresh (Set.mem_insert _ _) (by omega) hbranch
    hunseen
  have hbranches := hleaves.passes (hleft (.inl hne)) (hend.mono (Nat.le_refl _) (by omega))
    (by omega) (Nat.le_refl _)
  have htests : Code.Passes s.cases t.cases k
      (fe.code ++ .load (s.reg 2) (s.reg 1) 0 :: tests) (insert (s.reg 1) K) := by
    refine ⟨hdefined, hhere, fun l hl => hsame l ?_ ?_⟩
    · exact fun hl' => hl (hl'.mono (Nat.le_succ _) (by omega))
    · rintro i rfl
      exact hl (Label.ofCase_branch_iff.mpr (by omega))
  have hcode := (htests.append hbranches).weaken
    (Set.insert_subset_insert (a := dst) (Set.subset_insert (s.reg 1) K))
  simpa only [Phrase.Passes, Fragment.code_append, Fragment.code_ofCode, List.append_assoc]
    using hcode

theorem branch {id index : Nat} {value : Reg} {c : String} {params : List String} {e : Expr}
    {bs : List Branch} {f fs : Fragment}
    (hf : Lowers mode (.fields value 1 params e dst) s [] f s₁)
    (hr : Lowers mode (.branches id value (index + 1) bs dst) s₁ [] fs t)
    (first : (Phrase.fields value 1 params e dst).Safe s s₁ [] f.code)
    (rest : (Phrase.branches id value (index + 1) bs dst).Safe s₁ t [] fs.code) :
    (Phrase.branches id value index (.mk c params e :: bs) dst).Safe s t []
      (.ofCode [.mark (.branch id index)] ++ f ++ .ofCode [.jump (.caseEnd id)] ++ fs).code := by
  intro k K hK hs hk hvalue hid hbranch hend
  have hfcases := hf.grows.cases
  have hrcases := hr.grows.cases
  have hmark : K ⊆ (k.after (.mark (.branch id index))).here :=
    Set.subset_inter hK (hbranch index)
  have hfirst := (first hmark hs (hk.mono (Nat.le_refl _) hrcases) hvalue).leaves
    (Label.not_ofCase_caseEnd hid) hend
  -- Only jumps lead to the next branch.
  have hhere : (Code.scan k ([Instr.mark (.branch id index)] ++ f.code ++
      [Instr.jump (.caseEnd id)])).here = Set.univ := by
    simp [Known.after]
  have hscope : s₁.scope.HeldIn K := by
    rw [hf.grows.scope]
    exact hs
  have hbranch' (i : Nat) : K ⊆ (Code.scan k ([Instr.mark (.branch id index)] ++ f.code ++
      [Instr.jump (.caseEnd id)])).jumped (.branch id i) := by
    rw [hfirst.jumped _ (Label.not_ofCase_branch hid i) (Label.branch_ne_caseEnd _ _ _)]
    exact hbranch i
  have hfresh : (Code.scan k ([Instr.mark (.branch id index)] ++ f.code ++
      [Instr.jump (.caseEnd id)])).Fresh s₁.cases t.cases := by
    intro l hl
    rw [hfirst.jumped l (hl.not_ofCase (.inr (Nat.le_refl _)))]
    · exact hk l (hl.mono hfcases (Nat.le_refl _))
    · rintro rfl
      exact Label.not_ofCase_caseEnd (hid.trans hfcases) hl
  obtain ⟨hrest, hleft⟩ := rest (hhere ▸ Set.subset_univ K) hscope hfresh hvalue
    (hid.trans hfcases) hbranch' hfirst.atExit
  refine ⟨hfirst.seq hrest hfcases hrcases, ?_⟩
  intro _
  have hcode := hleft (.inr hhere)
  rwa [← Code.scan_append] at hcode

end Phrase.Safe

/-- The code of a regular phrase reads no virtual register before it is written. -/
theorem Lowers.safe {mode : Dispatch} {ph : Phrase} {s t : LowerState} {regs : List Reg}
    {f : Fragment} (h : Lowers mode ph s regs f t) (hph : ph.Regular) :
    ph.Safe s t regs f.code := by
  induction h with
  | primitive hx =>
      rw [Phrase.Regular, Expr.Regular, hx] at hph
      cases hph
  | var refers => exact fun k K hK hs _ => refers.passes hs hK
  | ctor => exact fun k K hK _ _ => Code.passes_ctorCode hK _ _ _ _
  | num => exact fun k K hK _ _ => Code.passes_boxedCode hK _ _ _ _ _
  | char => exact fun k K hK _ _ => Code.passes_boxedCode hK _ _ _ _ _
  | caseOf he compares hb scrutinee branches =>
      obtain ⟨heregular, hne, hregulars⟩ := hph
      exact .caseOf he compares hb hne (scrutinee heregular) (branches hregulars)
  | @letIn x v b dst s s₁ s₂ fv fb hv hb value body =>
      intro k K hK hs hk
      have hvcases := hv.grows.cases
      have hbcases := hb.grows.cases
      have hfirst := value hph.1 hK hs (hk.mono (Nat.le_refl _) hbcases)
      have hscope : (s.scope.bind x (.register x (s.reg 1))).HeldIn (insert (s.reg 1) K) :=
        (hs.mono (Set.subset_insert _ _)).bind (Set.mem_insert _ _) x
      have hrest := body hph.2 hfirst.here hscope
        (hfirst.fresh (hk.mono hvcases (Nat.le_refl _)) (.inr (Nat.le_refl _)))
      exact (hfirst.seq hrest hvcases hbcases).weaken
        (Set.insert_subset_insert (Set.subset_insert _ _))
  | @lam x e dst s s₁ s₂ fe captured loads _ _ values hs₂ _ =>
      intro k K hK hs _
      subst hs₂
      have hloads : loads.Passes s.cases s₁.cases k
          (K ∪ {r | r ∈ (s₁.inScope s.scope).regs captured.length}) := values.passes hs hK
      refine (hloads.append (Code.passes_closureCode hloads.here _ _ ?_ _ _ _)).weaken ?_
      · intro r hr
        exact .inr hr
      · exact Set.insert_subset_insert Set.subset_union_left
  | construct _ _ args =>
      intro k K hK hs hk
      have hargs := args (.inr hph) hK hs hk
      refine (hargs.append (Code.passes_constructCode hargs.here _ ?_ _ _ _)).weaken ?_
      · intro r hr
        exact .inr hr
      · exact Set.insert_subset_insert Set.subset_union_left
  | print _ _ arg =>
      intro k K hK hs hk
      have harg := arg hph.2 hK hs hk
      exact harg.append (Code.passes_printCode harg.here _ _ (Set.mem_insert _ _))
  | @callVar x a dst s s₁ fa c ha refers arg =>
      intro k K hK hs hk
      have harg := arg hph.2 hK hs hk
      have hscope : s₁.scope.HeldIn (insert (s.reg 2) K) := by
        rw [ha.grows.scope]
        exact hs.mono (Set.subset_insert _ _)
      have hfunc := harg.append (refers.passes hscope harg.here)
      refine (hfunc.append (Code.passes_callCode hfunc.here ?_ ?_ _ _ _)).weaken ?_
      · exact Set.mem_insert _ _
      · exact Set.mem_insert_of_mem _ (Set.mem_insert _ _)
      · exact Set.insert_subset_insert
          ((Set.subset_insert _ _).trans (Set.subset_insert _ _))
  | @call f a dst s s₁ s₂ ff fa callee hf ha func arg =>
      intro k K hK hs hk
      have hfcases := hf.grows.cases
      have hacases := ha.grows.cases
      have hfunc := func (Expr.regular_of_callee hph.1 callee) hK hs
        (hk.mono (Nat.le_refl _) hacases)
      have hscope : s₁.scope.HeldIn (insert (s.reg 1) K) := by
        rw [hf.grows.scope]
        exact hs.mono (Set.subset_insert _ _)
      have harg := arg hph.2 hfunc.here hscope
        (hfunc.fresh (hk.mono hfcases (Nat.le_refl _)) (.inr (Nat.le_refl _)))
      have hboth := hfunc.seq harg hfcases hacases
      refine (hboth.append (Code.passes_callCode hboth.here ?_ ?_ _ _ _)).weaken ?_
      · exact Set.mem_insert_of_mem _ (Set.mem_insert _ _)
      · exact Set.mem_insert _ _
      · exact Set.insert_subset_insert
          ((Set.subset_insert _ _).trans (Set.subset_insert _ _))
  | head _ => exact fun k K hK _ _ => ⟨trivial, by simpa using hK, fun _ _ => rfl⟩
  | @arg f a s s₁ t regs before fa hf ha func last =>
      intro k K hK hs hk
      obtain ⟨x, hx⟩ | ⟨hfregular, haregular⟩ := hph
      · cases hx
      have hfcases := hf.grows.cases
      have hacases := ha.grows.cases
      have hscope : s₁.scope.HeldIn K := by
        rw [hf.grows.scope]
        exact hs
      -- The last argument is lowered last, but its code comes first.
      have hlast := last haregular hK hscope (hk.mono hfcases (Nat.le_refl _))
      have hothers := func hfregular hlast.here (hs.mono (Set.subset_insert _ _))
        (hlast.fresh (hk.mono (Nat.le_refl _) hacases) (.inl (Nat.le_refl _)))
      refine ((hlast.mono hfcases (Nat.le_refl _)).append
        (hothers.mono (Nat.le_refl _) hacases)).weaken ?_
      rintro r (hr | hr)
      · exact .inl (.inr hr)
      · rcases List.mem_append.mp hr with hr | hr
        · exact .inr hr
        · exact .inl (.inl (List.mem_singleton.mp hr))
  | body _ ih => exact fun k K hK hs hk _ => ih hph hK hs hk
  | @field value field x params e dst s s₁ f hf rest =>
      intro k K hK hs hk hvalue
      have hload : Code.Passes s.cases s₁.cases k [.load (s.reg 1) value field]
          (insert (s.reg 1) K) :=
        .of_straight (by simp) (by simp [Code.Defined, hK hvalue]) hK
          (List.mem_singleton_self _) rfl
      have hscope : (s.scope.bind x (.register x (s.reg 1))).HeldIn (insert (s.reg 1) K) :=
        (hs.mono (Set.subset_insert _ _)).bind (Set.mem_insert _ _) x
      have hrest := rest hph hload.here hscope hk (Set.mem_insert_of_mem _ hvalue)
      exact (hload.append hrest).weaken (Set.insert_subset_insert (Set.subset_insert _ _))
  | noBranch =>
      exact fun k K hK _ _ _ _ _ hend =>
        ⟨⟨trivial, hend, fun _ _ _ => rfl⟩, fun h => h.resolve_left (· rfl)⟩
  | branch hf hr first rest => exact .branch hf hr (first hph.1) (rest hph.2)

theorem Known.fresh_entry (lo hi : Nat) : Known.entry.Fresh lo hi := fun _ _ => rfl

/-- The routine of a lambda starts with its closure and its argument. -/
theorem Lowers.defined_routineCode {mode : Dispatch} {e : Expr} {s t : LowerState}
    {f : Fragment} {closure arg res : Reg} (label : Label)
    (h : Lowers mode (.expr e res) s [] f t) (hs : s.scope.HeldIn {closure, arg})
    (he : e.Regular) : (routineCode label closure arg res f.code).Defined .entry := by
  let k : Known := ⟨{closure, arg}, Known.entry.jumped⟩
  have hstart : Code.scan .entry [.mark label, .movReg closure .callee, .movReg arg .argument] =
      k := by
    simp [k, Known.after, Known.entry, Set.pair_comm]
  have hbody : f.code.Passes s.cases t.cases k (insert res {closure, arg}) :=
    h.safe he subset_rfl hs (fun _ _ => rfl)
  rw [routineCode, Code.defined_append, Code.defined_append, Code.scan_append, hstart]
  refine ⟨⟨by simp [Code.Defined], hbody.defined⟩, ?_⟩
  simpa [Code.Defined] using fun _ => hbody.here (Set.mem_insert _ _)

theorem Lowers.defined_routines {mode : Dispatch} {ph : Phrase} {s t : LowerState}
    {regs : List Reg} {f : Fragment} (h : Lowers mode ph s regs f t) (hph : ph.Regular) :
    ∀ r ∈ f.routines, r.code.Defined .entry := by
  induction h with
  | primitive _ => simp
  | var _ => simp
  | ctor => simp
  | num => simp
  | char => simp
  | caseOf _ _ _ scrutinee branches =>
      obtain ⟨he, -, hbs⟩ := hph
      simpa [or_imp, forall_and] using ⟨scrutinee he, branches hbs⟩
  | letIn _ _ value body => simpa [or_imp, forall_and] using ⟨value hph.1, body hph.2⟩
  | @lam x e dst s s₁ s₂ fe captured loads hcaptured hbody _ _ body =>
      have hnodup : captured.Nodup := hcaptured ▸ nodup_captures _ _ _
      intro r hr
      rcases List.mem_append.mp hr with hr | hr
      · exact body hph r hr
      · rw [List.mem_singleton.mp hr]
        exact hbody.defined_routineCode _ (.routineScope hnodup (by simp) (by simp) x) hph
  | construct _ _ args => simpa using args (.inr hph)
  | print _ _ arg => simpa using arg hph.2
  | callVar _ _ arg => simpa using arg hph.2
  | call callee _ _ func arg =>
      have hf := Expr.regular_of_callee hph.1 callee
      simpa [or_imp, forall_and] using ⟨func hf, arg hph.2⟩
  | head _ => simp
  | arg _ _ func last =>
      obtain ⟨x, hx⟩ | ⟨hf, ha⟩ := hph
      · cases hx
      · simpa [or_imp, forall_and] using ⟨func hf, last ha⟩
  | body _ ih => exact ih hph
  | field _ ih => simpa using ih hph
  | noBranch => simp
  | branch _ _ first rest => simpa [or_imp, forall_and] using ⟨first hph.1, rest hph.2⟩

theorem LowersDefs.defined {mode : Dispatch} {p : Program} {s t : LowerState}
    {fs : List Fragment} (h : LowersDefs mode p s fs t) (hs : s.scope = {})
    (hp : ∀ d ∈ p, d.body.Regular) :
    ∀ f ∈ fs, f.code.Defined .entry ∧ ∀ r ∈ f.routines, r.code.Defined .entry := by
  induction h with
  | nil => simp
  | @cons d rest s s₁ t f fs body _ ih =>
      have hd := hp d (List.mem_cons_self ..)
      have hmark : Code.scan .entry [.mark ⟨d.name⟩] = .entry := by
        simp [Known.after, Known.entry]
      have hbody : f.code.Passes s.cases s₁.cases .entry (insert (s.reg 1) ∅) :=
        body.safe hd (Set.empty_subset _) (hs ▸ .empty ∅) (Known.fresh_entry _ _)
      have hothers := ih (body.grows.scope.trans hs) fun c hc => hp c (List.mem_cons_of_mem _ hc)
      intro g hg
      rcases List.mem_cons.mp hg with rfl | hg
      · refine ⟨?_, by simpa [Def.fragment] using body.defined_routines hd⟩
        simp only [Def.fragment, Fragment.code_append, Fragment.code_ofCode, Code.defined_append,
          Code.scan_append, hmark]
        refine ⟨⟨by simp [Code.Defined], hbody.defined⟩, ?_⟩
        simpa [Code.Defined] using fun _ => hbody.here (Set.mem_insert _ _)
      · exact hothers g hg

namespace Compiler

/-- In the code of a program in which every case has a branch and primitives are applied, a
virtual register is written before it is read on every path through a block. Registers of
definitions are read for definitions of the program only, and each is written once. -/
theorem written_before_read {mode : Dispatch} {p : Program} {code : Code}
    (h : ((new mode).compile p).1 = .ok code) (hregular : ∀ d ∈ p, d.body.Regular) :
    (p ≠ [] → ∃ bodies defs, p.Blocks code bodies defs ∧
      ∀ block ∈ bodies ++ defs, ∀ start, code.Holds start block →
        ∀ visited j, code.Path start visited j → j < start + block.length →
          ∀ x, code[j]? = some x → ∀ r ∈ x.reads, r.isVirtual = true →
            ∃ i ∈ visited, i ∈ Set.Ico start (start + block.length) ∧
              ∃ y, code[i]? = some y ∧ y.writes? = some r) ∧
    (∀ x ∈ code, ∀ name, .global name ∈ x.reads → name ∈ p.map Def.name) ∧
    ∀ name ∈ p.map Def.name, code.countP (Instr.setsGlobal name) = 1 := by
  refine ⟨?_, fun x hx name hname => mem_names_of_reads h hx hname, ?_⟩
  · intro hp
    obtain ⟨fs, hfs, hblocks⟩ := exists_blocks hp h
    refine ⟨_, _, hblocks, ?_⟩
    intro block hblock start hcode visited j hpath hj x hx r hr hvirtual
    have hdefined := hfs.defined rfl hregular
    have hblock : block.Defined .entry := by
      rcases List.mem_append.mp hblock with hblock | hblock
      · obtain ⟨routine, hroutine, rfl⟩ := List.mem_map.mp hblock
        obtain ⟨f, hf, hroutine⟩ := List.mem_flatMap.mp hroutine
        exact (hdefined f hf).2 routine hroutine
      · obtain ⟨f, hf, rfl⟩ := List.mem_map.mp hblock
        exact (hdefined f hf).1
    have hforward (i j : Nat) (hflow : code.Flow i j) : i < j :=
      hblocks.flow_lt (nodup_marks h) hflow
    obtain ⟨i, hi, hstart, hlt, hwrite⟩ :=
      hblock.exists_write hforward hcode hpath hj hx hr hvirtual
    exact ⟨i, hi, ⟨hstart, hlt.trans hj⟩, hwrite⟩
  · intro name hname
    rw [countP_setsGlobal h]
    exact List.count_eq_one_of_mem (compile_eq_ok h).1.distinct hname

/-- A routine that prints in one branch and builds a pair in the other. -/
def printOrPair : Program :=
  [⟨"f", .lam "x" (.caseOf (.var "x")
      [.mk "Box" ["n"] (.app (.var printIntName) (.var "n")),
        .mk "Nil" [] (.app (.app (.ctor "Pair") (.var "x")) (.var "f"))])⟩,
    ⟨"main", .letIn "b" (.app (.ctor "Box") (.num 7)) (.app (.var "f") (.var "b"))⟩]

/-- The code of the routine up to its return. -/
def printOrPairBody : Code :=
  [.mark (.routine 0), .movReg (.virtual 2) .callee, .movReg (.virtual 3) .argument,
    .movReg (.virtual 5) (.virtual 3), .load (.virtual 6) (.virtual 5) 0,
    .movInt (.virtual 7) 8, .jumpEq (.virtual 6) (.virtual 7) (.branch 1 0),
    .movInt (.virtual 7) 6, .jumpEq (.virtual 6) (.virtual 7) (.branch 1 1),
    .mark (.branch 1 0), .load (.virtual 8) (.virtual 5) 1, .movReg (.virtual 4) (.virtual 8),
    .load (.virtual 9) (.virtual 4) 1, .print (.virtual 9), .jump (.caseEnd 1),
    .mark (.branch 1 1), .movReg (.virtual 11) (.global "f"), .movReg (.virtual 10) (.virtual 3),
    .alloc (.virtual 12) 3, .movInt (.virtual 13) 9, .store (.virtual 12) 0 (.virtual 13),
    .store (.virtual 12) 1 (.virtual 10), .store (.virtual 12) 2 (.virtual 11),
    .movReg (.virtual 4) (.virtual 12), .jump (.caseEnd 1), .mark (.caseEnd 1),
    .movReg .result (.virtual 4)]

/-- The path through the second branch passes by the write to the result in the first one. -/
theorem path_printOrPair (rest : Code) :
    Code.Path (.jump ⟨"f"⟩ :: (printOrPairBody ++ rest)) 1
      (List.range' 1 8 ++ [9] ++ List.range' 16 9 ++ [25] ++ [26]) 27 := by
  let code : Code := .jump ⟨"f"⟩ :: (printOrPairBody ++ rest)
  have htests : code.Path 1 (List.range' 1 8) 9 :=
    Code.Path.here.falls (show code.Holds 1 (printOrPairBody.take 8) from ⟨_, rfl⟩)
      (by simp [printOrPairBody])
  have hbranch : code.Path 1 (List.range' 1 8 ++ [9] ++ List.range' 16 9) 25 :=
    (htests.move (.jump rfl rfl rfl)).falls
      (show code.Holds 16 ((printOrPairBody.drop 15).take 9) from ⟨_, rfl⟩)
      (by simp [printOrPairBody])
  exact (hbranch.move (.jump rfl rfl (j := 26) rfl)).move (.next rfl trivial)

theorem written_before_read_printOrPair : ∃ code,
    ((new .tag).compile printOrPair).1 = .ok code ∧ (∀ d ∈ printOrPair, d.body.Regular) ∧
      (∃ bodies defs, printOrPair.Blocks code bodies defs) ∧
      code[27]? = some (.movReg .result (.virtual 4)) ∧
      (∃ visited, code.Path 1 visited 27 ∧ 12 ∉ visited ∧
        ∃ i ∈ visited, ∃ y, code[i]? = some y ∧ y.writes? = some (.virtual 4)) ∧
      code.countP (Instr.setsGlobal "f") = 1 := by
  obtain ⟨code, h⟩ := exists_code .tag printOrPair (by decide +kernel)
  have hregular : ∀ d ∈ printOrPair, d.body.Regular := by
    simp [printOrPair, Expr.Regular, RegularBranches]
    decide
  obtain ⟨rest, rfl⟩ : ∃ rest, code = .jump ⟨"f"⟩ :: (printOrPairBody ++ rest) := by
    have hstart : ((new .tag).compile printOrPair).1.toOption.any
        fun code => (.jump ⟨"f"⟩ :: printOrPairBody).isPrefixOf code := by
      decide +kernel
    rw [h] at hstart
    obtain ⟨rest, hrest⟩ := List.isPrefixOf_iff_prefix.mp hstart
    exact ⟨rest, hrest.symm⟩
  obtain ⟨hpaths, -, hwrites⟩ := written_before_read h hregular
  obtain ⟨bodies, defs, hblocks, hwritten⟩ := hpaths (by simp [printOrPair])
  obtain ⟨block, rfl, hblock⟩ := hblocks.routines.eq_singleton
  obtain ⟨d, -, hcode⟩ := hblocks.code_eq
  have hholds : Code.Holds (.jump ⟨"f"⟩ :: (printOrPairBody ++ rest)) 1 block := by
    rw [hcode, List.flatten_singleton]
    exact List.prefix_append block defs.flatten
  have hlong := hblock.length_lt hholds (List.prefix_append printOrPairBody rest) (by decide)
  have hpath := path_printOrPair rest
  obtain ⟨i, hi, -, hwrite⟩ := hwritten block (by simp) 1 hholds _ 27 hpath
    (by rw [Nat.add_comm]; exact Nat.lt_add_right 1 hlong) _ rfl (.virtual 4) (by simp) (by decide)
  exact ⟨_, h, hregular, ⟨_, _, hblocks⟩, rfl, ⟨_, hpath, by decide, i, hi, hwrite⟩,
    hwrites "f" (by simp [printOrPair])⟩

end Compiler

end Lowering
