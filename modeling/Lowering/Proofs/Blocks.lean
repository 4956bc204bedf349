import Mathlib.Data.List.Intervals
import Lowering.Proofs.Labels
import Lowering.Proofs.Pieces

/-!
# Blocks of code

The code of a program is a jump to its first definition, the routines of its lambdas and
the code of its definitions, each a block of its own. `Code.Forward` is what holds of the
code inside of a block: it does not return, and it only jumps to marks further on. It is
stated relative to marks that are still to come, since the comparisons of a case jump to
its branches and each branch jumps to the end of the case.
-/

namespace Lowering

/-- The label that an instruction may jump to. -/
@[simp] def Instr.target? : Instr → Option Label
  | .jump label => some label
  | .jumpEq _ _ label => some label
  | _ => none

/-- The instruction is run after the one before it and followed by the next one. -/
@[simp] def Instr.Straight : Instr → Prop
  | .mark _ | .jump _ | .jumpEq _ _ _ | .ret => False
  | _ => True

theorem Instr.Straight.target?_eq {x : Instr} (h : x.Straight) : x.target? = none := by
  cases x <;> simp_all

namespace Code

/-- The code does not return, and each of its jumps goes to a mark further on or to one of the
labels `exits`. -/
def Forward (exits : Label → Prop) : Code → Prop
  | [] => True
  | x :: rest =>
    x ≠ .ret ∧ (∀ l, x.target? = some l → .mark l ∈ rest ∨ exits l) ∧ Forward exits rest

/-- The code is run from its start to its end. -/
abbrev Straight (code : Code) : Prop := code.Each Instr.Straight

variable {exits exits' : Label → Prop} {c d : Code}

theorem Forward.mono (h : c.Forward exits) (hexits : ∀ l, exits l → exits' l) :
    c.Forward exits' := by
  induction c with
  | nil => trivial
  | cons x rest ih =>
      obtain ⟨hret, htarget, hrest⟩ := h
      refine ⟨hret, ?_, ih hrest⟩
      intro l hl
      exact (htarget l hl).imp_right (hexits l)

/-- Marks of the code that follows are no exits any more. -/
theorem forward_append :
    Forward exits (c ++ d) ↔ c.Forward (fun l => .mark l ∈ d ∨ exits l) ∧ d.Forward exits := by
  induction c with
  | nil => simp [Forward]
  | cons x rest ih =>
      simp only [List.cons_append, Forward, ih, List.mem_append, or_assoc, and_assoc]

theorem Forward.append (hc : c.Forward exits) (hd : d.Forward exits) :
    Forward exits (c ++ d) :=
  forward_append.mpr ⟨hc.mono fun _ => .inr, hd⟩

theorem Straight.forward (h : c.Straight) : c.Forward exits := by
  induction c with
  | nil => trivial
  | cons x rest ih =>
      have hx := h x (List.mem_cons_self ..)
      refine ⟨?_, ?_, ih fun y hy => h y (List.mem_cons_of_mem _ hy)⟩
      · rintro rfl
        exact hx
      · intro l hl
        rw [hx.target?_eq] at hl
        cases hl

theorem Forward.ret_not_mem (h : c.Forward exits) : .ret ∉ c := by
  induction c with
  | nil => simp
  | cons x rest ih =>
      obtain ⟨hret, -, hrest⟩ := h
      simp [Ne.symm hret, ih hrest]

theorem straight_building {obj tmp dst : Reg} {fields : List Reg} :
    Building Instr.Straight obj tmp dst fields := by
  constructor <;> simp

theorem straight_printCode (x : String) (tmp dst : Reg) : (printCode x tmp dst).Straight :=
  each_printCode trivial trivial trivial x

theorem straight_callCode (func arg address res dst : Reg) :
    (callCode func arg address res dst).Straight := by
  simp [each_callCode]

end Code

theorem Refers.straight {x : String} {dst : Reg} {s : LowerState} {c : Code}
    (h : Refers x dst s c) : c.Straight := by
  cases h <;> simp

theorem RefersAll.straight {xs : List String} {s : LowerState} {c : Code}
    (h : RefersAll xs s c) : c.Straight :=
  h.each fun _ _ _ _ hc => hc.straight

/-- The comparisons of a case jump to its branches. -/
theorem Compares.forward {mode : Dispatch} {id : Nat} {tagReg wanted : Reg} {index : Nat}
    {bs : List Branch} {s t : LowerState} {code : Code}
    (h : Compares mode id tagReg wanted index bs s code t) :
    code.Forward fun l => ∃ i < bs.length, l = .branch id (index + i) := by
  induction h with
  | nil => trivial
  | @cons index b bs s t cs rest ih =>
      refine ⟨by simp, by simp, by simp, ?_, ih.mono ?_⟩
      · intro l hl
        cases hl
        exact .inr ⟨0, by simp, rfl⟩
      · rintro l ⟨i, hi, rfl⟩
        exact ⟨i + 1, by simpa using hi, by rw [Nat.add_right_comm, Nat.add_assoc]⟩

theorem Lowers.mark_mem_branches {mode : Dispatch} {id : Nat} {value : Reg} {index : Nat}
    {bs : List Branch} {dst : Reg} {s t : LowerState} {regs : List Reg} {f : Fragment}
    (h : Lowers mode (.branches id value index bs dst) s regs f t) :
    ∀ i < bs.length, .mark (.branch id (index + i)) ∈ f.code := by
  induction bs generalizing index s regs f with
  | nil => simp
  | cons b bs ih =>
      cases h with
      | branch first rest =>
          intro i hi
          cases i with
          | zero => simp
          | succ i =>
              have hmem := ih rest i (by simpa using hi)
              rw [Nat.add_assoc, Nat.add_comm 1 i] at hmem
              simp [hmem]

/-- The block only jumps to marks of its own, and forward. -/
def Code.JumpsForward (block : Code) : Prop :=
  ∀ (i : Nat) (x : Instr) (l : Label), block[i]? = some x → x.target? = some l →
    ∃ j, i < j ∧ block[j]? = some (.mark l)

/-- The block of a routine opens with the mark of its number and returns at its end only. -/
structure Code.IsRoutine (block : Code) (number : Nat) : Prop where
  opens : block.head? = some (.mark (.routine number))
  returns : ∀ i, block[i]? = some .ret ↔ i + 1 = block.length
  jumps : block.JumpsForward

/-- The block of a definition opens with the mark of its name, ends by setting its global and
does not return. -/
structure Code.IsDefinition (block : Code) (name : String) : Prop where
  opens : block.head? = some (.mark ⟨name⟩)
  sets : ∃ value, block.getLast? = some (.movReg (.global name) value)
  noReturn : .ret ∉ block
  jumps : block.JumpsForward

namespace Code

theorem IsRoutine.ne_nil {block : Code} {n : Nat} (h : block.IsRoutine n) : block ≠ [] := by
  rintro rfl
  simpa using h.opens

theorem IsRoutine.ret_at_end {block : Code} {n : Nat} (h : block.IsRoutine n) :
    block[block.length - 1]? = some .ret :=
  (h.returns _).mpr (Nat.sub_add_cancel (List.length_pos_iff.mpr h.ne_nil))

/-- Code that does not return is no whole routine. -/
theorem IsRoutine.length_lt {block c code : Code} {n : Nat} (h : block.IsRoutine n)
    (hblock : block <+: code) (hc : c <+: code) (hret : .ret ∉ c) : c.length < block.length := by
  by_contra hle
  have hsub := List.prefix_of_prefix_length_le hblock hc (Nat.le_of_not_lt hle)
  exact hret (hsub.subset (List.mem_of_getElem? h.ret_at_end))

theorem Forward.jumpsForward {block : Code} (h : block.Forward fun _ => False) :
    block.JumpsForward := by
  intro i x l hx hl
  induction block generalizing i with
  | nil => simp at hx
  | cons y rest ih =>
      obtain ⟨-, htarget, hrest⟩ := h
      cases i with
      | zero =>
          cases hx
          obtain ⟨j, hj⟩ := List.mem_iff_getElem?.mp ((htarget l hl).resolve_right id)
          exact ⟨j + 1, Nat.succ_pos j, hj⟩
      | succ i =>
          obtain ⟨j, hij, hj⟩ := ih hrest i hx
          exact ⟨j + 1, Nat.succ_lt_succ hij, hj⟩

/-- An instruction at the end that does not jump does not matter. -/
theorem JumpsForward.append_singleton {block : Code} (h : block.JumpsForward) {x : Instr}
    (hx : x.target? = none) : JumpsForward (block ++ [x]) := by
  intro i y l hy hl
  rcases Nat.lt_or_ge i block.length with hi | hi
  · rw [List.getElem?_append_left hi] at hy
    obtain ⟨j, hij, hj⟩ := h i y l hy hl
    exact ⟨j, hij, List.getElem?_append_left (List.getElem?_eq_some_iff.mp hj).1 ▸ hj⟩
  · rw [List.getElem?_append_right hi] at hy
    rw [List.mem_singleton.mp (List.mem_of_getElem? hy), hx] at hl
    cases hl

theorem isRoutine_routineCode {n : Nat} {closure arg res : Reg} {body : Code}
    (h : body.Forward fun _ => False) :
    (routineCode (.routine n) closure arg res body).IsRoutine n := by
  have hbody : Forward (fun _ => False) ([.mark (.routine n), .movReg closure .callee,
      .movReg arg .argument] ++ body ++ [.movReg .result res]) := by
    refine Forward.append (Forward.append ?_ h) ?_
    · simp [Forward]
    · simp [Forward]
  have hcode : routineCode (.routine n) closure arg res body =
      [.mark (.routine n), .movReg closure .callee, .movReg arg .argument] ++ body ++
        [.movReg .result res] ++ [.ret] := by
    simp [routineCode]
  rw [hcode]
  refine ⟨rfl, ?_, hbody.jumpsForward.append_singleton rfl⟩
  intro i
  have hret := hbody.ret_not_mem
  generalize [Instr.mark (.routine n), .movReg closure .callee, .movReg arg .argument] ++ body ++
    [.movReg .result res] = c at hret
  constructor
  · intro hi
    rcases Nat.lt_or_ge i c.length with hlt | hge
    · rw [List.getElem?_append_left hlt] at hi
      exact absurd (List.mem_of_getElem? hi) hret
    · have := (List.getElem?_eq_some_iff.mp hi).1
      simp at this ⊢
      omega
  · intro hi
    obtain rfl : i = c.length := by simpa using hi
    simp

theorem isDefinition_fragment {d : Def} {value : Reg} {f : Fragment}
    (h : f.code.Forward fun _ => False) : (d.fragment value f).code.IsDefinition d.name := by
  have hbody : Forward (fun _ => False) ([Instr.mark ⟨d.name⟩] ++ f.code) :=
    Forward.append (by simp [Forward]) h
  refine ⟨rfl, ⟨value, List.getLast?_concat⟩, ?_, hbody.jumpsForward.append_singleton rfl⟩
  have hret := hbody.ret_not_mem
  simp only [Def.fragment, Fragment.code_append, Fragment.code_ofCode, List.mem_append,
    List.mem_singleton, reduceCtorEq, or_false]
  simpa using hret

end Code

theorem exists_rel_of_mem {α β : Type} {R : α → β → Prop} {as : List α} {bs : List β}
    (h : List.Forall₂ R as bs) {a : α} (ha : a ∈ as) : ∃ b ∈ bs, R a b := by
  induction h with
  | nil => simp at ha
  | cons hab _ ih =>
      rcases List.mem_cons.mp ha with rfl | ha
      · exact ⟨_, List.mem_cons_self .., hab⟩
      · obtain ⟨b, hb, hrel⟩ := ih ha
        exact ⟨b, List.mem_cons_of_mem _ hb, hrel⟩

/-- The blocks are routines, and their numbers are those from `lo` to `hi` in some order. -/
def Routines (lo hi : Nat) (blocks : List Code) : Prop :=
  ∃ numbers : List Nat, numbers.Perm (List.Ico lo hi) ∧ List.Forall₂ Code.IsRoutine blocks numbers

namespace Routines

variable {lo mid hi : Nat} {blocks others : List Code}

theorem nil (n : Nat) : Routines n n [] := ⟨[], by simp, .nil⟩

theorem append (h : Routines lo mid blocks) (h' : Routines mid hi others) (hlo : lo ≤ mid)
    (hhi : mid ≤ hi) : Routines lo hi (blocks ++ others) := by
  obtain ⟨numbers, hperm, hblocks⟩ := h
  obtain ⟨numbers', hperm', hothers⟩ := h'
  refine ⟨numbers ++ numbers', ?_, List.rel_append hblocks hothers⟩
  rw [← List.Ico.append_consecutive hlo hhi]
  exact hperm.append hperm'

theorem append_singleton {block : Code} (h : Routines (lo + 1) hi blocks)
    (hblock : block.IsRoutine lo) (hhi : lo < hi) : Routines lo hi (blocks ++ [block]) := by
  obtain ⟨numbers, hperm, hblocks⟩ := h
  refine ⟨numbers ++ [lo], ?_, List.rel_append hblocks (.cons hblock .nil)⟩
  rw [List.Ico.eq_cons hhi]
  exact (hperm.append_right [lo]).trans (List.perm_append_singleton lo _)

theorem eq_singleton (h : Routines lo (lo + 1) blocks) :
    ∃ block, blocks = [block] ∧ block.IsRoutine lo := by
  obtain ⟨numbers, hperm, hblocks⟩ := h
  rw [List.Ico.succ_singleton, List.perm_singleton] at hperm
  subst hperm
  cases hblocks with
  | cons hblock hnil =>
      cases hnil
      exact ⟨_, rfl, hblock⟩

theorem isRoutine (h : Routines lo hi blocks) {block : Code} (hblock : block ∈ blocks) :
    ∃ n, block.IsRoutine n := by
  obtain ⟨numbers, -, hblocks⟩ := h
  obtain ⟨n, -, hn⟩ := exists_rel_of_mem hblocks hblock
  exact ⟨n, hn⟩

theorem exists_opening (h : Routines lo hi blocks) {n : Nat} (hlo : lo ≤ n) (hhi : n < hi) :
    ∃ block ∈ blocks, block.head? = some (.mark (.routine n)) := by
  obtain ⟨numbers, hperm, hblocks⟩ := h
  have hn : n ∈ numbers := hperm.mem_iff.mpr (List.Ico.mem.mpr ⟨hlo, hhi⟩)
  obtain ⟨block, hblock, hn⟩ := exists_rel_of_mem hblocks.flip hn
  exact ⟨block, hblock, hn.opens⟩

end Routines

/-- The labels outside of its own code that a phrase may jump to. -/
@[simp] def Phrase.Exits : Phrase → Label → Prop
  | .branches id _ _ _ _, l => l = .caseEnd id
  | _, _ => False

theorem Lowers.forward {mode : Dispatch} {ph : Phrase} {s t : LowerState} {regs : List Reg}
    {f : Fragment} (h : Lowers mode ph s regs f t) : f.code.Forward ph.Exits := by
  induction h with
  | primitive _ => exact (Code.straight_printCode _ _ _).forward
  | var refers => exact refers.straight.forward
  | ctor => exact Code.Straight.forward (Code.straight_building.ctorCode _)
  | num => exact Code.Straight.forward (Code.straight_building.boxedCode _ _)
  | char => exact Code.Straight.forward (Code.straight_building.boxedCode _ _)
  | @caseOf e bs dst s s₁ s₂ t fe fb tests _ compares hb scrutinee branches =>
      -- The branches come after the comparisons, and the end of the case after the branches.
      have htests : Code.Forward (fun l => .mark l ∈ fb.code ∨ l = .caseEnd (s.cases + 1))
          (.load (s.reg 2) (s.reg 1) 0 :: tests) := by
        refine ⟨by simp, by simp, compares.forward.mono ?_⟩
        rintro l ⟨i, hi, rfl⟩
        exact .inl (hb.mark_mem_branches i hi)
      simp only [Fragment.code_append, Fragment.code_ofCode, List.append_assoc]
      refine scrutinee.append (Code.forward_append.mpr ⟨htests.mono ?_,
        Code.forward_append.mpr ⟨branches.mono ?_, by simp [Code.Forward]⟩⟩)
      · rintro l (hl | rfl)
        · exact .inl (by simp [hl])
        · exact .inl (by simp)
      · rintro l rfl
        exact .inl (by simp)
  | letIn _ _ value body => exact value.append body
  | lam _ _ values _ _ =>
      exact values.straight.forward.append
        (Code.Straight.forward (Code.straight_building.closureCode _ _))
  | construct _ _ args =>
      exact args.append (Code.Straight.forward (Code.straight_building.constructCode _))
  | print _ _ arg => exact arg.append (Code.straight_printCode _ _ _).forward
  | callVar _ refers arg =>
      exact (arg.append refers.straight.forward).append (Code.straight_callCode _ _ _ _ _).forward
  | call _ _ _ func arg =>
      exact (func.append arg).append (Code.straight_callCode _ _ _ _ _).forward
  | head _ => trivial
  | arg _ _ func last => exact last.append func
  | body _ ih => exact ih
  | field _ ih => exact Code.Forward.append (Code.Straight.forward (by simp)) ih
  | noBranch => trivial
  | branch _ _ first rest =>
      refine ((Code.Forward.append ?_ (first.mono fun _ h => h.elim)).append ?_).append rest
      · simp [Code.Forward]
      · simp [Code.Forward]

theorem Lowers.routines {mode : Dispatch} {ph : Phrase} {s t : LowerState} {regs : List Reg}
    {f : Fragment} (h : Lowers mode ph s regs f t) :
    Routines s.routines t.routines (f.routines.map Routine.code) := by
  induction h with
  | primitive _ => exact .nil _
  | var _ => exact .nil _
  | ctor => exact .nil _
  | num => exact .nil _
  | char => exact .nil _
  | caseOf he compares hb scrutinee branches =>
      have hcompares := compares.counters.1
      have hbranches := hb.grows.routines
      simp only [Fragment.routines_append, Fragment.routines_ofCode, List.append_nil,
        List.map_append]
      rw [hcompares] at branches hbranches
      exact scrutinee.append branches he.grows.routines hbranches
  | letIn hv hb value body =>
      rw [Fragment.routines_append, List.map_append]
      exact value.append body hv.grows.routines hb.grows.routines
  | @lam x e dst s s₁ s₂ fe captured loads _ he _ hs₂ body =>
      subst hs₂
      rw [List.map_append]
      exact body.append_singleton (Code.isRoutine_routineCode he.forward) he.grows.routines
  | construct _ _ args =>
      rw [Fragment.routines_append, List.map_append]
      simpa using args
  | print _ _ arg =>
      rw [Fragment.routines_append, List.map_append]
      simpa using arg
  | callVar _ _ arg =>
      simp only [Fragment.routines_append, Fragment.routines_ofCode, List.append_nil]
      exact arg
  | call _ hf ha func arg =>
      simp only [Fragment.routines_append, Fragment.routines_ofCode, List.append_nil,
        List.map_append]
      exact func.append arg hf.grows.routines ha.grows.routines
  | head _ => exact .nil _
  | arg hf ha func last =>
      rw [Fragment.routines_prepend, List.map_append]
      exact func.append last hf.grows.routines ha.grows.routines
  | body _ ih => exact ih
  | field _ ih => exact ih
  | noBranch => exact .nil _
  | branch hf hr first rest =>
      simp only [Fragment.routines_append, Fragment.routines_ofCode, List.append_nil,
        List.nil_append, List.map_append]
      exact first.append rest hf.grows.routines hr.grows.routines

theorem LowersDefs.routines {mode : Dispatch} {p : Program} {s t : LowerState}
    {fs : List Fragment} (h : LowersDefs mode p s fs t) :
    Routines s.routines t.routines ((fs.flatMap Fragment.routines).map Routine.code) := by
  induction h with
  | nil s => exact .nil _
  | cons hbody hothers ih =>
      rw [List.flatMap_cons, List.map_append]
      refine Routines.append ?_ ih hbody.grows.routines hothers.grows.routines
      simpa [Def.fragment] using hbody.routines

theorem LowersDefs.definitions {mode : Dispatch} {p : Program} {s t : LowerState}
    {fs : List Fragment} (h : LowersDefs mode p s fs t) :
    List.Forall₂ (fun block d => block.IsDefinition d.name) (fs.map Fragment.code) p := by
  induction h with
  | nil s => exact .nil
  | cons hbody _ ih => exact .cons (Code.isDefinition_fragment hbody.forward) ih

/-- The code starts with a jump to the first definition. The blocks of the routines follow, then
those of the definitions, in order. Only addresses of routines are taken. -/
structure Program.Blocks (p : Program) (code : Code) (bodies defs : List Code) : Prop where
  code_eq : ∃ d, p.head? = some d ∧ code = .jump ⟨d.name⟩ :: (bodies.flatten ++ defs.flatten)
  routines : Routines 0 p.lambdas.length bodies
  definitions : List.Forall₂ (fun block d => block.IsDefinition d.name) defs p
  taken : ∀ r l, .movLabel r l ∈ code → ∃ block ∈ bodies, block.head? = some (.mark l)

theorem LowersDefs.counters {mode : Dispatch} {p : Program} {s t : LowerState}
    {fs : List Fragment} (h : LowersDefs mode p s fs t) :
    t.routines = s.routines + p.lambdas.length ∧ t.cases = s.cases + p.cases.length := by
  induction h with
  | nil s => exact ⟨rfl, rfl⟩
  | cons hbody _ ih =>
      have hcounters := hbody.counters
      simp [Program.lambdas, Program.cases] at hcounters ih ⊢
      omega

theorem Compiler.taken_eq {mode : Dispatch} {p : Program} {code : Code}
    (h : ((new mode).compile p).1 = .ok code) {r : Reg} {l : Label} (hl : .movLabel r l ∈ code) :
    ∃ n < p.lambdas.length, l = .routine n := by
  have htaken : l ∈ code.taken :=
    List.mem_filterMap.mpr ⟨.take l, List.mem_filterMap.mpr ⟨_, hl, rfl⟩, rfl⟩
  have hperm : code.taken.Perm ((List.range p.lambdas.length).map .routine) := by
    rw [← p.filterMap_taken?_uses]
    exact (uses_perm h).filterMap _
  obtain ⟨n, hn, rfl⟩ := List.mem_map.mp (hperm.mem_iff.mp htaken)
  exact ⟨n, List.mem_range.mp hn, rfl⟩

/-- An accepted program is made of blocks: the routines in the order in which their lambdas
are left, and the definitions. -/
theorem Compiler.exists_blocks {mode : Dispatch} {p : Program} {code : Code} (hp : p ≠ [])
    (h : ((new mode).compile p).1 = .ok code) :
    ∃ fs, LowersDefs mode p (.declared (p.map Def.name)) fs ((new mode).compile p).2.state ∧
      p.Blocks code ((fs.flatMap Fragment.routines).map Routine.code) (fs.map Fragment.code) := by
  obtain ⟨-, fs, hfs, hcode⟩ := compile_eq_ok h
  have hroutines := hfs.routines
  rw [LowerState.routines_declared, hfs.counters.1, LowerState.routines_declared,
    Nat.zero_add] at hroutines
  refine ⟨fs, hfs, ?_, hroutines, hfs.definitions, ?_⟩
  · cases p with
    | nil => exact absurd rfl hp
    | cons d rest =>
        refine ⟨d, rfl, ?_⟩
        rw [hcode, ← List.flatMap_def, ← List.flatMap_def]
        rfl
  · intro r l hl
    obtain ⟨n, hn, rfl⟩ := taken_eq h hl
    exact hroutines.exists_opening (Nat.zero_le n) hn

end Lowering
