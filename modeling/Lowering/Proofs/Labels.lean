import Lowering.Expr.Parts
import Lowering.Proofs.ProgramRules

/-!
# Labels are unique and closed

Every lambda of a program gets a routine label of its own and every case expression an
id of its own, both in source order. `Lowers.tally_eq` counts every use of a label in
lowered code: the marks, the jumps and the addresses that are taken. A program's labels
are marked once each, and nothing uses a label that is not marked.
-/

namespace Lowering

/-- What code does with a label. -/
inductive LabelUse where
  | mark (label : Label)
  /-- The address of the label is taken. -/
  | take (label : Label)
  | jump (label : Label)
  deriving DecidableEq

namespace LabelUse

def marked? : LabelUse → Option Label
  | .mark label => some label
  | _ => none

def taken? : LabelUse → Option Label
  | .take label => some label
  | _ => none

/-- The label of a use that needs a mark elsewhere. -/
def target? : LabelUse → Option Label
  | .mark _ => none
  | .take label => some label
  | .jump label => some label

end LabelUse

@[simp] def Instr.use? : Instr → Option LabelUse
  | .mark label => some (.mark label)
  | .movLabel _ label => some (.take label)
  | .jump label => some (.jump label)
  | .jumpEq _ _ label => some (.jump label)
  | _ => none

namespace Code

/-- The uses of labels in code. -/
def uses (code : Code) : List LabelUse := code.filterMap Instr.use?

/-- The labels that are marked. -/
def marks (code : Code) : List Label := code.uses.filterMap LabelUse.marked?

/-- The labels whose address is taken. -/
def taken (code : Code) : List Label := code.uses.filterMap LabelUse.taken?

/-- The labels that are jumped to or whose address is taken. -/
def targets (code : Code) : List Label := code.uses.filterMap LabelUse.target?

@[simp] theorem uses_nil : uses [] = [] := rfl

@[simp] theorem uses_cons (i : Instr) (c : Code) : uses (i :: c) = i.use?.toList ++ uses c := by
  rw [uses, List.filterMap_cons]
  cases i.use? <;> rfl

@[simp] theorem uses_append (c d : Code) : uses (c ++ d) = uses c ++ uses d :=
  List.filterMap_append

end Code

/-- How often a use occurs in the code of a fragment. -/
def Fragment.tally (u : LabelUse) (f : Fragment) : Nat := f.allCode.uses.count u

section

variable (u : LabelUse)

theorem Fragment.tally_eq (f : Fragment) :
    f.tally u = f.code.uses.count u + (Code.uses (f.routines.flatMap Routine.code)).count u := by
  simp [tally, allCode]

@[simp] theorem Fragment.tally_ofCode (code : Code) :
    (Fragment.ofCode code).tally u = code.uses.count u := by
  simp [tally_eq, Code.uses]

@[simp] theorem Fragment.tally_append (f g : Fragment) :
    (f ++ g).tally u = f.tally u + g.tally u := by
  simp [tally_eq]
  omega

@[simp] theorem Fragment.tally_prepend (f g : Fragment) :
    (f.prepend g).tally u = f.tally u + g.tally u := by
  simp [tally_eq]
  omega

@[simp] theorem Fragment.tally_empty : (∅ : Fragment).tally u = 0 := rfl

/-- The body of a lambda counts wherever its code is placed. -/
theorem Fragment.tally_lambda (code : Code) (f : Fragment) (label : Label)
    (closure arg res : Reg) (free : List String) :
    Fragment.tally u
        ⟨code, f.routines ++ [⟨label, routineCode label closure arg res f.code, free⟩]⟩ =
      code.uses.count u + [LabelUse.mark label].count u + f.tally u := by
  simp [tally_eq, routineCode, List.count_cons]
  omega

end

namespace Phrase

@[simp] def lambdas (ph : Phrase) : List (String × Expr) := ph.parts.flatMap Expr.lambdas

@[simp] def cases (ph : Phrase) : List (List Branch) := ph.parts.flatMap Expr.cases

end Phrase

/-- A chain of a constructor has the lambdas of its arguments. -/
theorem Expr.lambdas_of_callee_ctor {f a : Expr} {c : String} {n : Nat}
    (h : f.callee = .ctor c n) :
    (Expr.app f a).lambdas = (Expr.app f a).spine.2.flatMap Expr.lambdas := by
  have hspine := collected_eq_spine (g := Expr.lambdas) (fun _ _ => rfl) (.app f a)
  rw [← hspine, spine_app, (spine_of_callee_ctor h).1]
  rfl

theorem Expr.cases_of_callee_ctor {f a : Expr} {c : String} {n : Nat}
    (h : f.callee = .ctor c n) :
    (Expr.app f a).cases = (Expr.app f a).spine.2.flatMap Expr.cases := by
  have hspine := collected_eq_spine (g := Expr.cases) (fun _ _ => rfl) (.app f a)
  rw [← hspine, spine_app, (spine_of_callee_ctor h).1]
  rfl

theorem Compares.counters {mode : Dispatch} {id : Nat} {tagReg wanted : Reg} {index : Nat}
    {bs : List Branch} {s t : LowerState} {code : Code}
    (h : Compares mode id tagReg wanted index bs s code t) :
    t.routines = s.routines ∧ t.cases = s.cases ∧ t.next = s.next := by
  induction h with
  | nil => exact ⟨rfl, rfl, rfl⟩
  | cons _ ih =>
      cases mode with
      | position => exact ih
      | tag => exact ih

/-- Each lambda takes one routine number and each case expression one id. -/
theorem Lowers.counters {mode : Dispatch} {ph : Phrase} {s t : LowerState} {regs : List Reg}
    {f : Fragment} (h : Lowers mode ph s regs f t) :
    t.routines = s.routines + ph.lambdas.length ∧ t.cases = s.cases + ph.cases.length := by
  induction h with
  | primitive _ => exact ⟨rfl, rfl⟩
  | var _ => exact ⟨rfl, rfl⟩
  | ctor => exact ⟨rfl, rfl⟩
  | num => exact ⟨rfl, rfl⟩
  | char => exact ⟨rfl, rfl⟩
  | caseOf _ compares _ scrutinee branches =>
      have hc := compares.counters
      simp [Expr.lambdas, Expr.cases, lambdasInBranches_eq, casesInBranches_eq] at *
      omega
  | letIn _ _ value body =>
      simp [Expr.lambdas, Expr.cases] at *
      omega
  | lam _ _ _ hs₂ body =>
      subst hs₂
      simp [Expr.lambdas, Expr.cases] at *
      omega
  | construct callee _ args =>
      simp [Expr.lambdas_of_callee_ctor callee, Expr.cases_of_callee_ctor callee] at *
      omega
  | print _ _ arg => simpa [Expr.lambdas, Expr.cases] using arg
  | callVar _ _ arg => simpa [Expr.lambdas, Expr.cases] using arg
  | call _ _ _ func arg =>
      simp [Expr.lambdas, Expr.cases] at *
      omega
  | head notApp => simp [Expr.spine_of_not_app notApp]
  | arg _ _ func last =>
      simp [Expr.spine_app] at *
      omega
  | body _ ih => exact ih
  | field _ ih => exact ih
  | noBranch => exact ⟨rfl, rfl⟩
  | branch _ _ first rest =>
      simp [Branch.body] at *
      omega

/-- The uses of the label of a routine: it is marked, and its closure holds its address. -/
def routineUses (n : Nat) : List LabelUse := [.mark (.routine n), .take (.routine n)]

/-- The uses of labels in the branches of a case: each is marked, and jumps to the end. -/
def branchUses (id index count : Nat) : List LabelUse :=
  (List.range' index count).flatMap fun i => [.mark (.branch id i), .jump (.caseEnd id)]

/-- The uses of labels in the comparisons of a case. -/
def testUses (id index count : Nat) : List LabelUse :=
  (List.range' index count).map fun i => .jump (.branch id i)

/-- The uses of the labels of a case with `count` branches. -/
def caseUses (id count : Nat) : List LabelUse :=
  .mark (.caseEnd id) :: testUses id 0 count ++ branchUses id 0 count

/-- The uses of labels for lambdas that are numbered from `r` on and cases whose ids follow
`c`. -/
def usesFrom (r c : Nat) (lambdas : List (String × Expr)) (cases : List (List Branch)) :
    List LabelUse :=
  (List.range' r lambdas.length).flatMap routineUses ++
    (cases.zipIdx (c + 1)).flatMap fun (bs, id) => caseUses id bs.length

/-- How often a use occurs among those of some expressions. -/
def useCount (u : LabelUse) (r c : Nat) (es : List Expr) : Nat :=
  (usesFrom r c (es.flatMap Expr.lambdas) (es.flatMap Expr.cases)).count u

section

variable {u : LabelUse} {r c : Nat}

@[simp] theorem useCount_nil : useCount u r c [] = 0 := rfl

@[simp] theorem useCount_var (x : String) : useCount u r c [.var x] = 0 := rfl

/-- Numbers continue where those of the expressions before end. -/
theorem useCount_append (es fs : List Expr) :
    useCount u r c (es ++ fs) = useCount u r c es +
      useCount u (r + (es.flatMap Expr.lambdas).length) (c + (es.flatMap Expr.cases).length)
        fs := by
  simp only [useCount, usesFrom, List.flatMap_append, List.length_append, List.zipIdx_append,
    List.count_append, ← List.range'_append_1, Nat.add_right_comm c]
  omega

theorem useCount_cons (e : Expr) (es : List Expr) :
    useCount u r c (e :: es) = useCount u r c [e] +
      useCount u (r + e.lambdas.length) (c + e.cases.length) es := by
  simpa using useCount_append [e] es

theorem useCount_congr {es : List Expr} (fs : List Expr)
    (hl : es.flatMap Expr.lambdas = fs.flatMap Expr.lambdas)
    (hc : es.flatMap Expr.cases = fs.flatMap Expr.cases) :
    useCount u r c es = useCount u r c fs := by
  rw [useCount, useCount, hl, hc]

/-- An expression whose parts are `a` and `b` numbers them in this order. -/
theorem useCount_of_parts {e a b : Expr} (hl : e.lambdas = a.lambdas ++ b.lambdas)
    (hc : e.cases = a.cases ++ b.cases) :
    useCount u r c [e] = useCount u r c [a] +
      useCount u (r + a.lambdas.length) (c + a.cases.length) [b] := by
  rw [useCount_congr [a, b] (by simp [hl]) (by simp [hc]), useCount_cons]

theorem useCount_letIn (x : String) (v b : Expr) :
    useCount u r c [.letIn x v b] = useCount u r c [v] +
      useCount u (r + v.lambdas.length) (c + v.cases.length) [b] :=
  useCount_of_parts rfl rfl

theorem useCount_app (f a : Expr) :
    useCount u r c [.app f a] = useCount u r c [f] +
      useCount u (r + f.lambdas.length) (c + f.cases.length) [a] :=
  useCount_of_parts rfl rfl

theorem useCount_lam (x : String) (e : Expr) :
    useCount u r c [.lam x e] = (routineUses r).count u + useCount u (r + 1) c [e] := by
  simp only [useCount, usesFrom, List.flatMap_cons, List.flatMap_nil, List.append_nil,
    Expr.lambdas, Expr.cases, List.length_cons, List.range'_succ, List.count_append]
  omega

theorem useCount_caseOf (e : Expr) (bs : List Branch) :
    useCount u r c [.caseOf e bs] = (caseUses (c + 1) bs.length).count u +
      useCount u r (c + 1) (e :: bs.map Branch.body) := by
  simp only [useCount, usesFrom, List.flatMap_cons, List.flatMap_nil, List.append_nil,
    Expr.lambdas, Expr.cases, lambdasInBranches_eq, casesInBranches_eq, List.zipIdx_cons,
    List.count_append]
  omega

end

/-- The uses of labels that stand in the phrase itself, and not in its parts. -/
@[simp] def Phrase.ownUses : Phrase → List LabelUse
  | .branches id _ index bs _ => branchUses id index bs.length
  | _ => []

theorem Refers.uses {x : String} {dst : Reg} {s : LowerState} {c : Code}
    (h : Refers x dst s c) : c.uses = [] := by
  cases h <;> rfl

theorem RefersAll.uses {xs : List String} {s : LowerState} {c : Code}
    (h : RefersAll xs s c) : c.uses = [] := by
  induction h with
  | nil => rfl
  | cons head _ ih => simp [head.uses, ih]

theorem uses_storeAll (obj : Reg) (slot : Nat) (regs : List Reg) :
    Code.uses (storeAll obj slot regs) = [] := by
  induction regs generalizing slot with
  | nil => rfl
  | cons r rest ih => exact ih (slot + 1)

theorem uses_printCode (x : String) (tmp dst : Reg) : (printCode x tmp dst).uses = [] := by
  by_cases h : x = printCharName <;> simp [printCode, h, Code.uses, Instr.use?]

theorem uses_constructCode (t : Tag) (args : List Reg) (obj tmp dst : Reg) :
    (constructCode t args obj tmp dst).uses = [] := by
  simp only [constructCode, Code.uses_append, uses_storeAll]
  rfl

theorem uses_closureCode (t : Tag) (label : Label) (captured : List Reg) (obj tmp dst : Reg) :
    (closureCode t label captured obj tmp dst).uses = [.take label] := by
  simp only [closureCode, Code.uses_append, uses_storeAll]
  rfl

theorem uses_callCode (func arg address res dst : Reg) :
    (callCode func arg address res dst).uses = [] := rfl

theorem Compares.uses {mode : Dispatch} {id : Nat} {tagReg wanted : Reg} {index : Nat}
    {bs : List Branch} {s t : LowerState} {code : Code}
    (h : Compares mode id tagReg wanted index bs s code t) :
    code.uses = testUses id index bs.length := by
  induction h with
  | nil => rfl
  | cons _ ih =>
      simp only [testUses, List.length_cons, List.range'_succ, List.map_cons] at ih ⊢
      rw [← ih]
      rfl

/-- Every use of a label in lowered code belongs to one lambda or one case. -/
theorem Lowers.tally_eq {mode : Dispatch} {ph : Phrase} {s t : LowerState} {regs : List Reg}
    {f : Fragment} (h : Lowers mode ph s regs f t) (u : LabelUse) :
    f.tally u = ph.ownUses.count u + useCount u s.routines s.cases ph.parts := by
  induction h with
  | primitive _ => simp [uses_printCode]
  | var refers => simp [refers.uses]
  | ctor => rfl
  | num => rfl
  | char => rfl
  | caseOf he compares _ scrutinee branches =>
      have hr := he.counters
      have hc := compares.counters
      simp only [Phrase.lambdas, Phrase.cases, Phrase.parts] at *
      rw [useCount_caseOf, useCount_cons]
      simp [scrutinee, branches, hc, hr, compares.uses, caseUses, List.count_cons]
      omega
  | letIn hv _ value body =>
      simp [value, body, hv.counters, useCount_letIn]
  | lam _ _ values hs₂ body =>
      simp only [Fragment.tally_lambda, Code.uses_append, values.uses, uses_closureCode, body]
      simp [useCount_lam, routineUses, List.count_cons]
  | @construct f a _ _ _ _ _ _ _ callee _ args =>
      rw [show Phrase.parts (.expr (.app f a) _) = [.app f a] from rfl,
        useCount_congr (Expr.app f a).spine.2 (by simp [Expr.lambdas_of_callee_ctor callee])
          (by simp [Expr.cases_of_callee_ctor callee])]
      simp [args, uses_constructCode]
  | print _ _ arg => simp [arg, uses_printCode, useCount_app, Expr.lambdas, Expr.cases]
  | callVar _ refers arg =>
      simp [arg, refers.uses, uses_callCode, useCount_app, Expr.lambdas, Expr.cases]
  | call _ hf _ func arg =>
      simp [func, arg, hf.counters, uses_callCode, useCount_app]
  | head notApp => simp [Expr.spine_of_not_app notApp]
  | arg hf _ func last =>
      simp [func, last, hf.counters, Expr.spine_app, useCount_append]
  | body _ ih => exact ih
  | field _ ih => simp [ih]
  | noBranch => rfl
  | branch hf _ first rest =>
      simp only [Phrase.parts, List.map_cons, Branch.body]
      rw [useCount_cons]
      simp [first, rest, hf.counters, branchUses, List.range'_succ, List.count_cons]
      omega

theorem LowersDefs.tally_eq {mode : Dispatch} {p : Program} {s t : LowerState}
    {fs : List Fragment} (h : LowersDefs mode p s fs t) (u : LabelUse) :
    (fs.map (Fragment.tally u)).sum =
      (p.map fun d => LabelUse.mark ⟨d.name⟩).count u +
        useCount u s.routines s.cases (p.map Def.body) := by
  induction h with
  | nil => rfl
  | cons body _ ih =>
      have hcounters := body.counters
      rw [List.map_cons, List.map_cons, List.map_cons, useCount_cons, List.sum_cons, ih]
      simp [Def.fragment, body.tally_eq, hcounters, List.count_cons]
      omega

theorem LowersDefs.eq_nil_of_nil {mode : Dispatch} {s t : LowerState} {fs : List Fragment}
    (h : LowersDefs mode [] s fs t) : fs = [] := by
  cases h
  rfl

theorem count_uses_flatMap_allCode (u : LabelUse) (fs : List Fragment) :
    (Code.uses ((fs.flatMap Fragment.routines).flatMap Routine.code)).count u +
        (Code.uses (fs.flatMap Fragment.code)).count u =
      (fs.map (Fragment.tally u)).sum := by
  induction fs with
  | nil => rfl
  | cons f fs ih =>
      simp [Fragment.tally_eq, ← ih]
      omega

namespace Program

/-- The jump that a program starts with. -/
def entryUses (p : Program) : List LabelUse := p.head?.toList.map fun d => .jump ⟨d.name⟩

/-- Every use of a label in the code of a program. -/
theorem uses_assemble_perm {mode : Dispatch} {p : Program} {t : LowerState}
    {names : List String} {fs : List Fragment} (h : LowersDefs mode p (.declared names) fs t) :
    (assemble p fs).uses.Perm (p.entryUses ++ (p.map fun d => LabelUse.mark ⟨d.name⟩) ++
      usesFrom 0 0 p.lambdas p.cases) := by
  rw [List.perm_iff_count]
  intro u
  have htally := h.tally_eq u
  rw [← count_uses_flatMap_allCode, useCount] at htally
  cases p with
  | nil =>
      rw [h.eq_nil_of_nil]
      rfl
  | cons d rest =>
      simp [assemble, entryUses, Program.lambdas, Program.cases, List.flatMap_map,
        List.count_cons] at htally ⊢
      omega

/-- The labels of a case: one for its end and one for each branch. -/
def caseLabels (id count : Nat) : List Label := .caseEnd id :: (List.range count).map (.branch id)

/-- The labels of a program: the names of its definitions, a label for each lambda, and for
each case, whose id is its number from 1 on, the labels of that case. -/
def labels (p : Program) : List Label :=
  p.map (fun d => ⟨d.name⟩) ++ (List.range p.lambdas.length).map .routine ++
    (p.cases.zipIdx 1).flatMap fun (bs, id) => caseLabels id bs.length

/-- All uses of labels that the code of a program makes. -/
def uses (p : Program) : List LabelUse :=
  p.entryUses ++ (p.map fun d => LabelUse.mark ⟨d.name⟩) ++ usesFrom 0 0 p.lambdas p.cases

theorem filterMap_marked?_caseUses (id n : Nat) :
    (caseUses id n).filterMap LabelUse.marked? = caseLabels id n := by
  simp [caseUses, caseLabels, testUses, branchUses, List.filterMap_flatMap, List.filterMap_cons,
    LabelUse.marked?, List.range_eq_range', List.map_eq_flatMap]

theorem filterMap_taken?_caseUses (id n : Nat) :
    (caseUses id n).filterMap LabelUse.taken? = [] := by
  simp [caseUses, testUses, branchUses, List.filterMap_flatMap, LabelUse.taken?,
    List.filterMap_cons, Function.comp_def]

theorem filterMap_marked?_uses (p : Program) :
    p.uses.filterMap LabelUse.marked? = p.labels := by
  simp [uses, labels, entryUses, usesFrom, routineUses, filterMap_marked?_caseUses,
    List.filterMap_flatMap, List.filterMap_cons, Function.comp_def, LabelUse.marked?,
    List.range_eq_range']
  exact List.map_eq_flatMap.symm

theorem filterMap_taken?_uses (p : Program) :
    p.uses.filterMap LabelUse.taken? = (List.range p.lambdas.length).map .routine := by
  have hcases (xs : List (List Branch × Nat)) : xs.flatMap (fun _ => ([] : List Label)) = [] :=
    List.flatMap_eq_nil_iff.mpr fun _ _ => rfl
  simp [uses, entryUses, usesFrom, routineUses, filterMap_taken?_caseUses, hcases,
    List.filterMap_flatMap, List.filterMap_cons, Function.comp_def, LabelUse.taken?,
    List.range_eq_range']
  exact List.map_eq_flatMap.symm

/-- What is jumped to or has its address taken is a label of the program. -/
theorem mem_labels_of_mem_targets {p : Program} {l : Label}
    (h : l ∈ p.uses.filterMap LabelUse.target?) : l ∈ p.labels := by
  simp [uses, labels, entryUses, usesFrom, routineUses, caseUses, testUses, branchUses,
    caseLabels, List.filterMap_flatMap, List.filterMap_cons, Function.comp_def, LabelUse.target?,
    -List.mem_filterMap] at h ⊢
  rcases h with ⟨d, hd, rfl⟩ | ⟨k, hk, rfl⟩ | ⟨bs, id, hcase, ⟨i, hi, rfl⟩ | ⟨-, rfl⟩⟩
  · exact .inl ⟨d, List.mem_of_head? hd, rfl⟩
  · exact .inr (.inl ⟨k, hk, rfl⟩)
  · exact .inr (.inr ⟨bs, id, hcase, .inr ⟨i, hi, rfl⟩⟩)
  · exact .inr (.inr ⟨bs, id, hcase, .inl rfl⟩)

theorem mem_caseLabels {id n : Nat} {l : Label} :
    l ∈ caseLabels id n ↔ l = .caseEnd id ∨ ∃ i < n, .branch id i = l := by
  simp [caseLabels]

theorem nodup_caseLabels (id n : Nat) : (caseLabels id n).Nodup := by
  refine List.nodup_cons.mpr ⟨?_, List.nodup_range.map fun i j h => (Label.branch_injective h).2⟩
  intro hmem
  obtain ⟨i, -, hi⟩ := List.mem_map.mp hmem
  exact Label.branch_ne_caseEnd _ _ _ hi

/-- Cases with different ids share no label. -/
theorem id_eq_of_mem_caseLabels {id id' n n' : Nat} {l : Label} (h : l ∈ caseLabels id n)
    (h' : l ∈ caseLabels id' n') : id = id' := by
  rw [mem_caseLabels] at h h'
  rcases h with rfl | ⟨i, -, rfl⟩ <;> rcases h' with h' | ⟨j, -, h'⟩
  · exact Label.caseEnd_injective h'
  · exact absurd h' (Label.branch_ne_caseEnd _ _ _)
  · exact absurd h' (Label.branch_ne_caseEnd _ _ _)
  · exact (Label.branch_injective h').1.symm

/-- Labels of different origin differ, since no name looks like a generated label. -/
theorem nodup_labels {p : Program} (hp : p.NamesFree) : p.labels.Nodup := by
  have hnames : (p.map fun d => (⟨d.name⟩ : Label)).Nodup := by
    have h := hp.distinct.map (f := Label.mk) fun a b hab => congrArg Label.text hab
    rwa [List.map_map] at h
  have hroutines : ((List.range p.lambdas.length).map Label.routine).Nodup :=
    List.nodup_range.map fun _ _ => Label.routine_injective
  have hcases : ((p.cases.zipIdx 1).flatMap fun (bs, id) => caseLabels id bs.length).Nodup := by
    refine List.nodup_flatMap.mpr ⟨fun c _ => nodup_caseLabels _ _, ?_⟩
    have hids : ((p.cases.zipIdx 1).map Prod.snd).Nodup := by
      rw [List.zipIdx_map_snd]
      exact List.nodup_range'
    exact (List.pairwise_map.mp hids).imp fun hne l hl hl' =>
      hne (id_eq_of_mem_caseLabels hl hl')
  have hname {d : Def} (hd : d ∈ p) {l : Label} (hl : Label.Reserved l.text) :
      (⟨d.name⟩ : Label) ≠ l := by
    rintro rfl
    exact hp.notReserved d hd hl
  refine List.nodup_append'.mpr ⟨List.nodup_append'.mpr ⟨hnames, hroutines, ?_⟩, hcases, ?_⟩
  · intro l hl hr
    obtain ⟨d, hd, rfl⟩ := List.mem_map.mp hl
    obtain ⟨j, -, hj⟩ := List.mem_map.mp hr
    exact hname hd (Label.reserved_routine j) hj.symm
  · intro l hl hc
    obtain ⟨⟨bs, id⟩, -, hc⟩ := List.mem_flatMap.mp hc
    rw [mem_caseLabels] at hc
    rcases List.mem_append.mp hl with hl | hl
    · obtain ⟨d, hd, rfl⟩ := List.mem_map.mp hl
      rcases hc with hc | ⟨i, -, hc⟩
      · exact hname hd (Label.reserved_caseEnd id) hc
      · exact hname hd (Label.reserved_branch id i) hc.symm
    · obtain ⟨j, -, rfl⟩ := List.mem_map.mp hl
      rcases hc with hc | ⟨i, -, hc⟩
      · exact Label.routine_ne_caseEnd _ _ hc
      · exact Label.routine_ne_branch _ _ _ hc.symm

end Program

namespace Compiler

/-- The uses of labels in the code of an accepted program. -/
theorem uses_perm {mode : Dispatch} {p : Program} {code : Code}
    (h : ((new mode).compile p).1 = .ok code) : code.uses.Perm p.uses := by
  obtain ⟨-, fs, hfs, rfl⟩ := compile_eq_ok h
  exact Program.uses_assemble_perm hfs

theorem marks_perm {mode : Dispatch} {p : Program} {code : Code}
    (h : ((new mode).compile p).1 = .ok code) : code.marks.Perm p.labels := by
  rw [← p.filterMap_marked?_uses]
  exact (uses_perm h).filterMap _

/-- The code of an accepted program marks each of its labels once and no other, only uses
labels that it marks, and takes the address of each routine at one place. -/
theorem marks_nodup_closed {mode : Dispatch} {p : Program} {code : Code}
    (h : ((new mode).compile p).1 = .ok code) :
    code.marks.Nodup ∧ code.marks.Perm p.labels ∧
      (∀ l ∈ code.targets, code.marks.count l = 1) ∧
      code.taken.Perm ((List.range p.lambdas.length).map .routine) := by
  have hmarks := marks_perm h
  have hnodup := Program.nodup_labels (compile_eq_ok h).1
  refine ⟨hmarks.nodup_iff.mpr hnodup, hmarks, ?_, ?_⟩
  · intro l hl
    have hl' : l ∈ p.uses.filterMap LabelUse.target? := ((uses_perm h).filterMap _).mem_iff.mp hl
    rw [hmarks.count_eq]
    exact List.count_eq_one_of_mem hnodup (Program.mem_labels_of_mem_targets hl')
  · rw [← p.filterMap_taken?_uses]
    exact (uses_perm h).filterMap _

/-- A program with a routine inside of a routine, and a case in each. -/
def nestedCases : Program :=
  [⟨"main", .app (.lam "x" (.caseOf (.var "x")
      [.mk "A" [] (.lam "y" (.caseOf (.var "x") [.mk "B" ["z"] (.var "z"), .mk "A" [] (.var "y")])),
        .mk "B" ["z"] (.var "z")])) (.ctor "A")⟩]

theorem marks_nodup_closed_nestedCases : ∃ code, ((new .tag).compile nestedCases).1 = .ok code ∧
    code.marks.Nodup ∧ code.marks.Perm nestedCases.labels ∧
      (∀ l ∈ code.targets, code.marks.count l = 1) ∧
      code.taken.Perm [.routine 0, .routine 1] := by
  obtain ⟨code, h⟩ := exists_code .tag nestedCases (by decide +kernel)
  exact ⟨code, h, marks_nodup_closed h⟩

end Compiler

end Lowering
