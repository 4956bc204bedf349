import Lowering.Proofs.Blocks
import Lowering.Proofs.TagOrder

/-!
# Words that stand for constructors

The code of a program puts ids of shapes into slot 0 of its objects, and compares tags with
ids. In both cases the id is a constant in the instruction before. The constants that are
stored are the ids of the shapes of the program, one after the other (`Lowers.tagWords`),
and those that are compared are the ids of the constructors of the branches that the
comparisons lead to (`Lowers.comparisons`).
-/

namespace Lowering

namespace Instr

/-- The constant that the instruction puts into `r`. -/
def wordIn? (r : Reg) : Instr → Option Int
  | .movInt dst value => if dst = r then some value else none
  | _ => none

/-- What the second instruction stores in slot 0, if it does. It is known if the first
instruction puts it into the register. -/
def tagWord? (i : Instr) : Instr → Option (Option Int)
  | .store _ slot r => if slot = 0 then some (i.wordIn? r) else none
  | _ => none

/-- The label that the second instruction may jump to after a comparison, and what it compares
with. -/
def comparison? (i : Instr) : Instr → Option (Label × Option Int)
  | .jumpEq _ r label => some (label, i.wordIn? r)
  | _ => none

theorem tagWord?_eq_none {i j : Instr} (h : ∀ x r, j ≠ .store x 0 r) : tagWord? i j = none := by
  cases j with
  | store x slot r =>
      have hslot : slot ≠ 0 := by
        rintro rfl
        exact h x r rfl
      simp [tagWord?, hslot]
  | _ => rfl

theorem comparison?_eq_none {i j : Instr} (h : ∀ x y label, j ≠ .jumpEq x y label) :
    comparison? i j = none := by
  cases j with
  | jumpEq x y label => exact absurd rfl (h x y label)
  | _ => rfl

/-- The instruction has nothing to do with the one before it. -/
def Opens : Instr → Prop
  | .store _ _ _ | .jumpEq _ _ _ => False
  | _ => True

theorem Opens.tagWord?_eq_none {i j : Instr} (h : j.Opens) : tagWord? i j = none := by
  refine Instr.tagWord?_eq_none ?_
  rintro x r rfl
  exact h

theorem Opens.comparison?_eq_none {i j : Instr} (h : j.Opens) : comparison? i j = none := by
  refine Instr.comparison?_eq_none ?_
  rintro x y label rfl
  exact h

end Instr

namespace Code

/-- What is found at neighbouring instructions. -/
def findings {α : Type} (look : Instr → Instr → Option α) : Code → List α
  | i :: j :: rest => (look i j).toList ++ findings look (j :: rest)
  | _ => []

/-- The words that the code stores in slot 0. -/
def tagWords (code : Code) : List (Option Int) := code.findings Instr.tagWord?

/-- The comparisons of the code. -/
def comparisons (code : Code) : List (Label × Option Int) := code.findings Instr.comparison?

/-- The first instruction has nothing to do with one before it. -/
def Opens (code : Code) : Prop := ∀ i, code.head? = some i → i.Opens

section Findings

variable {α : Type} {look : Instr → Instr → Option α} {c d : Code}

theorem findings_eq_nil (h : ∀ j ∈ c, ∀ i, look i j = none) : findings look c = [] := by
  fun_induction findings look c with
  | case1 i j rest ih =>
      rw [h j (by simp), ih fun k hk => h k (by simp [List.mem_cons.mp hk])]
      rfl
  | case2 => rfl

theorem findings_append (hlook : ∀ i j, j.Opens → look i j = none) (hd : d.Opens) :
    findings look (c ++ d) = findings look c ++ findings look d := by
  fun_induction findings look c with
  | case1 i j rest ih =>
      rw [List.cons_append, List.cons_append, findings, ← List.cons_append, ih, List.append_assoc]
  | case2 c hc =>
      match c with
      | [] => rfl
      | [i] =>
          cases d with
          | nil => rfl
          | cons j d => simp [findings, hlook i j (hd j rfl)]
      | i :: j :: rest => exact absurd rfl (hc i j rest)

end Findings

variable {c d : Code}

theorem tagWords_append (hd : d.Opens) : tagWords (c ++ d) = c.tagWords ++ d.tagWords :=
  findings_append (fun _ _ => Instr.Opens.tagWord?_eq_none) hd

theorem comparisons_append (hd : d.Opens) :
    comparisons (c ++ d) = c.comparisons ++ d.comparisons :=
  findings_append (fun _ _ => Instr.Opens.comparison?_eq_none) hd

theorem tagWords_eq_nil (h : ∀ j ∈ c, ∀ x r, j ≠ .store x 0 r) : c.tagWords = [] :=
  findings_eq_nil fun j hj _ => Instr.tagWord?_eq_none (h j hj)

theorem comparisons_eq_nil (h : ∀ j ∈ c, ∀ x y label, j ≠ .jumpEq x y label) :
    c.comparisons = [] :=
  findings_eq_nil fun j hj _ => Instr.comparison?_eq_none (h j hj)

@[simp] theorem opens_nil : Opens [] := by
  simp [Opens]

@[simp] theorem opens_cons {i : Instr} : Opens (i :: c) ↔ i.Opens := by
  simp [Opens]

theorem Opens.append (hc : c.Opens) (hd : d.Opens) : Opens (c ++ d) := by
  cases c with
  | nil => exact hd
  | cons i c => simpa using hc

variable (t : Tag) (tmp obj dst : Reg)

theorem jumpEq_not_mem_storeAll {slot : Nat} {args : List Reg} {x y : Reg} {label : Label} :
    .jumpEq x y label ∉ storeAll obj slot args := by
  induction args generalizing slot with
  | nil => simp [storeAll]
  | cons a rest ih => simp [storeAll, ih]

theorem store_zero_not_mem_storeAll {slot : Nat} {args : List Reg} {x r : Reg} (h : 0 < slot) :
    .store x 0 r ∉ storeAll obj slot args := by
  induction args generalizing slot with
  | nil => simp [storeAll]
  | cons a rest ih =>
      have hslot : (0 : Int) ≠ slot := by omega
      simp [storeAll, hslot, ih (Nat.succ_pos slot)]

/-- After the tag, the fields are stored in other slots. -/
theorem tagWords_storeTag {c : Code} (word : Int) (hc : ∀ j ∈ c, ∀ x r, j ≠ .store x 0 r)
    (n : Int) : tagWords ([.alloc obj n] ++ storeInt obj 0 tmp word ++ c) = [some word] := by
  have hrest : findings Instr.tagWord? (.store obj 0 tmp :: c) = [] := by
    cases c with
    | nil => rfl
    | cons j c =>
        rw [findings, Instr.tagWord?_eq_none (hc j (by simp))]
        exact tagWords_eq_nil hc
  simp [tagWords, storeInt, findings, hrest, Instr.tagWord?, Instr.wordIn?]

theorem tagWords_boxedCode (value : Int64) :
    (boxedCode t value tmp obj dst).tagWords = [some t.id] := by
  rw [boxedCode, List.append_assoc]
  exact tagWords_storeTag tmp obj t.id (by simp [storeInt]) t.size

theorem tagWords_ctorCode : (ctorCode t tmp obj dst).tagWords = [some t.id] :=
  tagWords_storeTag tmp obj t.id (by simp) t.size

theorem tagWords_constructCode (args : List Reg) :
    (constructCode t args obj tmp dst).tagWords = [some t.id] := by
  rw [constructCode, List.append_assoc]
  refine tagWords_storeTag tmp obj t.id ?_ _
  rintro j hj x r rfl
  simp [store_zero_not_mem_storeAll] at hj

theorem tagWords_closureCode (label : Label) (captured : List Reg) :
    (closureCode t label captured obj tmp dst).tagWords = [some t.id] := by
  rw [closureCode, List.append_assoc, List.append_assoc]
  refine tagWords_storeTag tmp obj t.id ?_ _
  rintro j hj x r rfl
  simp [store_zero_not_mem_storeAll, captureOffset] at hj

theorem tagWords_printCode (x : String) : (printCode x tmp dst).tagWords = [] := by
  refine tagWords_eq_nil ?_
  by_cases hx : x = printCharName <;> simp [printCode, hx]

theorem comparisons_printCode (x : String) : (printCode x tmp dst).comparisons = [] := by
  refine comparisons_eq_nil ?_
  by_cases hx : x = printCharName <;> simp [printCode, hx]

theorem comparisons_constructCode (args : List Reg) :
    (constructCode t args obj tmp dst).comparisons = [] := by
  refine comparisons_eq_nil ?_
  rintro j hj x y label rfl
  simp [constructCode, storeInt, jumpEq_not_mem_storeAll] at hj

theorem comparisons_closureCode (label : Label) (captured : List Reg) :
    (closureCode t label captured obj tmp dst).comparisons = [] := by
  refine comparisons_eq_nil ?_
  rintro j hj x y label rfl
  simp [closureCode, storeInt, jumpEq_not_mem_storeAll] at hj

theorem tagWords_callCode (func arg address res : Reg) :
    (callCode func arg address res dst).tagWords = [] :=
  tagWords_eq_nil (by simp [callCode])

theorem tagWords_routineCode {label : Label} {closure arg res : Reg} {body : Code}
    (hbody : body.Opens) : (routineCode label closure arg res body).tagWords = body.tagWords := by
  rw [routineCode, tagWords_append (by simp [Instr.Opens]), tagWords_append hbody,
    tagWords_eq_nil (c := [_, _, _]) (by simp), tagWords_eq_nil (c := [_, _]) (by simp)]
  simp

theorem comparisons_routineCode {label : Label} {closure arg res : Reg} {body : Code}
    (hbody : body.Opens) :
    (routineCode label closure arg res body).comparisons = body.comparisons := by
  rw [routineCode, comparisons_append (by simp [Instr.Opens]), comparisons_append hbody,
    comparisons_eq_nil (c := [_, _, _]) (by simp), comparisons_eq_nil (c := [_, _]) (by simp)]
  simp

end Code

theorem Refers.opens {x : String} {dst : Reg} {s : LowerState} {c : Code} (h : Refers x dst s c) :
    c.Opens := by
  cases h <;> simp [Instr.Opens]

theorem RefersAll.opens {xs : List String} {s : LowerState} {c : Code} (h : RefersAll xs s c) :
    c.Opens := by
  cases h with
  | nil => simp
  | cons head tail => exact head.opens.append tail.opens
termination_by xs.length

/-- Lowered code has nothing to do with the instruction before it. -/
theorem Lowers.opens {mode : Dispatch} {ph : Phrase} {s t : LowerState} {regs : List Reg}
    {f : Fragment} (h : Lowers mode ph s regs f t) : f.code.Opens := by
  induction h with
  | var refers => exact refers.opens
  | caseOf _ _ _ scrutinee branches =>
      refine ((scrutinee.append ?_).append branches).append ?_
      · simp [Instr.Opens]
      · simp [Instr.Opens]
  | letIn _ _ value body => exact value.append body
  | lam _ _ values _ _ => exact values.opens.append (by simp [closureCode, Instr.Opens])
  | construct _ _ args => exact args.append (by simp [constructCode, Instr.Opens])
  | print _ _ arg => exact arg.append (by simp [printCode, Instr.Opens])
  | callVar _ refers arg =>
      exact (arg.append refers.opens).append (by simp [callCode, Instr.Opens])
  | call _ _ _ func arg => exact (func.append arg).append (by simp [callCode, Instr.Opens])
  | arg _ _ func last => exact last.append func
  | body _ ih => exact ih
  | branch _ _ _ _ => simp [Instr.Opens]
  | _ => simp [Instr.Opens, printCode, ctorCode, boxedCode]

namespace Registry

/-- The word is the id of the shape. -/
def Stands (r : Registry) (word : Option Int) (shape : String) : Prop :=
  ∃ t, r.lookup? shape = some t ∧ word = some t.id

variable {r : Registry} {word : Option Int} {c c' : String}

/-- A word is the id of one shape only. -/
theorem Stands.eq (h : r.Stands word c) (h' : r.Stands word c') (hr : r.Numbered) : c = c' := by
  obtain ⟨t, ht, rfl⟩ := h
  obtain ⟨t', ht', hid⟩ := h'
  exact hr.eq_of_id_eq ht ht' (Option.some.inj hid)

/-- A tag that was once given out stands for its shape ever after. -/
theorem stands_tagOf {s : LowerState} {name : String} {size : Nat}
    (h : (s.withTag name size).tags.entries <+: r.entries) :
    r.Stands (some (s.tagOf name size).id) name :=
  ⟨_, lookup?_mono (lookup?_tag s.tags name size) h, rfl⟩

end Registry

/-- The shapes of the objects that the code of a phrase makes. -/
@[simp] def Phrase.shapes : Phrase → List String
  | .expr e _ => e.shapes
  | .args chain => chain.spine.2.reverse.flatMap Expr.shapes
  | .fields _ _ _ body _ => body.shapes
  | .branches _ _ _ bs _ => shapesInBranches bs

/-- The shapes of the objects that the routines of a phrase make. -/
@[simp] def Phrase.routineShapes : Phrase → List String
  | .expr e _ => e.routineShapes
  | .args chain => chain.spine.2.flatMap Expr.routineShapes
  | .fields _ _ _ body _ => body.routineShapes
  | .branches _ _ _ bs _ => routineShapesInBranches bs

namespace Expr

theorem shapes_spineOnto {e : Expr} {rest : List Expr} {c : String}
    (h : (e.spineOnto rest).1 = .ctor c) :
    e.isConstruction = true ∧ (e.spineOnto rest).2.reverse.flatMap shapes ++ [c] =
      rest.reverse.flatMap shapes ++ e.shapes := by
  fun_induction spineOnto e rest with
  | case1 f a rest ih =>
      obtain ⟨hf, hshapes⟩ := ih h
      refine ⟨hf, ?_⟩
      rw [hshapes, shapes, if_pos hf]
      simp
  | case2 e rest _ =>
      subst h
      exact ⟨rfl, rfl⟩

theorem spine_of_isConstruction {e : Expr} (h : e.isConstruction = true) :
    ∃ c, e.spine.1 = .ctor c := by
  fun_induction isConstruction e with
  | case1 c => exact ⟨c, rfl⟩
  | case2 f a ih =>
      rw [spine_app]
      exact ih h
  | case3 => cases h

theorem shapes_of_callee_ctor {f : Expr} (a : Expr) {c : String} {n : Nat}
    (h : f.callee = .ctor c n) :
    (app f a).shapes = (app f a).spine.2.reverse.flatMap shapes ++ [c] := by
  have hhead : (app f a).spine.1 = .ctor c := by
    rw [spine_app]
    exact (spine_of_callee_ctor h).1
  exact ((shapes_spineOnto hhead).2.trans (List.nil_append _)).symm

theorem shapes_of_callee_other {f : Expr} (a : Expr) (h : f.callee = .other) :
    (app f a).shapes = f.shapes ++ a.shapes := by
  have hf : f.isConstruction = false := by
    by_contra hf
    obtain ⟨c, hc⟩ := spine_of_isConstruction (Bool.eq_true_of_not_eq_false hf)
    exact spine_ne_ctor_of_callee (by simp [h]) c hc
  simp [shapes, hf]

theorem routineShapes_of_callee_ctor {f : Expr} (a : Expr) {c : String} {n : Nat}
    (h : f.callee = .ctor c n) :
    (app f a).routineShapes = (app f a).spine.2.flatMap routineShapes := by
  have hspine := collected_eq_spine (g := routineShapes) (fun _ _ => by rw [routineShapes])
    (app f a)
  rw [spine_app, (spine_of_callee_ctor h).1] at hspine
  rw [spine_app, ← hspine]
  rfl

end Expr

namespace Fragment

/-- The words that the fragment stores in slot 0 are the ids of the shapes, those of its own code
and those of its routines. -/
structure Tagged (r : Registry) (shapes routineShapes : List String) (f : Fragment) : Prop where
  own : List.Forall₂ r.Stands f.code.tagWords shapes
  inner : List.Forall₂ r.Stands (f.routines.flatMap fun b => b.code.tagWords) routineShapes

namespace Tagged

variable {r : Registry} {xs ys xs' ys' : List String} {f g : Fragment} {c : Code}

theorem plain (h : c.tagWords = []) : (ofCode c).Tagged r [] [] := by
  constructor
  · rw [code_ofCode, h]
    exact .nil
  · exact .nil

theorem one {word : Int} {x : String} (h : c.tagWords = [some word]) (hx : r.Stands (some word) x) :
    (ofCode c).Tagged r [x] [] := by
  constructor
  · rw [code_ofCode, h]
    exact .cons hx .nil
  · exact .nil

theorem append (hf : f.Tagged r xs ys) (hg : g.Tagged r xs' ys') (hopens : g.code.Opens) :
    (f ++ g).Tagged r (xs ++ xs') (ys ++ ys') := by
  constructor
  · rw [code_append, Code.tagWords_append hopens]
    exact List.rel_append hf.own hg.own
  · rw [routines_append, List.flatMap_append]
    exact List.rel_append hf.inner hg.inner

theorem append_plain (hf : f.Tagged r xs ys) (hc : c.tagWords = []) (hopens : c.Opens) :
    (f ++ ofCode c).Tagged r xs ys := by
  have hall := hf.append (plain hc) hopens
  rwa [List.append_nil, List.append_nil] at hall

theorem plain_append (hf : f.Tagged r xs ys) (hc : c.tagWords = []) (hopens : f.code.Opens) :
    (ofCode c ++ f).Tagged r xs ys :=
  (plain hc).append hf hopens

theorem prepend (hf : f.Tagged r xs ys) (hg : g.Tagged r xs' ys') (hopens : f.code.Opens) :
    (f.prepend g).Tagged r (xs' ++ xs) (ys ++ ys') := by
  constructor
  · rw [code_prepend, Code.tagWords_append hopens]
    exact List.rel_append hg.own hf.own
  · rw [routines_prepend, List.flatMap_append]
    exact List.rel_append hf.inner hg.inner

/-- The body of a lambda becomes the last routine. -/
theorem lambda (hf : f.Tagged r xs ys) (hc : (ofCode c).Tagged r xs' []) {label : Label}
    {routine : Code} {free : List String} (hroutine : routine.tagWords = f.code.tagWords) :
    Tagged r xs' (ys ++ xs) ⟨c, f.routines ++ [⟨label, routine, free⟩]⟩ := by
  refine ⟨hc.own, ?_⟩
  simp only [List.flatMap_append, List.flatMap_cons, List.flatMap_nil, List.append_nil, hroutine]
  exact List.rel_append hf.inner hf.own

end Tagged

end Fragment

theorem Refers.tagWords_eq {x : String} {dst : Reg} {s : LowerState} {c : Code}
    (h : Refers x dst s c) : c.tagWords = [] := by
  cases h <;> rfl

theorem RefersAll.tagWords_eq {xs : List String} {s : LowerState} {c : Code}
    (h : RefersAll xs s c) : c.tagWords = [] := by
  induction h with
  | nil => rfl
  | cons head tail ih => rw [Code.tagWords_append tail.opens, head.tagWords_eq, ih, List.append_nil]

theorem Compares.store_not_mem {mode : Dispatch} {id : Nat} {tagReg wanted : Reg} {index : Nat}
    {bs : List Branch} {s t : LowerState} {code : Code}
    (h : Compares mode id tagReg wanted index bs s code t) :
    ∀ j ∈ code, ∀ x r, j ≠ .store x 0 r := by
  induction h with
  | nil => simp
  | cons _ ih => simpa using ih

open Registry (stands_tagOf)

/-- The words that are stored in slot 0 are the ids of the shapes, in every later registry. -/
theorem Lowers.tagged {mode : Dispatch} {ph : Phrase} {s t : LowerState} {regs : List Reg}
    {f : Fragment} (h : Lowers mode ph s regs f t) {r : Registry}
    (hr : t.tags.entries <+: r.entries) : f.Tagged r ph.shapes ph.routineShapes := by
  induction h with
  | primitive _ => exact .plain (Code.tagWords_printCode _ _ _)
  | var refers => exact .plain refers.tagWords_eq
  | ctor => exact .one (Code.tagWords_ctorCode _ _ _ _) (stands_tagOf hr)
  | num => exact .one (Code.tagWords_boxedCode _ _ _ _ _) (stands_tagOf hr)
  | char => exact .one (Code.tagWords_boxedCode _ _ _ _ _) (stands_tagOf hr)
  | @caseOf e bs dst s s₁ s₂ t fe fb tests he compares hb scrutinee branches =>
      have hs₂ := hb.grows.tags.trans hr
      have htests : Code.tagWords (.load (s.reg 2) (s.reg 1) 0 :: tests) = [] :=
        Code.tagWords_eq_nil (by simpa using compares.store_not_mem)
      have hstart := (scrutinee (compares.grows.tags.trans hs₂)).append_plain htests
        (by simp [Instr.Opens])
      exact (hstart.append (branches hr) hb.opens).append_plain rfl (by simp [Instr.Opens])
  | letIn _ hb value body => exact (value (hb.grows.tags.trans hr)).append (body hr) hb.opens
  | @lam x e dst s s₁ s₂ fe captured loads _ he values hs₂ body =>
      have hgrows : s₁.tags.entries <+: r.entries := by
        subst hs₂
        exact (LowerState.Grows.withTag (s₁.inScope s.scope) "Closure" 0).tags.trans hr
      have hcode : (Fragment.ofCode (loads ++ closureCode (s₂.tagOf "Closure" 1)
          (.routine s.routines) ((s₁.inScope s.scope).regs captured.length) (s₂.reg 1) (s₂.reg 2)
          dst)).Tagged r ["Closure"] [] := by
        refine .one ?_ (stands_tagOf hr)
        rw [Code.tagWords_append (by simp [closureCode, Instr.Opens]), values.tagWords_eq,
          Code.tagWords_closureCode, List.nil_append]
      exact (body hgrows).lambda hcode (Code.tagWords_routineCode he.opens)
  | @construct f a c n dst s s₁ regs fa callee ha args =>
      have hbuild := Fragment.Tagged.one (Code.tagWords_constructCode (s.tagOf c (n + 2)) (s₁.reg 2)
        (s₁.reg 1) dst regs) (stands_tagOf (ha.grows.tags.trans hr))
      have hall := (args hr).append hbuild (by simp [constructCode, Instr.Opens])
      rw [Phrase.shapes, Phrase.routineShapes, Expr.shapes_of_callee_ctor a callee,
        Expr.routineShapes_of_callee_ctor a callee]
      rwa [Phrase.routineShapes, List.append_nil] at hall
  | print _ _ arg =>
      exact (arg hr).append_plain (Code.tagWords_printCode _ _ _) (by simp [printCode, Instr.Opens])
  | callVar _ refers arg =>
      exact ((arg hr).append_plain refers.tagWords_eq refers.opens).append_plain
        (Code.tagWords_callCode _ _ _ _ _) (by simp [callCode, Instr.Opens])
  | call callee _ ha func arg =>
      rw [Phrase.shapes, Expr.shapes_of_callee_other _ callee]
      exact ((func (ha.grows.tags.trans hr)).append (arg hr) ha.opens).append_plain
        (Code.tagWords_callCode _ _ _ _ _) (by simp [callCode, Instr.Opens])
  | head notApp =>
      rw [Phrase.shapes, Phrase.routineShapes, Expr.spine_of_not_app notApp]
      exact .plain rfl
  | arg hf ha func last =>
      have hall := (func ((LowerState.Grows.skip _ 1).tags.trans (ha.grows.tags.trans hr))).prepend
        (last hr) hf.opens
      simpa [Expr.spine_app] using hall
  | body _ ih => exact ih hr
  | field hf ih => exact (ih hr).plain_append rfl hf.opens
  | noBranch => exact .plain rfl
  | @branch id value index c params e bs dst s s₁ t f fs hf hrest first rest =>
      have hbody : (Fragment.ofCode [.mark (.branch id index)] ++ f).Tagged r e.shapes
          e.routineShapes :=
        (first (hrest.grows.tags.trans hr)).plain_append rfl hf.opens
      exact (hbody.append_plain rfl (by simp [Instr.Opens])).append (rest hr) hrest.opens

/-- The comparison leads to a branch of one of the cases, the first of which has the number
`n + 1`, and compares with the id of its constructor. -/
def Registry.Leads (r : Registry) (n : Nat) (cases : List (List Branch))
    (x : Label × Option Int) : Prop :=
  ∃ k bs i b, cases[k]? = some bs ∧ bs[i]? = some b ∧ x.1 = .branch (n + k + 1) i ∧
    r.Stands x.2 b.ctor

namespace Registry.Leads

variable {r : Registry} {n : Nat} {cs ds : List (List Branch)} {x : Label × Option Int}

theorem append_left (h : r.Leads n cs x) : r.Leads n (cs ++ ds) x := by
  obtain ⟨k, bs, i, b, hk, hi, hlabel, hword⟩ := h
  have hlt := (List.getElem?_eq_some_iff.mp hk).1
  exact ⟨k, bs, i, b, by rw [List.getElem?_append_left hlt, hk], hi, hlabel, hword⟩

theorem append_right (h : r.Leads (n + cs.length) ds x) : r.Leads n (cs ++ ds) x := by
  obtain ⟨k, bs, i, b, hk, hi, hlabel, hword⟩ := h
  refine ⟨cs.length + k, bs, i, b, ?_, hi, by rw [hlabel, Nat.add_assoc n], hword⟩
  rw [List.getElem?_append_right (Nat.le_add_right _ _), Nat.add_sub_cancel_left, hk]

end Registry.Leads

namespace Fragment

/-- The comparisons of the fragment and of its routines lead to branches of the cases. -/
def Dispatches (r : Registry) (n : Nat) (cases : List (List Branch)) (f : Fragment) : Prop :=
  (∀ x ∈ f.code.comparisons, r.Leads n cases x) ∧
    ∀ b ∈ f.routines, ∀ x ∈ b.code.comparisons, r.Leads n cases x

namespace Dispatches

variable {r : Registry} {n : Nat} {cs ds : List (List Branch)} {f g h : Fragment} {c : Code}

theorem plain (hc : c.comparisons = []) : (ofCode c).Dispatches r n cs := by
  constructor <;> simp [hc]

/-- Two parts of which the second numbers its cases from where the first has got to. -/
theorem join (hf : f.Dispatches r n cs) (hg : g.Dispatches r (n + cs.length) ds)
    (hcode : ∀ x ∈ h.code.comparisons, x ∈ f.code.comparisons ∨ x ∈ g.code.comparisons)
    (hroutines : h.routines = f.routines ++ g.routines) : h.Dispatches r n (cs ++ ds) := by
  constructor
  · intro x hx
    rcases hcode x hx with hx | hx
    · exact (hf.1 x hx).append_left
    · exact (hg.1 x hx).append_right
  · intro b hb x hx
    rw [hroutines] at hb
    rcases List.mem_append.mp hb with hb | hb
    · exact (hf.2 b hb x hx).append_left
    · exact (hg.2 b hb x hx).append_right

theorem append (hf : f.Dispatches r n cs) (hg : g.Dispatches r (n + cs.length) ds)
    (hopens : g.code.Opens) : (f ++ g).Dispatches r n (cs ++ ds) := by
  refine hf.join hg (fun x hx => ?_) rfl
  rwa [code_append, Code.comparisons_append hopens, List.mem_append] at hx

theorem append_plain (hf : f.Dispatches r n cs) (hc : c.comparisons = []) (hopens : c.Opens) :
    (f ++ ofCode c).Dispatches r n cs := by
  have hplain : (ofCode c).Dispatches r (n + cs.length) [] := plain hc
  have hall := hf.append hplain hopens
  rwa [List.append_nil] at hall

theorem plain_append (hf : f.Dispatches r n cs) (hc : c.comparisons = []) (hopens : f.code.Opens) :
    (ofCode c ++ f).Dispatches r n cs := by
  have hplain : (ofCode c).Dispatches r n [] := plain hc
  exact hplain.append hf hopens

/-- The body of a lambda becomes the last routine. -/
theorem lambda (hf : f.Dispatches r n cs) (hc : c.comparisons = []) {label : Label}
    {routine : Code} {free : List String}
    (hroutine : routine.comparisons = f.code.comparisons) :
    Dispatches r n cs ⟨c, f.routines ++ [⟨label, routine, free⟩]⟩ := by
  constructor
  · simp [hc]
  · intro b hb
    rcases List.mem_append.mp hb with hb | hb
    · exact hf.2 b hb
    · rw [List.mem_singleton.mp hb, hroutine]
      exact hf.1

end Dispatches

end Fragment

theorem Refers.comparisons_eq {x : String} {dst : Reg} {s : LowerState} {c : Code}
    (h : Refers x dst s c) : c.comparisons = [] := by
  cases h <;> rfl

theorem RefersAll.comparisons_eq {xs : List String} {s : LowerState} {c : Code}
    (h : RefersAll xs s c) : c.comparisons = [] := by
  induction h with
  | nil => rfl
  | cons head tail ih =>
      rw [Code.comparisons_append tail.opens, head.comparisons_eq, ih, List.append_nil]

/-- The comparisons of a case are with the ids that its branches get. -/
theorem Compares.leads {id : Nat} {tagReg wanted : Reg} {index : Nat} {bs : List Branch}
    {s t : LowerState} {code : Code} (h : Compares .tag id tagReg wanted index bs s code t)
    {r : Registry} (hr : t.tags.entries <+: r.entries) (before : Instr) :
    ∀ x ∈ Code.comparisons (before :: code), ∃ i b, bs[i]? = some b ∧
      x.1 = .branch id (index + i) ∧ r.Stands x.2 b.ctor := by
  induction h generalizing before with
  | nil => simp [Code.comparisons, Code.findings]
  | @cons index b bs s t cs rest ih =>
      intro x hx
      simp only [Code.comparisons, Code.findings, Instr.comparison?, Option.toList_none,
        List.nil_append, Option.toList_some, List.singleton_append, List.mem_cons] at hx
      rcases hx with rfl | hx
      · refine ⟨0, b, rfl, rfl, ?_⟩
        rw [Instr.wordIn?, if_pos rfl]
        exact stands_tagOf (rest.grows.tags.trans hr)
      · obtain ⟨i, b', hb', hlabel, hword⟩ := ih hr _ x hx
        exact ⟨i + 1, b', hb', by rw [hlabel, Nat.add_right_comm, Nat.add_assoc], hword⟩

theorem Compares.dispatches {n : Nat} {tagReg wanted : Reg} {bs : List Branch} {s t : LowerState}
    {code : Code} (h : Compares .tag (n + 1) tagReg wanted 0 bs s code t) {r : Registry}
    (hr : t.tags.entries <+: r.entries) (before : Instr) :
    (Fragment.ofCode (before :: code)).Dispatches r n [bs] := by
  refine ⟨fun x hx => ?_, by simp⟩
  obtain ⟨i, b, hb, hlabel, hword⟩ := h.leads hr before x hx
  exact ⟨0, bs, i, b, rfl, hb, by simpa using hlabel, hword⟩

theorem Phrase.cases_expr (e : Expr) (dst : Reg) : (Phrase.expr e dst).cases = e.cases := by
  simp

/-- If branches are told apart by tags, comparisons are with the ids of the constructors of the
branches that they lead to. -/
theorem Lowers.dispatches {ph : Phrase} {s t : LowerState} {regs : List Reg} {f : Fragment}
    (h : Lowers .tag ph s regs f t) {r : Registry} (hr : t.tags.entries <+: r.entries) :
    f.Dispatches r s.cases ph.cases := by
  induction h with
  | primitive _ => exact .plain (Code.comparisons_printCode _ _ _)
  | var refers => exact .plain refers.comparisons_eq
  | ctor => exact .plain rfl
  | num => exact .plain rfl
  | char => exact .plain rfl
  | @caseOf e bs dst s s₁ s₂ t fe fb tests he compares hb scrutinee branches =>
      have hs₂ := hb.grows.tags.trans hr
      have hcases : s₂.cases = s.cases + [bs].length + e.cases.length := by
        rw [compares.counters.2.1]
        simpa using he.counters.2
      have hscrutinee : fe.Dispatches r (s.cases + [bs].length) e.cases := by
        simpa using scrutinee (compares.grows.tags.trans hs₂)
      have hbodies : fb.Dispatches r (s.cases + ([bs] ++ e.cases).length) (casesInBranches bs) := by
        have hbodies := branches hr
        rw [hcases, Nat.add_assoc, ← List.length_append] at hbodies
        simpa [casesInBranches_eq] using hbodies
      -- The case itself is numbered before its scrutinee, but compares after it.
      have hstart : (fe ++ .ofCode (.load (s.reg 2) (s.reg 1) 0 :: tests)).Dispatches r s.cases
          ([bs] ++ e.cases) := by
        have htests := compares.dispatches hs₂ (.load (s.reg 2) (s.reg 1) 0)
        refine htests.join hscrutinee (fun x hx => ?_) (List.append_nil _)
        rw [Fragment.code_append, Code.comparisons_append (by simp [Instr.Opens])] at hx
        exact (List.mem_append.mp hx).symm
      have hall := (hstart.append hbodies hb.opens).append_plain
        (c := [.mark (.caseEnd (s.cases + 1))]) rfl (by simp [Instr.Opens])
      simpa [Expr.cases] using hall
  | @letIn x v b dst s s₁ s₂ fv fb hv hb value body =>
      have hcases : s₁.cases = s.cases + v.cases.length := by simpa using hv.counters.2
      have hvalue : fv.Dispatches r s.cases v.cases := by
        simpa using value (hb.grows.tags.trans hr)
      have hbody : fb.Dispatches r (s.cases + v.cases.length) b.cases := by
        rw [← hcases]
        simpa using body hr
      simpa [Expr.cases] using hvalue.append hbody hb.opens
  | @lam x e dst s s₁ s₂ fe captured loads _ he values hs₂ body =>
      have hgrows : s₁.tags.entries <+: r.entries := by
        subst hs₂
        exact (LowerState.Grows.withTag (s₁.inScope s.scope) "Closure" 0).tags.trans hr
      have hbody : fe.Dispatches r s.cases e.cases := by simpa using body hgrows
      have hcode : Code.comparisons (loads ++ closureCode (s₂.tagOf "Closure" 1)
          (.routine s.routines) ((s₁.inScope s.scope).regs captured.length) (s₂.reg 1) (s₂.reg 2)
          dst) = [] := by
        rw [Code.comparisons_append (by simp [closureCode, Instr.Opens]), values.comparisons_eq,
          Code.comparisons_closureCode, List.nil_append]
      rw [Phrase.cases_expr, Expr.cases]
      exact hbody.lambda hcode (Code.comparisons_routineCode he.opens)
  | @construct f a c n dst s s₁ regs fa callee ha args =>
      rw [Phrase.cases_expr, Expr.cases_of_callee_ctor callee]
      exact (args hr).append_plain (Code.comparisons_constructCode _ _ _ _ _)
        (by simp [constructCode, Instr.Opens])
  | @print x a dst s s₁ fa _ _ arg =>
      have harg : fa.Dispatches r s.cases a.cases := by simpa using arg hr
      rw [Phrase.cases_expr, Expr.cases]
      exact harg.append_plain (Code.comparisons_printCode _ _ _) (by simp [printCode, Instr.Opens])
  | @callVar x a dst s s₁ fa c _ refers arg =>
      have harg : fa.Dispatches r s.cases a.cases := by simpa using arg hr
      rw [Phrase.cases_expr, Expr.cases]
      exact (harg.append_plain refers.comparisons_eq refers.opens).append_plain rfl
        (by simp [callCode, Instr.Opens])
  | @call f a dst s s₁ s₂ ff fa callee hf ha func arg =>
      have hcases : s₁.cases = s.cases + f.cases.length := by simpa using hf.counters.2
      have hfunc : ff.Dispatches r s.cases f.cases := by
        simpa using func (ha.grows.tags.trans hr)
      have harg : fa.Dispatches r (s.cases + f.cases.length) a.cases := by
        rw [← hcases]
        simpa using arg hr
      rw [Phrase.cases_expr, Expr.cases]
      exact (hfunc.append harg ha.opens).append_plain rfl (by simp [callCode, Instr.Opens])
  | head notApp => exact .plain rfl
  | @arg f a s s₁ t regs before fa hf ha func last =>
      have hcases : s₁.cases = s.cases + (f.spine.2.flatMap Expr.cases).length := by
        simpa using hf.counters.2
      have hfunc : before.Dispatches r s.cases (f.spine.2.flatMap Expr.cases) := by
        simpa using func (ha.grows.tags.trans hr)
      have hlast : fa.Dispatches r (s.cases + (f.spine.2.flatMap Expr.cases).length) a.cases := by
        rw [← hcases]
        simpa using last hr
      have hall := hfunc.join hlast (h := before.prepend fa) (fun x hx => ?_) rfl
      · simpa [Expr.spine_app] using hall
      · rw [Fragment.code_prepend, Code.comparisons_append hf.opens] at hx
        exact (List.mem_append.mp hx).symm
  | body _ ih => exact ih hr
  | field hf ih => exact (ih hr).plain_append rfl hf.opens
  | noBranch => exact .plain rfl
  | @branch id value index c params e bs dst s s₁ t f fs hf hrest first rest =>
      have hcases : s₁.cases = s.cases + e.cases.length := by simpa using hf.counters.2
      have hfirst : f.Dispatches r s.cases e.cases := by
        simpa using first (hrest.grows.tags.trans hr)
      have hmarked := hfirst.plain_append (c := [.mark (.branch id index)]) rfl hf.opens
      have hbody := hmarked.append_plain (c := [.jump (.caseEnd id)]) rfl (by simp [Instr.Opens])
      have hothers := rest hr
      rw [hcases] at hothers
      simpa [Branch.body] using hbody.append hothers hrest.opens

section

variable {mode : Dispatch} {p : Program} {s t : LowerState} {fs : List Fragment}

theorem LowersDefs.opens (h : LowersDefs mode p s fs t) : ∀ f ∈ fs, f.code.Opens := by
  induction h with
  | nil s => simp
  | cons _ _ ih => simpa [Def.fragment, Instr.Opens] using ih

theorem LowersDefs.routines_opens (h : LowersDefs mode p s fs t) :
    ∀ b ∈ fs.flatMap Fragment.routines, b.code.Opens := by
  intro b hb i hi
  obtain ⟨n, hblock⟩ := h.routines.isRoutine (List.mem_map_of_mem hb)
  rw [hblock.opens] at hi
  cases hi
  trivial

theorem LowersDefs.tagged (h : LowersDefs mode p s fs t) {r : Registry}
    (hr : t.tags.entries <+: r.entries) :
    List.Forall₂ (fun f d => f.Tagged r d.body.shapes d.body.routineShapes) fs p := by
  induction h with
  | nil s => exact .nil
  | cons body others ih =>
      have hbody := body.tagged (others.grows.tags.trans hr)
      exact .cons ((hbody.plain_append rfl body.opens).append_plain rfl (by simp [Instr.Opens]))
        (ih hr)

theorem LowersDefs.dispatches (h : LowersDefs .tag p s fs t) {r : Registry}
    (hr : t.tags.entries <+: r.entries) : ∀ f ∈ fs, f.Dispatches r s.cases p.cases := by
  induction h with
  | nil s => simp
  | @cons d rest s s₁ t f fs body others ih =>
      have hcases : s₁.cases = s.cases + d.body.cases.length := by simpa using body.counters.2
      have hbody : f.Dispatches r s.cases d.body.cases := by
        simpa using body.dispatches (others.grows.tags.trans hr)
      have hfirst : (d.fragment (s.reg 1) f).Dispatches r s.cases d.body.cases :=
        (hbody.plain_append rfl body.opens).append_plain rfl (by simp [Instr.Opens])
      intro g hg
      rcases List.mem_cons.mp hg with rfl | hg
      · exact ⟨fun x hx => (hfirst.1 x hx).append_left,
          fun b hb x hx => (hfirst.2 b hb x hx).append_left⟩
      · have hrest := ih hr g hg
        rw [hcases] at hrest
        exact ⟨fun x hx => (hrest.1 x hx).append_right,
          fun b hb x hx => (hrest.2 b hb x hx).append_right⟩

end

namespace Code

variable {α : Type} {β : Type} {look : Instr → Instr → Option β}

/-- Nothing is found where blocks that open anew meet. -/
theorem findings_flatMap (hlook : ∀ i j, j.Opens → look i j = none) {code : α → Code}
    {as : List α} (h : ∀ a ∈ as, (code a).Opens) :
    Opens (as.flatMap code) ∧
      findings look (as.flatMap code) = as.flatMap fun a => findings look (code a) := by
  induction as with
  | nil => exact ⟨by simp, rfl⟩
  | cons a as ih =>
      obtain ⟨hopens, hfound⟩ := ih fun b hb => h b (by simp [hb])
      rw [List.flatMap_cons, List.flatMap_cons, findings_append hlook hopens, hfound]
      exact ⟨(h a (by simp)).append hopens, rfl⟩

/-- What is found in the code of a program is found in its routines and its definitions. -/
theorem findings_assemble (hlook : ∀ i j, j.Opens → look i j = none) {mode : Dispatch}
    {p : Program} {s t : LowerState} {fs : List Fragment} (h : LowersDefs mode p s fs t) :
    findings look (Program.assemble p fs) =
      ((fs.flatMap Fragment.routines).flatMap fun b => findings look b.code) ++
        fs.flatMap fun f => findings look f.code := by
  cases p with
  | nil =>
      rw [h.eq_nil_of_nil]
      rfl
  | cons d rest =>
      obtain ⟨hroutines, hfound⟩ := findings_flatMap hlook h.routines_opens
      obtain ⟨hdefs, hfound'⟩ := findings_flatMap hlook h.opens
      rw [Program.assemble, List.cons_append, ← List.singleton_append,
        findings_append hlook (hroutines.append hdefs), findings_append hlook hdefs, hfound,
        hfound']
      rfl

theorem tagWords_assemble {mode : Dispatch} {p : Program} {s t : LowerState} {fs : List Fragment}
    (h : LowersDefs mode p s fs t) :
    tagWords (Program.assemble p fs) =
      ((fs.flatMap Fragment.routines).flatMap fun b => b.code.tagWords) ++
        fs.flatMap fun f => f.code.tagWords :=
  findings_assemble (fun _ _ => Instr.Opens.tagWord?_eq_none) h

theorem comparisons_assemble {mode : Dispatch} {p : Program} {s t : LowerState}
    {fs : List Fragment} (h : LowersDefs mode p s fs t) :
    comparisons (Program.assemble p fs) =
      ((fs.flatMap Fragment.routines).flatMap fun b => b.code.comparisons) ++
        fs.flatMap fun f => f.code.comparisons :=
  findings_assemble (fun _ _ => Instr.Opens.comparison?_eq_none) h

end Code

namespace Compiler

/-- The registry of an accepted program has the built-in shapes and then the constructors of
the program in the order in which they are met first, with the next ids and the sizes they are
met with. The code stores the ids of the shapes of the program, in order, and by tag it
compares with the ids of the constructors of the branches. No word is the id of two shapes. -/
theorem tags_by_encounter {mode : Dispatch} {p : Program} {code : Code} {c : Compiler}
    (h : (new mode).compile p = (.ok code, c)) :
    c.state.tags.entries = Registry.builtin.entries ++
      ((firstEncounters ((p.encounters mode).filter
        fun x => x.1 ∉ Registry.builtin.names)).zipIdx 8).map (fun (x, id) => (x.1, ⟨id, x.2⟩)) ∧
    List.Forall₂ c.state.tags.Stands code.tagWords p.shapes ∧
    (mode = .tag → ∀ x ∈ code.comparisons, ∃ k bs i b, p.cases[k]? = some bs ∧
      bs[i]? = some b ∧ x.1 = .branch (k + 1) i ∧ c.state.tags.Stands x.2 b.ctor) ∧
    ∀ word shape shape', c.state.tags.Stands word shape → c.state.tags.Stands word shape' →
      shape = shape' := by
  have hcode : ((new mode).compile p).1 = .ok code := by rw [h]
  obtain rfl : ((new mode).compile p).2 = c := by rw [h]
  obtain ⟨-, fs, hfs, rfl⟩ := compile_eq_ok hcode
  refine ⟨entries_tags_eq hcode, ?_, ?_, ?_⟩
  · have htagged := hfs.tagged (List.prefix_refl _)
    rw [Code.tagWords_assemble hfs, List.flatMap_assoc]
    exact List.rel_append (List.rel_flatMap htagged fun _ _ hf => hf.inner)
      (List.rel_flatMap htagged fun _ _ hf => hf.own)
  · rintro rfl x hx
    have hdispatches := hfs.dispatches (List.prefix_refl _)
    have hleads : Registry.Leads ((new .tag).compile p).2.state.tags 0 p.cases x := by
      rw [Code.comparisons_assemble hfs] at hx
      rcases List.mem_append.mp hx with hx | hx
      · obtain ⟨b, hb, hx⟩ := List.mem_flatMap.mp hx
        obtain ⟨f, hf, hb⟩ := List.mem_flatMap.mp hb
        exact (hdispatches f hf).2 b hb x hx
      · obtain ⟨f, hf, hx⟩ := List.mem_flatMap.mp hx
        exact (hdispatches f hf).1 x hx
    obtain ⟨k, bs, i, b, hk, hi, hlabel, hword⟩ := hleads
    exact ⟨k, bs, i, b, hk, hi, by rw [hlabel, Nat.zero_add], hword⟩
  · intro word shape shape' hword hword'
    exact hword.eq hword' (hfs.grows.numbered Registry.numbered_builtin)

/-- `Pair` is met by a branch before it is made, and `A` by an argument inside of `B`. -/
def manyShapes : Program :=
  [⟨"main", .caseOf (.app (.ctor "B") (.app (.ctor "Cons") (.ctor "A")))
      [.mk "Pair" ["x", "y"] (.app (.app (.ctor "Pair") (.num 1)) (.lam "z" (.ctor "C")))]⟩,
    ⟨"other", .app (.app (.ctor "A") (.char 7)) (.ctor "Nil")⟩]

theorem tags_by_encounter_manyShapes : ∃ code c,
    (new .tag).compile manyShapes = (.ok code, c) ∧
      c.state.tags.added = [("B", ⟨8, 2⟩), ("A", ⟨9, 1⟩), ("Pair", ⟨10, 3⟩), ("C", ⟨11, 1⟩)] ∧
      List.Forall₂ c.state.tags.Stands code.tagWords
        ["C", "A", "Cons", "B", "Closure", "Num", "Pair", "Nil", "Char", "A"] := by
  obtain ⟨code, h⟩ := exists_code .tag manyShapes (by decide +kernel)
  have hboth : (new .tag).compile manyShapes = (.ok code, ((new .tag).compile manyShapes).2) := by
    rw [← h]
  obtain ⟨htags, hwords, -⟩ := tags_by_encounter hboth
  refine ⟨code, _, hboth, ?_, hwords⟩
  rw [Registry.added, htags]
  rfl

end Compiler

end Lowering
