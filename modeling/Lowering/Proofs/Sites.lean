import Lowering.Proofs.Labels
import Lowering.Proofs.Pieces

/-!
# Where expressions are lowered

A `Job` is one piece of lowering, with the states around it and the fragment that comes
out. `Part` relates a job to the jobs that it is put together from, as long as they stay
in the same block of code, and tells which names they find bound. `Reaches` follows the
parts from the definitions of a program, and enters the routine of a lambda as a block of
its own. Every lambda and every case of a program is reached (`LowersDefs.partsReached`).

Each job has a range of registers for itself, so the instructions that fill an object are
found in the code of the job that made it (`Reaches.onObject_perm`).
-/

namespace Lowering

/-- The register of the object that an instruction makes or fills. -/
@[simp] def Instr.object? : Instr → Option Reg
  | .alloc dst _ => some dst
  | .store dst _ _ => some dst
  | _ => none

/-- The register of an object is virtual, with a number above `lo` and up to `hi`. -/
def Reg.Between (lo hi : Nat) (r : Reg) : Prop := ∃ n : Nat, r = .virtual n ∧ lo < n ∧ n ≤ hi

theorem Reg.Between.mono {lo hi lo' hi' : Nat} {r : Reg} (h : r.Between lo hi) (hlo : lo' ≤ lo)
    (hhi : hi ≤ hi') : r.Between lo' hi' := by
  obtain ⟨n, rfl, hn, hn'⟩ := h
  exact ⟨n, rfl, by omega, by omega⟩

theorem LowerState.between_reg {s : LowerState} {i lo hi : Nat} (hlo : lo < s.next + i)
    (hhi : s.next + i ≤ hi) : (s.reg i).Between lo hi :=
  ⟨_, rfl, hlo, hhi⟩

/-- The object of the instruction, if any, is in a register of this range. -/
@[simp] def Instr.ObjectIn (lo hi : Nat) (i : Instr) : Prop :=
  ∀ r, i.object? = some r → r.Between lo hi

/-- All objects of the code are in registers of this range. -/
abbrev Code.ObjectsIn (lo hi : Nat) (code : Code) : Prop := code.Each (Instr.ObjectIn lo hi)

theorem Code.objectsIn_building {lo hi : Nat} {obj tmp dst : Reg} {fields : List Reg}
    (h : obj.Between lo hi) : Building (Instr.ObjectIn lo hi) obj tmp dst fields := by
  constructor <;> simp [h]

theorem Code.objectsIn_printCode {lo hi : Nat} (x : String) (tmp dst : Reg) :
    (printCode x tmp dst).ObjectsIn lo hi :=
  each_printCode (by simp) (by simp) (by simp) x

theorem Code.objectsIn_callCode {lo hi : Nat} (func arg address res dst : Reg) :
    (callCode func arg address res dst).ObjectsIn lo hi := by
  simp [each_callCode]

theorem Refers.objectsIn {x : String} {dst : Reg} {s : LowerState} {c : Code} {lo hi : Nat}
    (h : Refers x dst s c) : c.ObjectsIn lo hi := by
  cases h <;> simp

theorem RefersAll.objectsIn {xs : List String} {s : LowerState} {c : Code} {lo hi : Nat}
    (h : RefersAll xs s c) : c.ObjectsIn lo hi :=
  h.each fun _ _ _ _ hc => hc.objectsIn

theorem Compares.objectsIn {mode : Dispatch} {id : Nat} {tagReg wanted : Reg} {index : Nat}
    {bs : List Branch} {s t : LowerState} {code : Code} {lo hi : Nat}
    (h : Compares mode id tagReg wanted index bs s code t) : code.ObjectsIn lo hi :=
  h.each (by simp) (by simp)

/-- All objects of the fragment are in registers of this range. -/
abbrev Fragment.ObjectsIn (lo hi : Nat) (f : Fragment) : Prop := f.Each (Instr.ObjectIn lo hi)

theorem Fragment.ObjectsIn.mono {lo hi lo' hi' : Nat} {f : Fragment} (h : f.ObjectsIn lo hi)
    (hlo : lo' ≤ lo) (hhi : hi ≤ hi') : f.ObjectsIn lo' hi' :=
  Fragment.Each.mono h fun _ hi r hr => (hi r hr).mono hlo hhi

/-- Objects are made in registers that are handed out on the way. -/
theorem Lowers.objectsIn {mode : Dispatch} {ph : Phrase} {s t : LowerState} {regs : List Reg}
    {f : Fragment} (h : Lowers mode ph s regs f t) : f.ObjectsIn s.next t.next := by
  induction h with
  | primitive _ => simp [Code.objectsIn_printCode]
  | var refers => simp [refers.objectsIn]
  | ctor =>
      refine Fragment.each_ofCode.mpr ((Code.objectsIn_building ?_).ctorCode _)
      exact LowerState.between_reg (by simp) (by simp)
  | num =>
      refine Fragment.each_ofCode.mpr ((Code.objectsIn_building ?_).boxedCode _ _)
      exact LowerState.between_reg (by simp) (by simp)
  | char =>
      refine Fragment.each_ofCode.mpr ((Code.objectsIn_building ?_).boxedCode _ _)
      exact LowerState.between_reg (by simp) (by simp)
  | caseOf he compares hb scrutinee branches =>
      have h₁ := he.grows.next
      have h₂ := compares.grows.next
      have h₃ := hb.grows.next
      simp only [LowerState.next_enterCase, LowerState.next_skip] at *
      simp only [Fragment.each_append, Fragment.each_ofCode, Code.each_cons]
      refine ⟨⟨⟨scrutinee.mono (by omega) (by omega), by simp, compares.objectsIn⟩,
        branches.mono (by omega) (by omega)⟩, by simp⟩
  | letIn hv hb value body =>
      have h₁ := hv.grows.next
      have h₂ := hb.grows.next
      simp only [LowerState.next_inScope, LowerState.next_skip] at *
      exact Fragment.each_append.mpr
        ⟨value.mono (by omega) (by omega), body.mono (by omega) (by omega)⟩
  | lam _ hb values hs₂ body =>
      have h₁ := hb.grows.next
      subst hs₂
      simp only [LowerState.next_inScope, LowerState.next_skip, LowerState.next_enterRoutine,
        LowerState.next_withTag] at *
      refine Fragment.Each.lambda (body.mono (by omega) (by omega)) ?_
        fun hcode => Code.each_routineCode.mpr ⟨by simp, hcode, by simp⟩
      refine Code.each_append.mpr
        ⟨values.objectsIn, (Code.objectsIn_building ?_).closureCode _ _⟩
      exact LowerState.between_reg (by simp; omega) (by simp)
  | construct _ ha args =>
      have h₁ := ha.grows.next
      simp only [LowerState.next_withTag, LowerState.next_skip] at *
      refine Fragment.each_append.mpr ⟨args.mono (by omega) (by omega),
        Fragment.each_ofCode.mpr ((Code.objectsIn_building ?_).constructCode _)⟩
      exact LowerState.between_reg (by omega) (by omega)
  | print _ ha arg =>
      have h₁ := ha.grows.next
      simp only [LowerState.next_skip] at *
      simp [Code.objectsIn_printCode, arg.mono (Nat.le_refl _) (Nat.le_succ _)]
  | callVar ha refers arg =>
      have h₁ := ha.grows.next
      simp only [LowerState.next_skip] at *
      simp only [Fragment.each_append, Fragment.each_ofCode, Code.objectsIn_callCode,
        refers.objectsIn, and_true]
      exact arg.mono (by omega) (by omega)
  | call _ hf ha func arg =>
      have h₁ := hf.grows.next
      have h₂ := ha.grows.next
      simp only [LowerState.next_skip] at *
      simp only [Fragment.each_append, Fragment.each_ofCode, Code.objectsIn_callCode,
        and_true]
      exact ⟨func.mono (by omega) (by omega), arg.mono (by omega) (by omega)⟩
  | head _ => simp
  | arg hf ha func last =>
      have h₁ := hf.grows.next
      have h₂ := ha.grows.next
      simp only [LowerState.next_skip] at *
      exact Fragment.each_prepend.mpr
        ⟨func.mono (by omega) (by omega), last.mono (by omega) (by omega)⟩
  | body _ ih => exact ih
  | field hb ih =>
      have h₁ := hb.grows.next
      simp only [LowerState.next_inScope, LowerState.next_skip] at *
      exact Fragment.each_append.mpr ⟨by simp, ih.mono (by omega) (by omega)⟩
  | noBranch => simp
  | branch hf hr first rest =>
      have h₁ := hf.grows.next
      have h₂ := hr.grows.next
      simp only [Fragment.each_append, Fragment.each_ofCode, Code.each_cons]
      refine ⟨⟨⟨by simp, first.mono (by omega) (by omega)⟩, by simp⟩,
        rest.mono (by omega) (by omega)⟩

/-- The instructions that make or fill the object in a register. -/
def Code.onObject (obj : Reg) (code : Code) : Code := code.filter fun i => i.object? = some obj

@[simp] theorem Code.onObject_nil (obj : Reg) : onObject obj [] = [] := rfl

@[simp] theorem Code.onObject_cons (obj : Reg) (i : Instr) (c : Code) :
    onObject obj (i :: c) =
      if i.object? = some obj then i :: onObject obj c else onObject obj c := by
  simp only [onObject, List.filter_cons, decide_eq_true_eq]

@[simp] theorem Code.onObject_append (obj : Reg) (c d : Code) :
    onObject obj (c ++ d) = onObject obj c ++ onObject obj d :=
  List.filter_append c d

theorem Code.ObjectsIn.onObject_eq_nil {lo hi lo' hi' : Nat} {c : Code} {obj : Reg}
    (h : c.ObjectsIn lo' hi') (hobj : obj.Between lo hi) (hout : hi' ≤ lo ∨ hi ≤ lo') :
    c.onObject obj = [] := by
  rw [onObject, List.filter_eq_nil_iff]
  intro i hi hr
  obtain ⟨n, rfl, hlo, hhi⟩ := hobj
  obtain ⟨m, hm, hlo', hhi'⟩ := h i hi _ (of_decide_eq_true hr)
  have hnm := Reg.virtual_injective hm
  omega

/-- `g` is a piece of `f`, and all objects with registers in the range belong to `g`. -/
structure Fragment.Holds (lo hi : Nat) (f g : Fragment) : Prop where
  code : g.code <:+: f.code
  routines : g.routines ⊆ f.routines
  objects : ∀ obj : Reg, obj.Between lo hi →
    (f.allCode.onObject obj).Perm (g.allCode.onObject obj)

/-- The body of a lambda has its objects wherever its code is placed. -/
theorem Fragment.onObject_lambda_perm (code : Code) (f : Fragment) (label : Label)
    (closure arg res obj : Reg) (free : List String) :
    (Code.onObject obj (Fragment.allCode
      ⟨code, f.routines ++ [⟨label, routineCode label closure arg res f.code, free⟩]⟩)).Perm
        (code.onObject obj ++ f.allCode.onObject obj) := by
  have hplain : Code.onObject obj [.mark label, .movReg closure .callee, .movReg arg .argument] =
      [] ∧ Code.onObject obj [.movReg .result res, .ret] = [] := by
    simp
  simp only [allCode, routineCode, List.flatMap_append, List.flatMap_cons, List.flatMap_nil,
    Code.onObject_append, hplain, List.nil_append, List.append_nil]
  exact List.perm_append_comm.append_left _

namespace Fragment.Holds

variable {lo hi lo' hi' : Nat} {f g k : Fragment}

theorem refl (f : Fragment) : f.Holds lo hi f :=
  ⟨List.infix_refl _, List.Subset.refl _, fun _ _ => .refl _⟩

/-- Code on either side, with objects of its own, does not matter. -/
theorem widen {f' : Fragment} (h : f.Holds lo hi g) (hk : k.ObjectsIn lo' hi')
    (hout : hi' ≤ lo ∨ hi ≤ lo')
    (hcode : f'.code = f.code ++ k.code ∨ f'.code = k.code ++ f.code)
    (hroutines : f'.routines = f.routines ++ k.routines ∨
      f'.routines = k.routines ++ f.routines) : f'.Holds lo hi g := by
  refine ⟨h.code.trans ?_, List.Subset.trans h.routines ?_, ?_⟩
  · rcases hcode with hcode | hcode <;> rw [hcode]
    · exact (List.prefix_append _ _).isInfix
    · exact (List.suffix_append _ _).isInfix
  · rcases hroutines with hroutines | hroutines <;> simp [hroutines]
  · intro obj hobj
    have hnil := Code.ObjectsIn.onObject_eq_nil hk hobj hout
    have hf : f'.allCode.onObject obj = f.allCode.onObject obj := by
      simp only [allCode, Code.onObject_append, List.append_eq_nil_iff] at hnil ⊢
      rcases hcode with hcode | hcode <;> rcases hroutines with hroutines | hroutines <;>
        simp [hcode, hroutines, hnil]
    rw [hf]
    exact h.objects obj hobj

theorem append_left (h : f.Holds lo hi g) (hk : k.ObjectsIn lo' hi')
    (hout : hi' ≤ lo ∨ hi ≤ lo') : (f ++ k).Holds lo hi g :=
  h.widen hk hout (.inl rfl) (.inl rfl)

theorem append_right (h : f.Holds lo hi g) (hk : k.ObjectsIn lo' hi')
    (hout : hi' ≤ lo ∨ hi ≤ lo') : (k ++ f).Holds lo hi g :=
  h.widen hk hout (.inr rfl) (.inr rfl)

theorem prepend_left (h : f.Holds lo hi g) (hk : k.ObjectsIn lo' hi')
    (hout : hi' ≤ lo ∨ hi ≤ lo') : (f.prepend k).Holds lo hi g :=
  h.widen hk hout (.inr rfl) (.inl rfl)

theorem prepend_right (h : f.Holds lo hi g) (hk : k.ObjectsIn lo' hi')
    (hout : hi' ≤ lo ∨ hi ≤ lo') : (k.prepend f).Holds lo hi g :=
  h.widen hk hout (.inl rfl) (.inr rfl)

/-- Code without objects, since the range of their registers is empty. -/
theorem append_plain {c : Code} (h : f.Holds lo hi g) (hc : c.ObjectsIn 0 0) :
    (f ++ ofCode c).Holds lo hi g :=
  h.append_left (each_ofCode.mpr hc) (.inl (Nat.zero_le _))

theorem plain_append {c : Code} (h : f.Holds lo hi g) (hc : c.ObjectsIn 0 0) :
    (ofCode c ++ f).Holds lo hi g :=
  h.append_right (each_ofCode.mpr hc) (.inl (Nat.zero_le _))

end Fragment.Holds

/-- One piece of lowering: what is lowered, the state at its start, the registers and the
fragment that come out, and the state at its end. -/
structure Job where
  phrase : Phrase
  start : LowerState
  regs : List Reg
  out : Fragment
  done : LowerState

def Job.Lowered (mode : Dispatch) (j : Job) : Prop :=
  Lowers mode j.phrase j.start j.regs j.out j.done

/-- Names in registers on top of a scope, the innermost first. -/
def Scope.bindAll (c : Scope) (locals : List (String × Reg)) : Scope :=
  locals.foldr (fun (x, r) c => c.bind x (.register x r)) c

/-- A job that another one is put together from, in the same block of code, and the names
that are bound on the way to it. -/
inductive Part (mode : Dispatch) : Job → List (String × Reg) → Job → Prop where
  | scrutinee {e : Expr} {bs : List Branch} {dst : Reg} {s s₁ s₂ t : LowerState}
      {fe fb : Fragment} {tests : Code}
      (scrutinee : Lowers mode (.expr e (s.reg 1)) (s.skip 3).enterCase [] fe s₁)
      (compares : Compares mode (s.cases + 1) (s.reg 2) (s.reg 3) 0 bs s₁ tests s₂)
      (branches : Lowers mode (.branches (s.cases + 1) (s.reg 1) 0 bs dst) s₂ [] fb t) :
      Part mode
        ⟨.expr (.caseOf e bs) dst, s, [], fe ++ .ofCode (.load (s.reg 2) (s.reg 1) 0 :: tests) ++
          fb ++ .ofCode [.mark (.caseEnd (s.cases + 1))], t⟩ []
        ⟨.expr e (s.reg 1), (s.skip 3).enterCase, [], fe, s₁⟩
  | branches {e : Expr} {bs : List Branch} {dst : Reg} {s s₁ s₂ t : LowerState}
      {fe fb : Fragment} {tests : Code}
      (scrutinee : Lowers mode (.expr e (s.reg 1)) (s.skip 3).enterCase [] fe s₁)
      (compares : Compares mode (s.cases + 1) (s.reg 2) (s.reg 3) 0 bs s₁ tests s₂)
      (branches : Lowers mode (.branches (s.cases + 1) (s.reg 1) 0 bs dst) s₂ [] fb t) :
      Part mode
        ⟨.expr (.caseOf e bs) dst, s, [], fe ++ .ofCode (.load (s.reg 2) (s.reg 1) 0 :: tests) ++
          fb ++ .ofCode [.mark (.caseEnd (s.cases + 1))], t⟩ []
        ⟨.branches (s.cases + 1) (s.reg 1) 0 bs dst, s₂, [], fb, t⟩
  | letValue {x : String} {v b : Expr} {dst : Reg} {s s₁ s₂ : LowerState} {fv fb : Fragment}
      (value : Lowers mode (.expr v (s.reg 1)) (s.skip 1) [] fv s₁)
      (body : Lowers mode (.expr b dst)
        (s₁.inScope (s.scope.bind x (.register x (s.reg 1)))) [] fb s₂) :
      Part mode ⟨.expr (.letIn x v b) dst, s, [], fv ++ fb, s₂.inScope s.scope⟩ []
        ⟨.expr v (s.reg 1), s.skip 1, [], fv, s₁⟩
  | letBody {x : String} {v b : Expr} {dst : Reg} {s s₁ s₂ : LowerState} {fv fb : Fragment}
      (value : Lowers mode (.expr v (s.reg 1)) (s.skip 1) [] fv s₁)
      (body : Lowers mode (.expr b dst)
        (s₁.inScope (s.scope.bind x (.register x (s.reg 1)))) [] fb s₂) :
      Part mode ⟨.expr (.letIn x v b) dst, s, [], fv ++ fb, s₂.inScope s.scope⟩ [(x, s.reg 1)]
        ⟨.expr b dst, s₁.inScope (s.scope.bind x (.register x (s.reg 1))), [], fb, s₂⟩
  | fields {f a : Expr} {c : String} {n : Nat} {dst : Reg} {s s₁ : LowerState}
      {regs : List Reg} {fa : Fragment} (callee : f.callee = .ctor c n)
      (args : Lowers mode (.args (.app f a)) (s.withTag c (n + 2)) regs fa s₁) :
      Part mode
        ⟨.expr (.app f a) dst, s, [],
          fa ++ .ofCode (constructCode (s.tagOf c (n + 2)) regs (s₁.reg 1) (s₁.reg 2) dst),
          s₁.skip 2⟩ []
        ⟨.args (.app f a), s.withTag c (n + 2), regs, fa, s₁⟩
  | printed {x : String} {a : Expr} {dst : Reg} {s s₁ : LowerState} {fa : Fragment}
      (isPrimitive : isPrimitive x = true) (arg : Lowers mode (.expr a dst) s [] fa s₁) :
      Part mode
        ⟨.expr (.app (.var x) a) dst, s, [], fa ++ .ofCode (printCode x (s₁.reg 1) dst),
          s₁.skip 1⟩ []
        ⟨.expr a dst, s, [], fa, s₁⟩
  | varArg {x : String} {a : Expr} {dst : Reg} {s s₁ : LowerState} {fa : Fragment} {c : Code}
      (arg : Lowers mode (.expr a (s.reg 2)) (s.skip 2) [] fa s₁)
      (refers : Refers x (s.reg 1) s₁ c) :
      Part mode
        ⟨.expr (.app (.var x) a) dst, s, [], fa ++ .ofCode c ++
          .ofCode (callCode (s.reg 1) (s.reg 2) (s₁.reg 1) (s₁.reg 2) dst), s₁.skip 2⟩ []
        ⟨.expr a (s.reg 2), s.skip 2, [], fa, s₁⟩
  | func {f a : Expr} {dst : Reg} {s s₁ s₂ : LowerState} {ff fa : Fragment}
      (callee : f.callee = .other) (func : Lowers mode (.expr f (s.reg 1)) (s.skip 2) [] ff s₁)
      (arg : Lowers mode (.expr a (s.reg 2)) s₁ [] fa s₂) :
      Part mode
        ⟨.expr (.app f a) dst, s, [],
          ff ++ fa ++ .ofCode (callCode (s.reg 1) (s.reg 2) (s₂.reg 1) (s₂.reg 2) dst),
          s₂.skip 2⟩ []
        ⟨.expr f (s.reg 1), s.skip 2, [], ff, s₁⟩
  | arg {f a : Expr} {dst : Reg} {s s₁ s₂ : LowerState} {ff fa : Fragment}
      (callee : f.callee = .other) (func : Lowers mode (.expr f (s.reg 1)) (s.skip 2) [] ff s₁)
      (arg : Lowers mode (.expr a (s.reg 2)) s₁ [] fa s₂) :
      Part mode
        ⟨.expr (.app f a) dst, s, [],
          ff ++ fa ++ .ofCode (callCode (s.reg 1) (s.reg 2) (s₂.reg 1) (s₂.reg 2) dst),
          s₂.skip 2⟩ []
        ⟨.expr a (s.reg 2), s₁, [], fa, s₂⟩
  | before {f a : Expr} {s s₁ t : LowerState} {regs : List Reg} {ff fa : Fragment}
      (func : Lowers mode (.args f) s regs ff s₁)
      (last : Lowers mode (.expr a (s₁.reg 1)) (s₁.skip 1) [] fa t) :
      Part mode ⟨.args (.app f a), s, regs ++ [s₁.reg 1], ff.prepend fa, t⟩ []
        ⟨.args f, s, regs, ff, s₁⟩
  | last {f a : Expr} {s s₁ t : LowerState} {regs : List Reg} {ff fa : Fragment}
      (func : Lowers mode (.args f) s regs ff s₁)
      (last : Lowers mode (.expr a (s₁.reg 1)) (s₁.skip 1) [] fa t) :
      Part mode ⟨.args (.app f a), s, regs ++ [s₁.reg 1], ff.prepend fa, t⟩ []
        ⟨.expr a (s₁.reg 1), s₁.skip 1, [], fa, t⟩
  | body {value : Reg} {field : Nat} {e : Expr} {dst : Reg} {s t : LowerState} {f : Fragment}
      (body : Lowers mode (.expr e dst) s [] f t) :
      Part mode ⟨.fields value field [] e dst, s, [], f, t⟩ [] ⟨.expr e dst, s, [], f, t⟩
  | field {value : Reg} {field : Nat} {x : String} {params : List String} {e : Expr} {dst : Reg}
      {s s₁ : LowerState} {f : Fragment}
      (rest : Lowers mode (.fields value (field + 1) params e dst)
        ((s.skip 1).inScope (s.scope.bind x (.register x (s.reg 1)))) [] f s₁) :
      Part mode
        ⟨.fields value field (x :: params) e dst, s, [],
          .ofCode [.load (s.reg 1) value (field : Int)] ++ f, s₁.inScope s.scope⟩ [(x, s.reg 1)]
        ⟨.fields value (field + 1) params e dst,
          (s.skip 1).inScope (s.scope.bind x (.register x (s.reg 1))), [], f, s₁⟩
  | first {id : Nat} {value : Reg} {index : Nat} {c : String} {params : List String} {e : Expr}
      {bs : List Branch} {dst : Reg} {s s₁ t : LowerState} {f fs : Fragment}
      (first : Lowers mode (.fields value 1 params e dst) s [] f s₁)
      (rest : Lowers mode (.branches id value (index + 1) bs dst) s₁ [] fs t) :
      Part mode
        ⟨.branches id value index (.mk c params e :: bs) dst, s, [],
          .ofCode [.mark (.branch id index)] ++ f ++ .ofCode [.jump (.caseEnd id)] ++ fs, t⟩ []
        ⟨.fields value 1 params e dst, s, [], f, s₁⟩
  | others {id : Nat} {value : Reg} {index : Nat} {c : String} {params : List String} {e : Expr}
      {bs : List Branch} {dst : Reg} {s s₁ t : LowerState} {f fs : Fragment}
      (first : Lowers mode (.fields value 1 params e dst) s [] f s₁)
      (rest : Lowers mode (.branches id value (index + 1) bs dst) s₁ [] fs t) :
      Part mode
        ⟨.branches id value index (.mk c params e :: bs) dst, s, [],
          .ofCode [.mark (.branch id index)] ++ f ++ .ofCode [.jump (.caseEnd id)] ++ fs, t⟩ []
        ⟨.branches id value (index + 1) bs dst, s₁, [], fs, t⟩

/-- Lowering hands out the same whatever the scope is in the end. -/
theorem LowerState.Grows.upToScope {s t : LowerState} (h : s.Grows t) :
    s.Grows (t.inScope s.scope) :=
  .inScope (c := s.scope) h

namespace Part

open LowerState (Grows)

variable {mode : Dispatch} {j k : Job} {locals : List (String × Reg)}

theorem lowered (h : Part mode j locals k) : k.Lowered mode := by
  cases h <;> assumption

/-- The names that are bound on the way to a part are in scope there. -/
theorem scope_eq (h : Part mode j locals k) : k.start.scope = j.start.scope.bindAll locals := by
  cases h with
  | branches scrutinee compares _ => exact (scrutinee.grows.trans compares.grows).scope
  | arg _ func _ => exact func.grows.scope
  | last func _ => exact func.grows.scope
  | others first _ => exact first.grows.scope
  | _ => rfl

/-- A part has a range of registers of its own. -/
theorem holds (h : Part mode j locals k) :
    j.out.Holds k.start.next k.done.next k.out := by
  cases h with
  | scrutinee scrutinee compares branches =>
      refine .append_plain (.append_left (.append_plain (.refl _) ?_) branches.objectsIn
        (.inr compares.grows.next)) ?_
      · simp [compares.objectsIn]
      · simp
  | branches scrutinee compares branches =>
      refine .append_plain (.append_right (.refl _) (Fragment.each_append.mpr
        ⟨scrutinee.objectsIn, ?_⟩) (.inl compares.grows.next)) ?_
      · simp [compares.objectsIn]
      · simp
  | letValue value body =>
      exact (Fragment.Holds.refl _).append_left body.objectsIn (.inr (Nat.le_refl _))
  | letBody value body =>
      exact (Fragment.Holds.refl _).append_right value.objectsIn (.inl (Nat.le_refl _))
  | @fields f a c n dst s s₁ regs fa callee args =>
      have hobject : (s₁.reg 1).Between s₁.next (s₁.next + 1) :=
        LowerState.between_reg (Nat.lt_succ_self _) (Nat.le_refl _)
      exact .append_left (.refl _)
        (Fragment.each_ofCode.mpr ((Code.objectsIn_building hobject).constructCode _))
        (.inr (Nat.le_refl _))
  | printed isPrimitive arg =>
      exact (Fragment.Holds.refl _).append_plain (Code.objectsIn_printCode _ _ _)
  | varArg arg refers =>
      exact ((Fragment.Holds.refl _).append_plain refers.objectsIn).append_plain
        (Code.objectsIn_callCode _ _ _ _ _)
  | func callee func arg =>
      exact ((Fragment.Holds.refl _).append_left arg.objectsIn (.inr (Nat.le_refl _))).append_plain
        (Code.objectsIn_callCode _ _ _ _ _)
  | arg callee func arg =>
      exact ((Fragment.Holds.refl _).append_right func.objectsIn
        (.inl (Nat.le_refl _))).append_plain (Code.objectsIn_callCode _ _ _ _ _)
  | before func last =>
      exact (Fragment.Holds.refl _).prepend_left last.objectsIn (.inr (Nat.le_succ _))
  | last func last =>
      exact (Fragment.Holds.refl _).prepend_right func.objectsIn (.inl (Nat.le_succ _))
  | body body => exact .refl _
  | field rest => exact (Fragment.Holds.refl _).plain_append (by simp)
  | first first rest =>
      refine .append_left (.append_plain (.plain_append (.refl _) ?_) ?_) rest.objectsIn
        (.inr (Nat.le_refl _))
      · simp
      · simp
  | others first rest =>
      refine .append_right (.refl _) (Fragment.each_append.mpr
        ⟨Fragment.each_append.mpr ⟨?_, first.objectsIn⟩, ?_⟩) (.inl (Nat.le_refl _))
      · simp
      · simp

/-- What was handed out before a job is still there when one of its parts starts. -/
theorem start_grows (h : Part mode j locals k) :
    j.start.Grows (k.start.inScope j.start.scope) := by
  cases h with
  | scrutinee _ _ _ => exact ((Grows.skip _ 3).trans (.enterCase _)).upToScope
  | branches scrutinee compares _ =>
      exact (((Grows.skip _ 3).trans (.enterCase _)).trans
        (scrutinee.grows.trans compares.grows)).upToScope
  | letValue _ _ => exact (Grows.skip _ 1).upToScope
  | letBody value _ => exact ((Grows.skip _ 1).trans value.grows).upToScope
  | fields _ _ => exact (Grows.withTag _ _ _).upToScope
  | printed _ _ => exact (Grows.refl _).upToScope
  | varArg _ _ => exact (Grows.skip _ 2).upToScope
  | func _ _ _ => exact (Grows.skip _ 2).upToScope
  | arg _ func _ => exact ((Grows.skip _ 2).trans func.grows).upToScope
  | before _ _ => exact (Grows.refl _).upToScope
  | last func _ => exact (func.grows.trans (.skip _ 1)).upToScope
  | body _ => exact (Grows.refl _).upToScope
  | field _ => exact (Grows.skip _ 1).upToScope
  | first _ _ => exact (Grows.refl _).upToScope
  | others first _ => exact first.grows.upToScope

/-- What a part hands out is still there when the whole job is done. -/
theorem done_grows (h : Part mode j locals k) : k.done.Grows (j.done.inScope k.done.scope) := by
  cases h with
  | scrutinee _ compares branches => exact (compares.grows.trans branches.grows).upToScope
  | branches _ _ _ => exact (Grows.refl _).upToScope
  | letValue _ body =>
      have hbody := Grows.inScope body.grows
      exact hbody
  | letBody _ _ => exact (Grows.refl _).upToScope
  | fields _ _ => exact (Grows.skip _ 2).upToScope
  | printed _ _ => exact (Grows.skip _ 1).upToScope
  | varArg _ _ => exact (Grows.skip _ 2).upToScope
  | func _ _ arg => exact (arg.grows.trans (.skip _ 2)).upToScope
  | arg _ _ _ => exact (Grows.skip _ 2).upToScope
  | before _ last => exact ((Grows.skip _ 1).trans last.grows).upToScope
  | last _ _ => exact (Grows.refl _).upToScope
  | body _ => exact (Grows.refl _).upToScope
  | field _ => exact (Grows.refl _).upToScope
  | first _ rest => exact rest.grows.upToScope
  | others _ _ => exact (Grows.refl _).upToScope

theorem next_le (h : Part mode j locals k) :
    j.start.next ≤ k.start.next ∧ k.done.next ≤ j.done.next :=
  ⟨h.start_grows.next, h.done_grows.next⟩

end Part

/-- A block of code, and the scope at its start. -/
structure Block where
  scope : Scope
  code : Code

/-- The job is part of lowering the program to the fragments `fs`. It is in the given block,
below binders of the given names. -/
inductive Reaches (mode : Dispatch) (p : Program) (fs : List Fragment) :
    Block → List (String × Reg) → Job → Prop where
  | definition {before after : Program} {d : Def} {fs₁ fs₂ : List Fragment} {s s₁ t : LowerState}
      {f : Fragment} (hp : p = before ++ d :: after)
      (hfs : fs = fs₁ ++ d.fragment (s.reg 1) f :: fs₂)
      (earlier : LowersDefs mode before (.declared (p.map Def.name)) fs₁ s)
      (body : Lowers mode (.expr d.body (s.reg 1)) (s.skip 1) [] f s₁)
      (later : LowersDefs mode after s₁ fs₂ t) :
      Reaches mode p fs ⟨{}, (d.fragment (s.reg 1) f).code⟩ []
        ⟨.expr d.body (s.reg 1), s.skip 1, [], f, s₁⟩
  | part {block : Block} {locals names : List (String × Reg)} {j k : Job}
      (whole : Reaches mode p fs block locals j) (part : Part mode j names k) :
      Reaches mode p fs block (names ++ locals) k
  | routine {block : Block} {locals : List (String × Reg)} {x : String} {e : Expr} {dst : Reg}
      {s s₁ s₂ : LowerState} {fe : Fragment} {captured : List String} {loads : Code}
      (hcaptured : captured = captures s.env x e)
      (body : Lowers mode (.expr e (s.reg 3))
        ((s.enterRoutine.skip 3).inScope (routineScope (s.reg 1) x (s.reg 2) captured)) [] fe s₁)
      (values : RefersAll captured (s₁.inScope s.scope) loads)
      (hs₂ : s₂ = (s₁.inScope s.scope).skip captured.length)
      (lambda : Reaches mode p fs block locals ⟨.expr (.lam x e) dst, s, [],
        ⟨loads ++ closureCode (s₂.tagOf "Closure" 1) (.routine s.routines)
            ((s₁.inScope s.scope).regs captured.length) (s₂.reg 1) (s₂.reg 2) dst,
          fe.routines ++ [⟨.routine s.routines,
            routineCode (.routine s.routines) (s.reg 1) (s.reg 2) (s.reg 3) fe.code, captured⟩]⟩,
        (s₂.withTag "Closure" 1).skip 2⟩) :
      Reaches mode p fs
        ⟨routineScope (s.reg 1) x (s.reg 2) captured,
          routineCode (.routine s.routines) (s.reg 1) (s.reg 2) (s.reg 3) fe.code⟩ []
        ⟨.expr e (s.reg 3),
          (s.enterRoutine.skip 3).inScope (routineScope (s.reg 1) x (s.reg 2) captured), [], fe, s₁⟩

theorem LowersDefs.objectsIn {mode : Dispatch} {p : Program} {s t : LowerState}
    {fs : List Fragment} (h : LowersDefs mode p s fs t) :
    ∀ f ∈ fs, f.ObjectsIn s.next t.next := by
  induction h with
  | nil => simp
  | @cons d _ s s₁ t f _ body others ih =>
      have hbody := body.grows.next
      have hothers := others.grows.next
      rw [LowerState.next_skip] at hbody
      intro g hg
      rcases List.mem_cons.mp hg with rfl | hg
      · have hf : f.ObjectsIn s.next t.next :=
          body.objectsIn.mono (by rw [LowerState.next_skip]; omega) (by omega)
        simp [Def.fragment, hf]
      · exact (ih g hg).mono (by omega) (by omega)

namespace Program

theorem assemble_of_mem {p : Program} {d : Def} (hd : d ∈ p) (fs : List Fragment) :
    ∃ label, assemble p fs = .jump label ::
      ((fs.flatMap Fragment.routines).flatMap Routine.code ++ fs.flatMap Fragment.code) := by
  cases p with
  | nil => simp at hd
  | cons c rest => exact ⟨⟨c.name⟩, rfl⟩

/-- Fragments that have nothing to do with an object leave no trace of it. -/
theorem onObject_flatMap_eq_nil {lo hi lo' hi' : Nat} {fs : List Fragment} {obj : Reg}
    (hobj : obj.Between lo hi) (hfs : ∀ f ∈ fs, f.ObjectsIn lo' hi')
    (hout : hi' ≤ lo ∨ hi ≤ lo') :
    Code.onObject obj ((fs.flatMap Fragment.routines).flatMap Routine.code) = [] ∧
      Code.onObject obj (fs.flatMap Fragment.code) = [] := by
  induction fs with
  | nil => exact ⟨rfl, rfl⟩
  | cons f fs ih =>
      have hnil := Code.ObjectsIn.onObject_eq_nil (hfs f (by simp)) hobj hout
      obtain ⟨hroutines, hcode⟩ := ih fun g hg => hfs g (by simp [hg])
      rw [Fragment.allCode, Code.onObject_append, List.append_eq_nil_iff] at hnil
      simp [hnil, hroutines, hcode]

end Program

namespace Reaches

variable {mode : Dispatch} {p : Program} {fs : List Fragment} {block : Block}
  {locals : List (String × Reg)} {j : Job}

theorem lowered (h : Reaches mode p fs block locals j) : j.Lowered mode := by
  cases h with
  | definition _ _ _ body _ => exact body
  | part _ part => exact part.lowered
  | routine _ body _ _ _ => exact body

/-- The scope of a job is that of its block, with the names bound since. -/
theorem scope_eq (h : Reaches mode p fs block locals j) :
    j.start.scope = block.scope.bindAll locals := by
  induction h with
  | definition hp hfs earlier body later => exact earlier.grows.scope
  | part _ part ih =>
      rw [part.scope_eq, ih]
      exact List.foldr_append.symm
  | routine _ _ _ _ _ => rfl

theorem code_within (h : Reaches mode p fs block locals j) : j.out.code <:+: block.code := by
  induction h with
  | definition _ _ _ _ _ => exact List.infix_append _ _ _
  | part _ part ih => exact part.holds.code.trans ih
  | routine _ _ _ _ _ => exact List.infix_append _ _ _

theorem routines_subset (h : Reaches mode p fs block locals j) :
    j.out.routines ⊆ fs.flatMap Fragment.routines := by
  induction h with
  | definition _ hfs _ _ _ => simp [hfs, Def.fragment]
  | part _ part ih => exact List.Subset.trans part.holds.routines ih
  | routine _ _ _ _ _ ih => exact List.Subset.trans (List.subset_append_left _ _) ih

theorem exists_def (h : Reaches mode p fs block locals j) : ∃ d, d ∈ p := by
  induction h with
  | @definition _ _ d _ _ _ _ _ _ hp _ _ _ _ => exact ⟨d, by simp [hp]⟩
  | part _ _ ih => exact ih
  | routine _ _ _ _ _ ih => exact ih

/-- The blocks of a program stand in its code. -/
theorem block_within (h : Reaches mode p fs block locals j) :
    block.code <:+: Program.assemble p fs := by
  obtain ⟨d, hd⟩ := h.exists_def
  obtain ⟨label, hcode⟩ := Program.assemble_of_mem hd fs
  rw [hcode]
  refine List.IsInfix.trans ?_ (List.suffix_cons _ _).isInfix
  induction h with
  | @definition _ _ d _ _ s _ _ f _ hfs _ _ _ =>
      have hmem : d.fragment (s.reg 1) f ∈ fs := by simp [hfs]
      exact (Code.within_flatMap Fragment.code hmem).trans (List.suffix_append _ _).isInfix
  | part _ _ ih => exact ih
  | routine _ _ _ _ lambda _ =>
      have hmem := lambda.routines_subset (List.mem_append_right _ (List.mem_singleton_self _))
      exact (Code.within_flatMap Routine.code hmem).trans (List.prefix_append _ _).isInfix

/-- A job starts with the built-in tags and those that were given out since. -/
theorem tags_start (h : Reaches mode p fs block locals j) :
    Registry.builtin.entries <+: j.start.tags.entries ∧ j.start.tags.Numbered := by
  induction h with
  | definition _ _ earlier _ _ =>
      exact ⟨earlier.grows.tags, earlier.grows.numbered Registry.numbered_builtin⟩
  | part _ part ih =>
      exact ⟨ih.1.trans part.start_grows.tags, part.start_grows.numbered ih.2⟩
  | routine _ _ _ _ _ ih => exact ih

/-- The instructions on an object all stand in the job that its register belongs to. -/
theorem onObject_perm (h : Reaches mode p fs block locals j) {obj : Reg}
    (hobj : obj.Between j.start.next j.done.next) :
    ((Program.assemble p fs).onObject obj).Perm (j.out.allCode.onObject obj) := by
  induction h with
  | @definition _ _ d _ _ s _ _ f hp hfs earlier body later =>
      obtain ⟨label, hcode⟩ := Program.assemble_of_mem (p := p) (d := d) (by simp [hp]) fs
      have h₁ := Program.onObject_flatMap_eq_nil hobj earlier.objectsIn (.inl (Nat.le_succ _))
      have h₂ := Program.onObject_flatMap_eq_nil hobj later.objectsIn (.inr (Nat.le_refl _))
      have hplain : Code.onObject obj [.jump label] = [] ∧ Code.onObject obj [.mark ⟨d.name⟩] = [] ∧
          Code.onObject obj [.movReg (.global d.name) (s.reg 1)] = [] := by
        simp
      rw [hcode, hfs, ← List.singleton_append]
      simp only [List.flatMap_append, List.flatMap_cons, Code.onObject_append, h₁, h₂, hplain,
        Def.fragment, Fragment.code_append, Fragment.routines_append, Fragment.code_ofCode,
        Fragment.routines_ofCode, Fragment.allCode, List.nil_append, List.append_nil]
      exact List.perm_append_comm
  | part _ part ih =>
      exact (ih (hobj.mono part.next_le.1 part.next_le.2)).trans (part.holds.objects obj hobj)
  | @routine _ _ _ _ _ s s₁ s₂ _ captured _ _ body values hs₂ _ ih =>
      have hbody := body.grows.next
      have hs₁ : s₂.next = s₁.next + captured.length := by simp [hs₂]
      simp only [LowerState.next_inScope, LowerState.next_skip, LowerState.next_enterRoutine,
        LowerState.next_withTag] at ih hobj hbody
      refine (ih (hobj.mono (by omega) (by omega))).trans ?_
      refine (Fragment.onObject_lambda_perm _ _ _ _ _ _ _ _).trans ?_
      have hobject : (s₂.reg 1).Between s₂.next (s₂.next + 1) :=
        LowerState.between_reg (Nat.lt_succ_self _) (Nat.le_refl _)
      rw [Code.ObjectsIn.onObject_eq_nil (Code.each_append.mpr
        ⟨values.objectsIn, (Code.objectsIn_building hobject).closureCode _ _⟩) hobj
        (.inr (by omega))]
      rfl

end Reaches

section

variable {α : Type} {P : Nat → α → Prop} {n : Nat}

/-- What holds of numbered members holds of them in a longer list. -/
theorem forall_getElem?_append {xs ys : List α} (hxs : ∀ i a, xs[i]? = some a → P (n + i) a)
    (hys : ∀ i a, ys[i]? = some a → P (n + xs.length + i) a) :
    ∀ i a, (xs ++ ys)[i]? = some a → P (n + i) a := by
  intro i a hi
  rcases Nat.lt_or_ge i xs.length with hlt | hge
  · rw [List.getElem?_append_left hlt] at hi
    exact hxs i a hi
  · rw [List.getElem?_append_right hge] at hi
    have hrest := hys (i - xs.length) a hi
    rwa [Nat.add_assoc, Nat.add_sub_cancel' hge] at hrest

theorem forall_getElem?_cons {x : α} {xs : List α} (hx : P n x)
    (hxs : ∀ i a, xs[i]? = some a → P (n + 1 + i) a) :
    ∀ i a, (x :: xs)[i]? = some a → P (n + i) a := by
  show ∀ i a, ([x] ++ xs)[i]? = some a → P (n + i) a
  refine forall_getElem?_append ?_ hxs
  intro i a hi
  obtain ⟨rfl, rfl⟩ : i = 0 ∧ x = a := by simpa [List.getElem?_singleton] using hi
  exact hx

end

section

variable (mode : Dispatch) (p : Program) (fs : List Fragment)

/-- The lambda is lowered as the routine with this number. -/
def LambdaReached (number : Nat) (x : String) (e : Expr) : Prop :=
  ∃ block locals dst s out done,
    Reaches mode p fs block locals ⟨.expr (.lam x e) dst, s, [], out, done⟩ ∧ s.routines = number

/-- The lambdas are lowered as routines that are numbered from `r` on. -/
def LambdasReached (r : Nat) (lambdas : List (String × Expr)) : Prop :=
  ∀ i x e, lambdas[i]? = some (x, e) → LambdaReached mode p fs (r + i) x e

/-- A case with these branches is lowered after this many others. -/
def CaseReached (earlier : Nat) (bs : List Branch) : Prop :=
  ∃ block locals e dst s out done,
    Reaches mode p fs block locals ⟨.expr (.caseOf e bs) dst, s, [], out, done⟩ ∧ s.cases = earlier

/-- The cases are lowered in this order, after `c` others. -/
def CasesReached (c : Nat) (cases : List (List Branch)) : Prop :=
  ∀ i bs, cases[i]? = some bs → CaseReached mode p fs (c + i) bs

/-- The lambdas and the cases of a phrase are all reached, in their order. -/
structure PhraseReached (s : LowerState) (ph : Phrase) : Prop where
  lambdas : LambdasReached mode p fs s.routines ph.lambdas
  cases : CasesReached mode p fs s.cases ph.cases

end

section

variable {mode : Dispatch} {p : Program} {fs : List Fragment} {r c : Nat}

namespace LambdasReached

theorem nil : LambdasReached mode p fs r [] := by
  simp [LambdasReached]

theorem cons {x : String} {e : Expr} {rest : List (String × Expr)}
    (hx : LambdaReached mode p fs r x e) (hrest : LambdasReached mode p fs (r + 1) rest) :
    LambdasReached mode p fs r ((x, e) :: rest) :=
  fun i x e => forall_getElem?_cons (P := fun k a => LambdaReached mode p fs k a.1 a.2) hx
    (fun j a => hrest j a.1 a.2) i (x, e)

theorem append {first rest : List (String × Expr)} (hfirst : LambdasReached mode p fs r first)
    (hrest : LambdasReached mode p fs (r + first.length) rest) :
    LambdasReached mode p fs r (first ++ rest) :=
  fun i x e => forall_getElem?_append (P := fun k a => LambdaReached mode p fs k a.1 a.2)
    (fun j a => hfirst j a.1 a.2) (fun j a => hrest j a.1 a.2) i (x, e)

end LambdasReached

namespace CasesReached

theorem nil : CasesReached mode p fs c [] := by
  simp [CasesReached]

theorem cons {bs : List Branch} {rest : List (List Branch)} (hbs : CaseReached mode p fs c bs)
    (hrest : CasesReached mode p fs (c + 1) rest) : CasesReached mode p fs c (bs :: rest) :=
  forall_getElem?_cons hbs hrest

theorem append {first rest : List (List Branch)} (hfirst : CasesReached mode p fs c first)
    (hrest : CasesReached mode p fs (c + first.length) rest) :
    CasesReached mode p fs c (first ++ rest) :=
  forall_getElem?_append hfirst hrest

end CasesReached

end

/-- All lambdas and all cases of a job that is reached are reached, in their order. -/
theorem Lowers.phraseReached {mode : Dispatch} {p : Program} {fs : List Fragment} {ph : Phrase}
    {s t : LowerState} {regs : List Reg} {f : Fragment} (h : Lowers mode ph s regs f t) :
    ∀ {block : Block} {locals : List (String × Reg)},
      Reaches mode p fs block locals ⟨ph, s, regs, f, t⟩ → PhraseReached mode p fs s ph := by
  induction h with
  | primitive _ => exact fun _ => ⟨.nil, .nil⟩
  | var _ => exact fun _ => ⟨.nil, .nil⟩
  | ctor => exact fun _ => ⟨.nil, .nil⟩
  | num => exact fun _ => ⟨.nil, .nil⟩
  | char => exact fun _ => ⟨.nil, .nil⟩
  | caseOf he compares hb scrutinee branches =>
      intro _ _ hr
      obtain ⟨hlambdas, hcases⟩ := scrutinee (hr.part (.scrutinee he compares hb))
      obtain ⟨hlambdas', hcases'⟩ := branches (hr.part (.branches he compares hb))
      simp [compares.counters, he.counters] at *
      refine ⟨?_, ?_⟩
      · simpa [Expr.lambdas, lambdasInBranches_eq] using hlambdas.append hlambdas'
      · simpa [Expr.cases, casesInBranches_eq] using
          CasesReached.cons ⟨_, _, _, _, _, _, _, hr, rfl⟩ (hcases.append hcases')
  | letIn hv hb value body =>
      intro _ _ hr
      obtain ⟨hlambdas, hcases⟩ := value (hr.part (.letValue hv hb))
      obtain ⟨hlambdas', hcases'⟩ := body (hr.part (.letBody hv hb))
      simp [hv.counters] at *
      exact ⟨by simpa [Expr.lambdas] using hlambdas.append hlambdas',
        by simpa [Expr.cases] using hcases.append hcases'⟩
  | lam hcaptured hb values hs₂ body =>
      intro _ _ hr
      obtain ⟨hlambdas, hcases⟩ := body (.routine hcaptured hb values hs₂ hr)
      simp at *
      exact ⟨by simpa [Expr.lambdas] using
          LambdasReached.cons ⟨_, _, _, _, _, _, hr, rfl⟩ hlambdas,
        by simpa [Expr.cases] using hcases⟩
  | construct callee ha args =>
      intro _ _ hr
      obtain ⟨hlambdas, hcases⟩ := args (hr.part (.fields callee ha))
      exact ⟨by simpa [Expr.lambdas_of_callee_ctor callee] using hlambdas,
        by simpa [Expr.cases_of_callee_ctor callee] using hcases⟩
  | print hx ha arg =>
      intro _ _ hr
      obtain ⟨hlambdas, hcases⟩ := arg (hr.part (.printed hx ha))
      exact ⟨by simpa [Expr.lambdas] using hlambdas, by simpa [Expr.cases] using hcases⟩
  | callVar ha refers arg =>
      intro _ _ hr
      obtain ⟨hlambdas, hcases⟩ := arg (hr.part (.varArg ha refers))
      exact ⟨by simpa [Expr.lambdas] using hlambdas, by simpa [Expr.cases] using hcases⟩
  | call callee hf ha func arg =>
      intro _ _ hr
      obtain ⟨hlambdas, hcases⟩ := func (hr.part (.func callee hf ha))
      obtain ⟨hlambdas', hcases'⟩ := arg (hr.part (.arg callee hf ha))
      simp [hf.counters] at *
      exact ⟨by simpa [Expr.lambdas] using hlambdas.append hlambdas',
        by simpa [Expr.cases] using hcases.append hcases'⟩
  | head notApp =>
      intro _ _ _
      constructor
      · simp only [Phrase.lambdas, Phrase.parts, Expr.spine_of_not_app notApp]
        exact .nil
      · simp only [Phrase.cases, Phrase.parts, Expr.spine_of_not_app notApp]
        exact .nil
  | arg hf ha func last =>
      intro _ _ hr
      obtain ⟨hlambdas, hcases⟩ := func (hr.part (.before hf ha))
      obtain ⟨hlambdas', hcases'⟩ := last (hr.part (.last hf ha))
      simp [hf.counters, -List.length_flatMap] at *
      exact ⟨by simpa [Expr.spine_app] using hlambdas.append hlambdas',
        by simpa [Expr.spine_app] using hcases.append hcases'⟩
  | body hb ih =>
      intro _ _ hr
      obtain ⟨hlambdas, hcases⟩ := ih (hr.part (.body hb))
      exact ⟨hlambdas, hcases⟩
  | field hb ih =>
      intro _ _ hr
      obtain ⟨hlambdas, hcases⟩ := ih (hr.part (.field hb))
      exact ⟨hlambdas, hcases⟩
  | noBranch => exact fun _ => ⟨.nil, .nil⟩
  | branch hf hrest first rest =>
      intro _ _ hr
      obtain ⟨hlambdas, hcases⟩ := first (hr.part (.first hf hrest))
      obtain ⟨hlambdas', hcases'⟩ := rest (hr.part (.others hf hrest))
      simp [hf.counters] at *
      exact ⟨by simpa [Branch.body] using hlambdas.append hlambdas',
        by simpa [Branch.body] using hcases.append hcases'⟩

theorem LowersDefs.append {mode : Dispatch} {p q : Program} {s s₁ t : LowerState}
    {fs gs : List Fragment} (h : LowersDefs mode p s fs s₁) (h' : LowersDefs mode q s₁ gs t) :
    LowersDefs mode (p ++ q) s (fs ++ gs) t := by
  induction h with
  | nil => exact h'
  | cons body _ ih => exact .cons body (ih h')

theorem LowersDefs.partsReached {mode : Dispatch} {p after : Program} (before : Program)
    {s t : LowerState} {fs fs₂ : List Fragment} (fs₁ : List Fragment) (hp : p = before ++ after)
    (hfs : fs = fs₁ ++ fs₂) (earlier : LowersDefs mode before (.declared (p.map Def.name)) fs₁ s)
    (h : LowersDefs mode after s fs₂ t) :
    LambdasReached mode p fs s.routines (Program.lambdas after) ∧
      CasesReached mode p fs s.cases (Program.cases after) := by
  induction h generalizing before fs₁ with
  | nil => exact ⟨.nil, .nil⟩
  | @cons d rest s s₁ t f gs body others ih =>
      obtain ⟨hlambdas, hcases⟩ := body.phraseReached (.definition hp hfs earlier body others)
      obtain ⟨hlambdas', hcases'⟩ := ih (before ++ [d]) (fs₁ ++ [d.fragment (s.reg 1) f])
        (by simp [hp]) (by simp [hfs]) (earlier.append (.cons body (.nil s₁)))
      simp [body.counters] at hlambdas hlambdas' hcases hcases'
      exact ⟨hlambdas.append hlambdas', hcases.append hcases'⟩

theorem LowersDefs.lambdasReached {mode : Dispatch} {p after : Program} (before : Program)
    {s t : LowerState} {fs fs₂ : List Fragment} (fs₁ : List Fragment) (hp : p = before ++ after)
    (hfs : fs = fs₁ ++ fs₂) (earlier : LowersDefs mode before (.declared (p.map Def.name)) fs₁ s)
    (h : LowersDefs mode after s fs₂ t) :
    LambdasReached mode p fs s.routines (Program.lambdas after) :=
  (LowersDefs.partsReached before fs₁ hp hfs earlier h).1

end Lowering
