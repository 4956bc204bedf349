import Lowering.Proofs.Captures
import Lowering.Proofs.Spine
import Lowering.Proofs.State

/-!
# The rules of lowering

`Lowers mode ph s regs f t` says how a phrase is lowered from state `s` to state `t`:
there is one rule for each construct, which gives the state that each part starts
from and puts the code together. The function follows the rules
(`Expr.lowers_of_lower`), so a fact about all lowered code is proved by induction on
them.

Registers are handed out by number: `s.reg i` is the register of the `i`-th request
after `s`. Scopes are left as they were found (`Lowers.grows`).
-/

namespace Lowering

open LowerM

/-- Print the payload of the object in `dst`. -/
def printCode (x : String) (tmp dst : Reg) : Code :=
  [.load tmp dst 1, if x = printCharName then .printChar tmp else .print tmp]

/-- Build an object with a tag and a word. -/
def boxedCode (t : Tag) (value : Int64) (tmp obj dst : Reg) : Code :=
  [.alloc obj t.size] ++ storeInt obj 0 tmp t.id ++ storeInt obj 1 tmp value.toInt ++
    [.movReg dst obj]

/-- Build an object of which only the tag is set. -/
def ctorCode (t : Tag) (tmp obj dst : Reg) : Code :=
  [.alloc obj t.size] ++ storeInt obj 0 tmp t.id ++ [.movReg dst obj]

/-- Build an object with a tag and the given fields. -/
def constructCode (t : Tag) (args : List Reg) (obj tmp dst : Reg) : Code :=
  [.alloc obj (args.length + 1 : Nat)] ++ storeInt obj 0 tmp t.id ++ storeAll obj 1 args ++
    [.movReg dst obj]

/-- Build a closure. -/
def closureCode (t : Tag) (label : Label) (captured : List Reg) (obj tmp dst : Reg) : Code :=
  [.alloc obj (captureOffset + captured.length : Nat)] ++ storeInt obj 0 tmp t.id ++
    [.movLabel tmp label, .store obj 1 tmp] ++ storeAll obj captureOffset captured ++
    [.movReg dst obj]

/-- Call the closure in `func`. -/
def callCode (func arg address res dst : Reg) : Code :=
  [.load address func 1, .movReg .callee func, .movReg .argument arg, .icall address,
    .movReg res .result, .movReg dst res]

/-- The routine of a lambda around the code of its body. -/
def routineCode (label : Label) (closure arg res : Reg) (body : Code) : Code :=
  [.mark label, .movReg closure .callee, .movReg arg .argument] ++ body ++
    [.movReg .result res, .ret]

/-- The code of a fragment together with that of its routines. -/
def Fragment.allCode (f : Fragment) : Code := f.code ++ f.routines.flatMap Routine.code

theorem lowerConstruct_eq (t : Tag) (args : List Reg) (dst : Reg) (s : LowerState) :
    lowerConstruct t args dst s =
      .ok (.ofCode (constructCode t args (s.reg 1) (s.reg 2) dst)) (s.skip 2) := rfl

theorem lowerClosure_eq (label : Label) (captured : List Reg) (dst : Reg) (s : LowerState) :
    lowerClosure label captured dst s =
      .ok (.ofCode (closureCode (s.tagOf "Closure" 1) label captured (s.reg 1) (s.reg 2) dst))
        ((s.withTag "Closure" 1).skip 2) := rfl

theorem lowerCall_eq (func arg dst : Reg) (s : LowerState) :
    lowerCall func arg dst s =
      .ok (.ofCode (callCode func arg (s.reg 1) (s.reg 2) dst)) (s.skip 2) := rfl

/-- The code that moves the value of a variable into `dst`. -/
inductive Refers (x : String) (dst : Reg) (s : LowerState) : Code → Prop where
  | register {n : String} {r : Reg} (notPrimitive : isPrimitive x = false)
      (found : s.scope.lookup? x = some (.register n r)) : Refers x dst s [.movReg dst r]
  | enclosed {n : String} {i : Int} {closure : Reg} (notPrimitive : isPrimitive x = false)
      (found : s.scope.lookup? x = some (.enclosed n i))
      (running : s.scope.closure = some closure) :
      Refers x dst s [.load dst closure (captureSlot i)]
  | global (notPrimitive : isPrimitive x = false) (notLocal : s.scope.lookup? x = none)
      (declared : x ∈ s.globals) : Refers x dst s [.movReg dst (.global x)]

theorem Refers.not_primitive {x : String} {dst : Reg} {s : LowerState} {c : Code}
    (h : Refers x dst s c) : isPrimitive x = false := by
  cases h <;> assumption

/-- The code that moves the values of variables into the next registers. -/
inductive RefersAll : List String → LowerState → Code → Prop where
  | nil (s : LowerState) : RefersAll [] s []
  | cons {x : String} {rest : List String} {s : LowerState} {c cs : Code}
      (head : Refers x (s.reg 1) (s.skip 1) c) (tail : RefersAll rest (s.skip 1) cs) :
      RefersAll (x :: rest) s (c ++ cs)

/-- The next `n` registers. -/
def LowerState.regs (s : LowerState) (n : Nat) : List Reg :=
  (List.range n).map fun i => s.reg (i + 1)

@[simp] theorem LowerState.length_regs (s : LowerState) (n : Nat) : (s.regs n).length = n := by
  simp [LowerState.regs]

theorem LowerState.regs_succ (s : LowerState) (n : Nat) :
    s.regs (n + 1) = s.reg 1 :: (s.skip 1).regs n := by
  simp [LowerState.regs, List.range_succ_eq_map, Nat.add_comm]

/-- A name is looked up among the local names first. -/
theorem LowerState.resolve_env (s : LowerState) (x : String) :
    s.env.resolve x =
      match s.scope.lookup? x with
      | some b => .ok b
      | none => if x ∈ s.globals then .ok (.register x (.global x)) else .error ⟨x⟩ := by
  have hglobal : s.env.isGlobal x = true ↔ x ∈ s.globals := OrderedSet.contains_eq_true
  simp only [Env.resolve, hglobal]
  rfl

theorem LowerState.mem_captures {s : LowerState} {x : String} {e : Expr} {y : String} :
    y ∈ captures s.env x e ↔ y ∈ (Expr.lam x e).free ∧ isPrimitive y = false ∧
      (s.scope.lookup? y = none → y ∉ s.globals) :=
  Lowering.mem_captures

theorem lowerVar_of_primitive {x : String} (hx : isPrimitive x = true) (dst : Reg)
    (s : LowerState) :
    lowerVar x dst s = .ok (.ofCode (printCode x (s.reg 1) dst)) (s.skip 1) := by
  simp only [lowerVar, hx, if_true]
  rfl

/-- Where the value of a variable is taken from, and why it may not be found. -/
theorem lowerVar_of_not_primitive {x : String} (hx : isPrimitive x = false) (dst : Reg)
    (s : LowerState) :
    lowerVar x dst s =
      match s.scope.lookup? x with
      | some (.register _ r) => .ok (.ofCode [.movReg dst r]) s
      | some (.enclosed _ i) =>
        match s.scope.closure with
        | some closure => .ok (.ofCode [.load dst closure (captureSlot i)]) s
        | none => .error (.here (.outsideRoutine x)) s
      | none =>
        if x ∈ s.globals then .ok (.ofCode [.movReg dst (.global x)]) s
        else .error (.here (.unbound x)) s := by
  simp only [lowerVar, hx, Bool.false_eq_true, if_false]
  rw [LowerM.env_bind, LowerState.resolve_env]
  cases s.scope.lookup? x with
  | some b =>
      cases b with
      | register n r => rfl
      | enclosed n i =>
          have hclosure : s.env.scope.closure = s.scope.closure := rfl
          simp only [hclosure]
          cases s.scope.closure <;> rfl
  | none =>
      by_cases hg : x ∈ s.globals
      · simp only [hg, if_true]
        rfl
      · simp only [hg, if_false]
        rfl

/-- A variable is moved into `dst`, or a primitive prints the object that is there. -/
theorem lowerVar_eq_ok_iff {x : String} {dst : Reg} {s t : LowerState} {f : Fragment} :
    lowerVar x dst s = .ok f t ↔
      (isPrimitive x = true ∧ f = .ofCode (printCode x (s.reg 1) dst) ∧ t = s.skip 1) ∨
      ∃ c, Refers x dst s c ∧ f = .ofCode c ∧ t = s := by
  cases hx : isPrimitive x with
  | true =>
      rw [lowerVar_of_primitive hx]
      constructor
      · intro h
        cases h
        exact .inl ⟨rfl, rfl, rfl⟩
      · rintro (⟨-, rfl, rfl⟩ | ⟨c, hc, -⟩)
        · rfl
        · cases hc <;> simp_all
  | false =>
      rw [lowerVar_of_not_primitive hx]
      constructor
      · intro h
        refine .inr ?_
        split at h
        · cases h
          exact ⟨_, .register hx ‹_›, rfl, rfl⟩
        · split at h
          · cases h
            exact ⟨_, .enclosed hx ‹_› ‹_›, rfl, rfl⟩
          · cases h
        · split at h
          · cases h
            exact ⟨_, .global hx ‹_› ‹_›, rfl, rfl⟩
          · cases h
      · rintro (⟨hp, -⟩ | ⟨c, hc, rfl, rfl⟩)
        · cases hp
        · cases hc with
          | register _ found => simp [found]
          | enclosed _ found running => simp [found, running]
          | global _ notLocal declared => simp [notLocal, declared]

theorem lowerCaptures_eq_ok {xs : List String} {s t : LowerState} {regs : List Reg}
    {f : Fragment} (hxs : ∀ x ∈ xs, isPrimitive x = false)
    (h : lowerCaptures xs s = .ok (regs, f) t) :
    ∃ c, RefersAll xs s c ∧ regs = s.regs xs.length ∧ f = .ofCode c ∧
      t = s.skip xs.length := by
  induction xs generalizing s t regs f with
  | nil =>
      cases h
      exact ⟨[], .nil s, rfl, rfl, rfl⟩
  | cons x rest ih =>
      simp only [lowerCaptures, fresh_bind, bind_eq_ok] at h
      obtain ⟨g, s₁, hx, ⟨regs', g'⟩, s₂, hrest, ⟨⟩⟩ := h
      obtain ⟨hp, -⟩ | ⟨c, hc, rfl, rfl⟩ := lowerVar_eq_ok_iff.mp hx
      · simp [hxs x (by simp)] at hp
      obtain ⟨cs, hcs, rfl, rfl, rfl⟩ := ih (fun y hy => hxs y (by simp [hy])) hrest
      refine ⟨c ++ cs, .cons hc hcs, ?_, rfl, ?_⟩
      · rw [List.length_cons, LowerState.regs_succ]
      · simp [Nat.add_comm]

namespace Dispatch

/-- The number that stands for a branch. -/
def number (mode : Dispatch) (s : LowerState) (index : Nat) (b : Branch) : Int :=
  match mode with
  | .position => index
  | .tag => (s.tagOf b.ctor (b.params.length + 1)).id

/-- The state after a branch got its number. -/
def meet (mode : Dispatch) (s : LowerState) (b : Branch) : LowerState :=
  match mode with
  | .position => s
  | .tag => s.withTag b.ctor (b.params.length + 1)

end Dispatch

/-- The comparisons of a case, from the branch with number `index` on. -/
inductive Compares (mode : Dispatch) (id : Nat) (tagReg wanted : Reg) :
    Nat → List Branch → LowerState → Code → LowerState → Prop where
  | nil (index : Nat) (s : LowerState) : Compares mode id tagReg wanted index [] s [] s
  | cons {index : Nat} {b : Branch} {bs : List Branch} {s t : LowerState} {cs : Code}
      (rest : Compares mode id tagReg wanted (index + 1) bs (mode.meet s b) cs t) :
      Compares mode id tagReg wanted index (b :: bs) s
        (.movInt wanted (mode.number s index b) ::
          .jumpEq tagReg wanted (.branch id index) :: cs) t

theorem branchNumber_eq (mode : Dispatch) (index : Nat) (b : Branch) (s : LowerState) :
    branchNumber mode index b s = .ok (mode.number s index b) (mode.meet s b) := by
  cases mode <;> rfl

theorem lowerComparisons_eq_ok {mode : Dispatch} {id : Nat} {tagReg wanted : Reg} {index : Nat}
    {bs : List Branch} {s t : LowerState} {code : Code}
    (h : lowerComparisons mode id tagReg wanted index bs s = .ok code t) :
    Compares mode id tagReg wanted index bs s code t := by
  induction bs generalizing index s t code with
  | nil =>
      cases h
      exact .nil index s
  | cons b bs ih =>
      simp only [lowerComparisons, bind_eq_ok, branchNumber_eq] at h
      obtain ⟨_, _, ⟨⟩, cs, s₁, hrest, ⟨⟩⟩ := h
      exact .cons (ih hrest)

/-- What is lowered at one time. -/
inductive Phrase where
  /-- An expression, whose value goes to `dst`. -/
  | expr (e : Expr) (dst : Reg)
  /-- The arguments of a chain of applications, each into a register of its own. -/
  | args (chain : Expr)
  /-- A branch whose parameters are the fields of the object in `value`, from `field` on. -/
  | fields (value : Reg) (field : Nat) (params : List String) (body : Expr) (dst : Reg)
  /-- The branches of a case, from the one with number `index` on. -/
  | branches (id : Nat) (value : Reg) (index : Nat) (branches : List Branch) (dst : Reg)

/-- The expressions that are lowered for a phrase, in source order. -/
@[simp] def Phrase.parts : Phrase → List Expr
  | .expr e _ => [e]
  | .args chain => chain.spine.2
  | .fields _ _ _ body _ => [body]
  | .branches _ _ _ bs _ => bs.map Branch.body

/-- A phrase is lowered from one state to another. It gives a fragment, and the registers
of the arguments of a chain. -/
inductive Lowers (mode : Dispatch) :
    Phrase → LowerState → List Reg → Fragment → LowerState → Prop where
  | primitive {x : String} {dst : Reg} {s : LowerState} (isPrimitive : isPrimitive x = true) :
      Lowers mode (.expr (.var x) dst) s [] (.ofCode (printCode x (s.reg 1) dst)) (s.skip 1)
  | var {x : String} {dst : Reg} {s : LowerState} {c : Code} (refers : Refers x dst s c) :
      Lowers mode (.expr (.var x) dst) s [] (.ofCode c) s
  | ctor {c : String} {dst : Reg} {s : LowerState} :
      Lowers mode (.expr (.ctor c) dst) s []
        (.ofCode (ctorCode (s.tagOf c 1) (s.reg 1) (s.reg 2) dst)) ((s.withTag c 1).skip 2)
  | num {n : Int64} {dst : Reg} {s : LowerState} :
      Lowers mode (.expr (.num n) dst) s []
        (.ofCode (boxedCode (s.tagOf "Num" 2) n (s.reg 1) (s.reg 2) dst))
        ((s.withTag "Num" 2).skip 2)
  | char {n : Int64} {dst : Reg} {s : LowerState} :
      Lowers mode (.expr (.char n) dst) s []
        (.ofCode (boxedCode (s.tagOf "Char" 2) n (s.reg 1) (s.reg 2) dst))
        ((s.withTag "Char" 2).skip 2)
  | caseOf {e : Expr} {bs : List Branch} {dst : Reg} {s s₁ s₂ t : LowerState}
      {fe fb : Fragment} {tests : Code}
      (scrutinee : Lowers mode (.expr e (s.reg 1)) (s.skip 3).enterCase [] fe s₁)
      (compares : Compares mode (s.cases + 1) (s.reg 2) (s.reg 3) 0 bs s₁ tests s₂)
      (branches : Lowers mode (.branches (s.cases + 1) (s.reg 1) 0 bs dst) s₂ [] fb t) :
      Lowers mode (.expr (.caseOf e bs) dst) s []
        (fe ++ .ofCode (.load (s.reg 2) (s.reg 1) 0 :: tests) ++ fb ++
          .ofCode [.mark (.caseEnd (s.cases + 1))]) t
  | letIn {x : String} {v b : Expr} {dst : Reg} {s s₁ s₂ : LowerState} {fv fb : Fragment}
      (value : Lowers mode (.expr v (s.reg 1)) (s.skip 1) [] fv s₁)
      (body : Lowers mode (.expr b dst)
        (s₁.inScope (s.scope.bind x (.register x (s.reg 1)))) [] fb s₂) :
      Lowers mode (.expr (.letIn x v b) dst) s [] (fv ++ fb) (s₂.inScope s.scope)
  | lam {x : String} {e : Expr} {dst : Reg} {s s₁ s₂ : LowerState} {fe : Fragment}
      {captured : List String} {loads : Code}
      (hcaptured : captured = captures s.env x e)
      (body : Lowers mode (.expr e (s.reg 3))
        ((s.enterRoutine.skip 3).inScope (routineScope (s.reg 1) x (s.reg 2) captured)) [] fe s₁)
      (values : RefersAll captured (s₁.inScope s.scope) loads)
      (hs₂ : s₂ = (s₁.inScope s.scope).skip captured.length) :
      Lowers mode (.expr (.lam x e) dst) s []
        ⟨loads ++ closureCode (s₂.tagOf "Closure" 1) (.routine s.routines)
            ((s₁.inScope s.scope).regs captured.length) (s₂.reg 1) (s₂.reg 2) dst,
          fe.routines ++ [⟨.routine s.routines,
            routineCode (.routine s.routines) (s.reg 1) (s.reg 2) (s.reg 3) fe.code, captured⟩]⟩
        ((s₂.withTag "Closure" 1).skip 2)
  | construct {f a : Expr} {c : String} {n : Nat} {dst : Reg} {s s₁ : LowerState}
      {regs : List Reg} {fa : Fragment} (callee : f.callee = .ctor c n)
      (args : Lowers mode (.args (.app f a)) (s.withTag c (n + 2)) regs fa s₁) :
      Lowers mode (.expr (.app f a) dst) s []
        (fa ++ .ofCode (constructCode (s.tagOf c (n + 2)) regs (s₁.reg 1) (s₁.reg 2) dst))
        (s₁.skip 2)
  | print {x : String} {a : Expr} {dst : Reg} {s s₁ : LowerState} {fa : Fragment}
      (isPrimitive : isPrimitive x = true) (arg : Lowers mode (.expr a dst) s [] fa s₁) :
      Lowers mode (.expr (.app (.var x) a) dst) s []
        (fa ++ .ofCode (printCode x (s₁.reg 1) dst)) (s₁.skip 1)
  | callVar {x : String} {a : Expr} {dst : Reg} {s s₁ : LowerState} {fa : Fragment} {c : Code}
      (arg : Lowers mode (.expr a (s.reg 2)) (s.skip 2) [] fa s₁)
      (refers : Refers x (s.reg 1) s₁ c) :
      Lowers mode (.expr (.app (.var x) a) dst) s []
        (fa ++ .ofCode c ++
          .ofCode (callCode (s.reg 1) (s.reg 2) (s₁.reg 1) (s₁.reg 2) dst)) (s₁.skip 2)
  | call {f a : Expr} {dst : Reg} {s s₁ s₂ : LowerState} {ff fa : Fragment}
      (callee : f.callee = .other) (func : Lowers mode (.expr f (s.reg 1)) (s.skip 2) [] ff s₁)
      (arg : Lowers mode (.expr a (s.reg 2)) s₁ [] fa s₂) :
      Lowers mode (.expr (.app f a) dst) s []
        (ff ++ fa ++ .ofCode (callCode (s.reg 1) (s.reg 2) (s₂.reg 1) (s₂.reg 2) dst))
        (s₂.skip 2)
  | head {e : Expr} {s : LowerState} (notApp : ∀ f a, e ≠ .app f a) :
      Lowers mode (.args e) s [] ∅ s
  | arg {f a : Expr} {s s₁ t : LowerState} {regs : List Reg} {before fa : Fragment}
      (func : Lowers mode (.args f) s regs before s₁)
      (last : Lowers mode (.expr a (s₁.reg 1)) (s₁.skip 1) [] fa t) :
      Lowers mode (.args (.app f a)) s (regs ++ [s₁.reg 1]) (before.prepend fa) t
  | body {value : Reg} {field : Nat} {e : Expr} {dst : Reg} {s t : LowerState} {f : Fragment}
      (body : Lowers mode (.expr e dst) s [] f t) :
      Lowers mode (.fields value field [] e dst) s [] f t
  | field {value : Reg} {field : Nat} {x : String} {params : List String} {e : Expr} {dst : Reg}
      {s s₁ : LowerState} {f : Fragment}
      (rest : Lowers mode (.fields value (field + 1) params e dst)
        ((s.skip 1).inScope (s.scope.bind x (.register x (s.reg 1)))) [] f s₁) :
      Lowers mode (.fields value field (x :: params) e dst) s []
        (.ofCode [.load (s.reg 1) value (field : Int)] ++ f) (s₁.inScope s.scope)
  | noBranch {id : Nat} {value : Reg} {index : Nat} {dst : Reg} {s : LowerState} :
      Lowers mode (.branches id value index [] dst) s [] ∅ s
  | branch {id : Nat} {value : Reg} {index : Nat} {c : String} {params : List String} {e : Expr}
      {bs : List Branch} {dst : Reg} {s s₁ t : LowerState} {f fs : Fragment}
      (first : Lowers mode (.fields value 1 params e dst) s [] f s₁)
      (rest : Lowers mode (.branches id value (index + 1) bs dst) s₁ [] fs t) :
      Lowers mode (.branches id value index (.mk c params e :: bs) dst) s []
        (.ofCode [.mark (.branch id index)] ++ f ++ .ofCode [.jump (.caseEnd id)] ++ fs) t

/-- Lowering only hands out more, and leaves the scope and the globals alone. -/
structure LowerState.Grows (s t : LowerState) : Prop where
  scope : t.scope = s.scope
  globals : t.globals = s.globals
  next : s.next ≤ t.next
  tags : s.tags.entries <+: t.tags.entries
  numbered : s.tags.Numbered → t.tags.Numbered
  cases : s.cases ≤ t.cases
  routines : s.routines ≤ t.routines

namespace LowerState.Grows

variable {s t u : LowerState}

theorem refl (s : LowerState) : s.Grows s :=
  ⟨rfl, rfl, Nat.le_refl _, List.prefix_refl _, id, Nat.le_refl _, Nat.le_refl _⟩

theorem trans (h : s.Grows t) (k : t.Grows u) : s.Grows u :=
  ⟨k.scope.trans h.scope, k.globals.trans h.globals, h.next.trans k.next, h.tags.trans k.tags,
    k.numbered ∘ h.numbered, h.cases.trans k.cases, h.routines.trans k.routines⟩

theorem skip (s : LowerState) (n : Nat) : s.Grows (s.skip n) :=
  ⟨rfl, rfl, Nat.le_add_right _ _, List.prefix_refl _, id, Nat.le_refl _, Nat.le_refl _⟩

/-- The id of an object takes up a word, so no object is met with size zero. -/
theorem withTag (s : LowerState) (name : String) (size : Nat) :
    s.Grows (s.withTag name (size + 1)) :=
  ⟨rfl, rfl, Nat.le_refl _, Registry.entries_prefix_tag _ _ _,
    fun h => h.tag (Int.natCast_pos.mpr (Nat.succ_pos size)), Nat.le_refl _, Nat.le_refl _⟩

theorem enterCase (s : LowerState) : s.Grows s.enterCase :=
  ⟨rfl, rfl, Nat.le_refl _, List.prefix_refl _, id, Nat.le_succ _, Nat.le_refl _⟩

theorem enterRoutine (s : LowerState) : s.Grows s.enterRoutine :=
  ⟨rfl, rfl, Nat.le_refl _, List.prefix_refl _, id, Nat.le_refl _, Nat.le_succ _⟩

/-- Work in another scope does not show once the old scope is back. -/
theorem inScope {c : Scope} (h : (s.inScope c).Grows t) : s.Grows (t.inScope s.scope) :=
  ⟨rfl, h.globals, h.next, h.tags, h.numbered, h.cases, h.routines⟩

theorem meet (mode : Dispatch) (s : LowerState) (b : Branch) : s.Grows (mode.meet s b) := by
  cases mode with
  | position => exact refl s
  | tag => exact withTag s _ _

end LowerState.Grows

open LowerState (Grows)

theorem Compares.grows {mode : Dispatch} {id : Nat} {tagReg wanted : Reg} {index : Nat}
    {bs : List Branch} {s t : LowerState} {code : Code}
    (h : Compares mode id tagReg wanted index bs s code t) : s.Grows t := by
  induction h with
  | nil _ s => exact .refl s
  | cons _ ih => exact (Grows.meet mode _ _).trans ih

theorem Lowers.grows {mode : Dispatch} {ph : Phrase} {s t : LowerState} {regs : List Reg}
    {f : Fragment} (h : Lowers mode ph s regs f t) : s.Grows t := by
  induction h with
  | primitive _ => exact .skip _ _
  | var _ => exact .refl _
  | ctor => exact (Grows.withTag _ _ _).trans (.skip _ _)
  | num => exact (Grows.withTag _ _ _).trans (.skip _ _)
  | char => exact (Grows.withTag _ _ _).trans (.skip _ _)
  | caseOf _ compares _ scrutinee branches =>
      exact (Grows.skip _ 3).trans ((Grows.enterCase _).trans
        (scrutinee.trans (compares.grows.trans branches)))
  | letIn _ _ value body =>
      have hvalue := (Grows.skip _ 1).trans value
      have hbody := Grows.inScope body
      rw [hvalue.scope] at hbody
      exact hvalue.trans hbody
  | lam _ _ _ hs₂ body =>
      subst hs₂
      exact ((Grows.enterRoutine _).trans (.skip _ 3)).trans
        ((Grows.inScope body).trans ((Grows.skip _ _).trans
          ((Grows.withTag _ _ _).trans (.skip _ 2))))
  | construct _ _ args => exact (Grows.withTag _ _ _).trans (args.trans (.skip _ 2))
  | print _ _ arg => exact arg.trans (.skip _ 1)
  | callVar _ _ arg => exact (Grows.skip _ 2).trans (arg.trans (.skip _ 2))
  | call _ _ _ func arg => exact (Grows.skip _ 2).trans (func.trans (arg.trans (.skip _ 2)))
  | head _ => exact .refl _
  | arg _ _ func last => exact func.trans ((Grows.skip _ 1).trans last)
  | body _ ih => exact ih
  | field _ ih => exact (Grows.skip _ 1).trans (Grows.inScope ih)
  | noBranch => exact .refl _
  | branch _ _ first rest => exact first.trans rest

theorem lowers_of_withFields {mode : Dispatch} {value : Reg} {field : Nat} {params : List String}
    {e : Expr} {dst : Reg} {s t : LowerState} {f : Fragment}
    (hbody : ∀ {s f t}, e.lower mode dst s = .ok f t → Lowers mode (.expr e dst) s [] f t)
    (h : withFields value field params (e.lower mode dst) s = .ok f t) :
    Lowers mode (.fields value field params e dst) s [] f t := by
  induction params generalizing field s t f with
  | nil => exact .body (hbody h)
  | cons x params ih =>
      simp only [withFields, fresh_bind, bind_eq_ok, withLocal_eq_ok] at h
      obtain ⟨g, _, ⟨s₁, hrest, rfl⟩, ⟨⟩⟩ := h
      have hlower := ih hrest
      have hscope : s₁.scope.restore ⟨x, s.scope.lookup? x⟩ = s.scope := by
        rw [hlower.grows.scope]
        exact Scope.restore_shadow _ _ _
      rw [LowerState.scope_skip, hscope]
      exact .field hlower

theorem Fragment.mk_nil_append_ofCode (rs : List Routine) (c d : Code) :
    (⟨[], rs⟩ ++ .ofCode c ++ .ofCode d : Fragment) = ⟨c ++ d, rs⟩ := by
  change Fragment.mk ([] ++ c ++ d) (rs ++ [] ++ []) = _
  simp

mutual

theorem Expr.lowers_of_lower {mode : Dispatch} {dst : Reg} {s t : LowerState} {f : Fragment} :
    ∀ {e : Expr}, e.lower mode dst s = .ok f t → Lowers mode (.expr e dst) s [] f t
  | .var x, h => by
      obtain ⟨hx, rfl, rfl⟩ | ⟨c, hc, rfl, rfl⟩ := lowerVar_eq_ok_iff.mp h
      · exact .primitive hx
      · exact .var hc
  | .ctor c, h => by
      cases h
      exact .ctor
  | .num n, h => by
      cases h
      exact .num
  | .char n, h => by
      cases h
      exact .char
  | .caseOf e bs, h => by
      simp only [Expr.lower, fresh_bind, newCase_bind, bind_eq_ok, within_eq_ok,
        LowerState.skip_skip, LowerState.reg_skip, LowerState.cases_skip] at h
      obtain ⟨fe, s₁, he, tests, s₂, hc, fb, s₃, hb, ⟨⟩⟩ := h
      exact .caseOf (Expr.lowers_of_lower he) (lowerComparisons_eq_ok hc)
        (lowers_of_lowerBranches hb)
  | .letIn x v b, h => by
      simp only [Expr.lower, fresh_bind, bind_eq_ok, within_eq_ok, withLocal_eq_ok] at h
      obtain ⟨fv, s₁, hv, fb, _, ⟨s₂, hb, rfl⟩, ⟨⟩⟩ := h
      have hvalue := Expr.lowers_of_lower hv
      have hbody := Expr.lowers_of_lower hb
      have hscope : s₁.scope = s.scope := hvalue.grows.scope
      have hback : s₂.scope.restore ⟨x, s₁.scope.lookup? x⟩ = s.scope := by
        rw [hbody.grows.scope, ← hscope]
        exact Scope.restore_shadow _ _ _
      rw [hback]
      rw [hscope] at hbody
      exact .letIn hvalue hbody
  | .lam x e, h => by
      simp only [Expr.lower, newRoutine_bind, env_bind, fresh_bind, bind_eq_ok, within_eq_ok,
        inScope_eq_ok, LowerState.skip_skip, LowerState.reg_skip, LowerState.reg_enterRoutine,
        LowerState.env_enterRoutine] at h
      obtain ⟨fe, _, ⟨s₁, he, rfl⟩, ⟨values, loads⟩, s₂, hv, build, s₃, hb, ⟨⟩⟩ := h
      obtain ⟨c, hc, rfl, rfl, rfl⟩ :=
        lowerCaptures_eq_ok (fun _ hx => not_primitive_of_mem_captures hx) hv
      rw [lowerClosure_eq] at hb
      cases hb
      rw [Fragment.mk_nil_append_ofCode]
      exact .lam rfl (Expr.lowers_of_lower he) hc rfl
  | .app g a, h => by
      cases hcallee : g.callee with
      | ctor c n =>
          simp only [Expr.lower, hcallee, tag_bind, fresh_bind, bind_eq_ok, within_eq_ok] at h
          obtain ⟨⟨regs, before⟩, s₁, hg, fa, s₂, ha, _, _, hb, ⟨⟩⟩ := h
          rw [lowerConstruct_eq] at hb
          cases hb
          exact .construct hcallee
            (.arg (Expr.lowers_of_lowerArgs hg) (Expr.lowers_of_lower ha))
      | primitive x =>
          simp only [Expr.lower, hcallee, bind_eq_ok, within_eq_ok] at h
          obtain ⟨fa, s₁, ha, _, _, hp, ⟨⟩⟩ := h
          obtain ⟨rfl, hx⟩ := Expr.eq_of_callee_primitive hcallee
          rw [lowerVar_of_primitive hx] at hp
          cases hp
          exact .print hx (Expr.lowers_of_lower ha)
      | var x =>
          simp only [Expr.lower, hcallee, fresh_bind, bind_eq_ok, within_eq_ok,
            LowerState.skip_skip, LowerState.reg_skip] at h
          obtain ⟨fa, s₁, ha, ff, _, hf, _, _, hcall, ⟨⟩⟩ := h
          obtain ⟨rfl, hx⟩ := Expr.eq_of_callee_var hcallee
          obtain ⟨hp, -⟩ | ⟨c, hc, rfl, rfl⟩ := lowerVar_eq_ok_iff.mp hf
          · simp [hx] at hp
          rw [lowerCall_eq] at hcall
          cases hcall
          exact .callVar (Expr.lowers_of_lower ha) hc
      | other =>
          simp only [Expr.lower, hcallee, fresh_bind, bind_eq_ok, within_eq_ok,
            LowerState.skip_skip, LowerState.reg_skip] at h
          obtain ⟨ff, s₁, hf, fa, s₂, ha, _, _, hcall, ⟨⟩⟩ := h
          rw [lowerCall_eq] at hcall
          cases hcall
          exact .call hcallee (Expr.lowers_of_lower hf) (Expr.lowers_of_lower ha)
  | .missing, h => by cases h
  | .foreign kind, h => by cases h

theorem Expr.lowers_of_lowerArgs {mode : Dispatch} {c : String} {s t : LowerState}
    {regs : List Reg} {f : Fragment} :
    ∀ {e : Expr}, e.lowerArgs mode c s = .ok (regs, f) t → Lowers mode (.args e) s regs f t
  | .app g a, h => by
      simp only [Expr.lowerArgs, fresh_bind, bind_eq_ok, within_eq_ok] at h
      obtain ⟨⟨regs', before⟩, s₁, hg, fa, s₂, ha, ⟨⟩⟩ := h
      exact .arg (Expr.lowers_of_lowerArgs hg) (Expr.lowers_of_lower ha)
  | .var x, h => by
      cases h
      exact .head (by simp)
  | .ctor c, h => by
      cases h
      exact .head (by simp)
  | .num n, h => by
      cases h
      exact .head (by simp)
  | .char n, h => by
      cases h
      exact .head (by simp)
  | .caseOf e bs, h => by
      cases h
      exact .head (by simp)
  | .letIn x v b, h => by
      cases h
      exact .head (by simp)
  | .lam x e, h => by
      cases h
      exact .head (by simp)
  | .missing, h => by
      cases h
      exact .head (by simp)
  | .foreign kind, h => by
      cases h
      exact .head (by simp)

theorem lowers_of_lowerBranches {mode : Dispatch} {id : Nat} {value : Reg} {index : Nat}
    {dst : Reg} {s t : LowerState} {f : Fragment} :
    ∀ {bs : List Branch}, lowerBranches mode id value index bs dst s = .ok f t →
      Lowers mode (.branches id value index bs dst) s [] f t
  | [], h => by
      cases h
      exact .noBranch
  | .mk c params e :: bs, h => by
      simp only [lowerBranches, bind_eq_ok, within_eq_ok] at h
      obtain ⟨g, s₁, hfirst, fs, s₂, hrest, ⟨⟩⟩ := h
      exact .branch (lowers_of_withFields Expr.lowers_of_lower hfirst)
        (lowers_of_lowerBranches hrest)

end

end Lowering
