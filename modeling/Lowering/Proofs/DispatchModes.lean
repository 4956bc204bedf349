import Lowering.Expr.Parts
import Lowering.Proofs.ProgramRules

/-!
# The two ways to dispatch

Lowering by position and lowering by tag are run side by side. The second also registers
the constructors of branches, so later ids and sizes differ; everything else stays the same,
failures included. How far the two runs may drift apart is a `Tolerance`: which registries
belong together, and which differences of the code are accepted. `Expr.runs_lower` is proved
once for all tolerances. With the tolerance `numbers` it says that only numbers differ; with
`tests` it says that only the numbers of comparisons do, if all branches are for built-in
constructors.
-/

namespace Lowering

open LowerM

/-- How two runs of lowering may differ. -/
structure Tolerance where
  registries : Registry → Registry → Prop
  tags : Tag → Tag → Prop
  code : Code → Code → Prop
  /-- The branches that the second run may register. -/
  branch : Branch → Prop
  start : registries Registry.builtin Registry.builtin
  same : ∀ c, code c c
  append : ∀ {c c' d d'}, code c c' → code d d' → code (c ++ d) (c' ++ d')
  register : ∀ {r r'} name size, registries r r' →
    tags (r.tag name size).1.1 (r'.tag name size).1.1 ∧
      registries (r.tag name size).2 (r'.tag name size).2
  alloc : ∀ {t t'} obj, tags t t' → code [.alloc obj t.size] [.alloc obj t'.size]
  word : ∀ {t t'} obj tmp, tags t t' → code (storeInt obj 0 tmp t.id) (storeInt obj 0 tmp t'.id)
  test : ∀ wanted tagReg label v w, code [.movInt wanted v, .jumpEq tagReg wanted label]
    [.movInt wanted w, .jumpEq tagReg wanted label]
  meet : ∀ {r r'} b, branch b → registries r r' →
    registries r (r'.tag b.ctor (b.params.length + 1)).2

namespace Tolerance

variable (T : Tolerance) {α β γ δ : Type}

/-- The second run may register all branches of the cases. -/
def Covers (cases : List (List Branch)) : Prop := ∀ bs ∈ cases, ∀ b ∈ bs, T.branch b

theorem covers_append {cs ds : List (List Branch)} :
    T.Covers (cs ++ ds) ↔ T.Covers cs ∧ T.Covers ds :=
  List.forall_mem_append

/-- Two fragments whose code is related, block by block. -/
structure Fragments (f f' : Fragment) : Prop where
  code : T.code f.code f'.code
  routines : List.Forall₂ (fun b b' => T.code b.code b'.code) f.routines f'.routines

/-- Two states that differ in their registries only. -/
structure States (s s' : LowerState) : Prop where
  env : s'.env = s.env
  cases : s'.cases = s.cases
  routines : s'.routines = s.routines
  tags : T.registries s.tags s'.tags

/-- Both runs succeed with related results, or both fail in the same way. -/
inductive Results (R : α → β → Prop) : EStateM.Result LowerFailure LowerState α →
    EStateM.Result LowerFailure LowerState β → Prop where
  | ok {a : α} {b : β} {s s' : LowerState} (value : R a b) (state : T.States s s') :
      Results R (.ok a s) (.ok b s')
  | error {f : LowerFailure} {s s' : LowerState} (state : T.States s s') :
      Results R (.error f s) (.error f s')

/-- From related states, the computations have related results. -/
def Runs (R : α → β → Prop) (x : LowerM α) (y : LowerM β) : Prop :=
  ∀ s s', T.States s s' → T.Results R (x s) (y s')

namespace Runs

variable {T} {R : α → β → Prop} {S : γ → δ → Prop} {x : LowerM α} {y : LowerM β}

theorem pure {a : α} {b : β} (h : R a b) : T.Runs R (pure a) (pure b) :=
  fun _ _ hs => .ok h hs

theorem fail (cause : LowerError) : T.Runs R (fail cause) (fail cause) :=
  fun _ _ hs => .error hs

theorem bind {k : α → LowerM γ} {l : β → LowerM δ} (hx : T.Runs R x y)
    (hk : ∀ a b, R a b → T.Runs S (k a) (l b)) : T.Runs S (x >>= k) (y >>= l) := by
  intro s s' hs
  change T.Results S (EStateM.bind x k s) (EStateM.bind y l s')
  have hresults := hx s s' hs
  unfold EStateM.bind
  generalize x s = a at hresults
  generalize y s' = b at hresults
  cases hresults with
  | ok value state => exact hk _ _ value _ _ state
  | error state => exact .error state

/-- What both runs get alike can be used alike. -/
theorem bind_same {x y : LowerM α} {k : α → LowerM γ} {l : α → LowerM δ} (hx : T.Runs Eq x y)
    (hk : ∀ a, T.Runs S (k a) (l a)) : T.Runs S (x >>= k) (y >>= l) :=
  hx.bind fun a _ hab => hab ▸ hk a

theorem within {step : LowerStep} (hx : T.Runs R x y) :
    T.Runs R (within step x) (within step y) := by
  intro s s' hs
  have hresults := hx s s' hs
  unfold LowerM.within
  generalize x s = a at hresults
  generalize y s' = b at hresults
  cases hresults with
  | ok value state => exact .ok value state
  | error state => exact .error state

theorem env : T.Runs Eq env env :=
  fun _ _ hs => .ok hs.env.symm hs

theorem fresh : T.Runs Eq fresh fresh := by
  intro s s' hs
  refine .ok (by rw [hs.env]) ⟨?_, hs.cases, hs.routines, hs.tags⟩
  rw [hs.env]

theorem newCase : T.Runs Eq newCase newCase := by
  intro s s' hs
  refine .ok (by rw [hs.cases]) ⟨hs.env, ?_, hs.routines, hs.tags⟩
  rw [hs.cases]

theorem newRoutine : T.Runs Eq newRoutine newRoutine := by
  intro s s' hs
  refine .ok (by rw [hs.routines]) ⟨hs.env, hs.cases, ?_, hs.tags⟩
  rw [hs.routines]

theorem tag (name : String) (size : Nat) : T.Runs T.tags (tag name size) (tag name size) := by
  intro s s' hs
  obtain ⟨htags, hregistries⟩ := T.register name size hs.tags
  exact .ok htags ⟨hs.env, hs.cases, hs.routines, hregistries⟩

theorem inScope (scope : Scope) (hx : T.Runs R x y) :
    T.Runs R (inScope scope x) (inScope scope y) := by
  intro s s' hs
  have hstates : T.States (onScope (fun _ => scope) s) (onScope (fun _ => scope) s') :=
    ⟨by simp only [onScope, hs.env], hs.cases, hs.routines, hs.tags⟩
  have hresults := hx _ _ hstates
  unfold LowerM.inScope
  generalize x (onScope (fun _ => scope) s) = a at hresults
  generalize y (onScope (fun _ => scope) s') = b at hresults
  cases hresults with
  | ok value state =>
      exact .ok value ⟨by simp only [onScope, state.env, hs.env], state.cases, state.routines,
        state.tags⟩
  | error state =>
      exact .error ⟨by simp only [onScope, state.env, hs.env], state.cases, state.routines,
        state.tags⟩

theorem withLocal (name : String) (b : Binding) (hx : T.Runs R x y) :
    T.Runs R (withLocal name b x) (withLocal name b y) := by
  intro s s' hs
  have hstates : T.States (onScope (fun _ => (s.env.scope.shadow name b).2) s)
      (onScope (fun _ => (s'.env.scope.shadow name b).2) s') :=
    ⟨by simp only [onScope, hs.env], hs.cases, hs.routines, hs.tags⟩
  have hresults := hx _ _ hstates
  unfold LowerM.withLocal
  simp only
  generalize x (onScope (fun _ => (s.env.scope.shadow name b).2) s) = a at hresults
  generalize y (onScope (fun _ => (s'.env.scope.shadow name b).2) s') = b at hresults
  cases hresults with
  | ok value state =>
      exact .ok value ⟨by simp only [onScope, state.env, hs.env], state.cases, state.routines,
        state.tags⟩
  | error state =>
      exact .error ⟨by simp only [onScope, state.env, hs.env], state.cases, state.routines,
        state.tags⟩

end Runs

namespace Fragments

variable {T} {f f' g g' : Fragment} {c c' : Code}

theorem ofCode (h : T.code c c') : T.Fragments (.ofCode c) (.ofCode c') := ⟨h, .nil⟩

theorem same (c : Code) : T.Fragments (.ofCode c) (.ofCode c) := ofCode (T.same c)

theorem append (hf : T.Fragments f f') (hg : T.Fragments g g') :
    T.Fragments (f ++ g) (f' ++ g') :=
  ⟨T.append hf.code hg.code, List.rel_append hf.routines hg.routines⟩

theorem prepend (hf : T.Fragments f f') (hg : T.Fragments g g') :
    T.Fragments (f.prepend g) (f'.prepend g') :=
  ⟨T.append hg.code hf.code, List.rel_append hf.routines hg.routines⟩

theorem routine (hf : T.Fragments f f') {label : Label} {free : List String} (h : T.code c c') :
    T.Fragments ⟨[], f.routines ++ [⟨label, c, free⟩]⟩ ⟨[], f'.routines ++ [⟨label, c', free⟩]⟩ :=
  ⟨T.same [], List.rel_append hf.routines (.cons h .nil)⟩

end Fragments

/-- The same registers, and related fragments. -/
def Loaded (x y : List Reg × Fragment) : Prop := x.1 = y.1 ∧ T.Fragments x.2 y.2

section Pieces

variable {T}

theorem runs_lowerVar (x : String) (dst : Reg) :
    T.Runs T.Fragments (lowerVar x dst) (lowerVar x dst) := by
  unfold lowerVar
  split
  · exact .bind_same .fresh fun r => .pure (.same _)
  · refine .bind_same .env fun e => ?_
    cases e.resolve x with
    | error u => exact .fail _
    | ok b =>
        cases b with
        | register n r => exact .pure (.same _)
        | enclosed n index =>
            cases e.scope.closure with
            | none => exact .fail _
            | some closure => exact .pure (.same _)

theorem runs_lowerCaptures (xs : List String) :
    T.Runs T.Loaded (lowerCaptures xs) (lowerCaptures xs) := by
  induction xs with
  | nil => exact .pure ⟨rfl, .same []⟩
  | cons x rest ih =>
      refine .bind_same .fresh fun r => .bind (runs_lowerVar x r) fun f f' hf =>
        .bind ih fun g g' hg => .pure ?_
      exact ⟨by rw [hg.1], hf.append hg.2⟩

theorem runs_lowerCall (func arg dst : Reg) :
    T.Runs T.Fragments (lowerCall func arg dst) (lowerCall func arg dst) :=
  .bind_same .fresh fun _ => .bind_same .fresh fun _ => .pure (.same _)

/-- An object whose size is that of its tag. -/
theorem runs_lowerBoxed (shape : String) (value : Int64) (dst : Reg) :
    T.Runs T.Fragments (lowerBoxed shape value dst) (lowerBoxed shape value dst) := by
  refine .bind (.tag shape 2) fun t t' ht => .bind_same .fresh fun tmp =>
    .bind_same .fresh fun obj => .pure (.ofCode ?_)
  exact T.append (T.append (T.append (T.alloc obj ht) (T.word obj tmp ht)) (T.same _)) (T.same _)

theorem runs_lowerCtor (c : String) (dst : Reg) :
    T.Runs T.Fragments (lowerCtor c dst) (lowerCtor c dst) := by
  refine .bind (.tag c 1) fun t t' ht => .bind_same .fresh fun tmp => .bind_same .fresh fun obj =>
    .pure (.ofCode ?_)
  exact T.append (T.append (T.alloc obj ht) (T.word obj tmp ht)) (T.same _)

theorem runs_lowerConstruct {t t' : Tag} (ht : T.tags t t') (args : List Reg) (dst : Reg) :
    T.Runs T.Fragments (lowerConstruct t args dst) (lowerConstruct t' args dst) := by
  refine .bind_same .fresh fun obj => .bind_same .fresh fun tmp => .pure (.ofCode ?_)
  exact T.append (T.append (T.append (T.same _) (T.word obj tmp ht)) (T.same _)) (T.same _)

theorem runs_lowerClosure (label : Label) (captured : List Reg) (dst : Reg) :
    T.Runs T.Fragments (lowerClosure label captured dst) (lowerClosure label captured dst) := by
  refine .bind (.tag "Closure" 1) fun t t' ht => .bind_same .fresh fun obj =>
    .bind_same .fresh fun tmp => .pure (.ofCode ?_)
  exact T.append (T.append (T.append (T.append (T.same _) (T.word obj tmp ht)) (T.same _))
    (T.same _)) (T.same _)

/-- Only the second run registers the constructors of the branches. -/
theorem runs_branchNumber (index : Nat) {b : Branch} (hb : T.branch b) :
    T.Runs (fun _ _ => True) (branchNumber .position index b) (branchNumber .tag index b) := by
  intro s s' hs
  exact .ok trivial ⟨hs.env, hs.cases, hs.routines, T.meet b hb hs.tags⟩

theorem runs_lowerComparisons (id : Nat) (tagReg wanted : Reg) (index : Nat) {bs : List Branch}
    (hbs : ∀ b ∈ bs, T.branch b) :
    T.Runs T.code (lowerComparisons .position id tagReg wanted index bs)
      (lowerComparisons .tag id tagReg wanted index bs) := by
  induction bs generalizing index with
  | nil => exact .pure (T.same [])
  | cons b bs ih =>
      refine .bind (runs_branchNumber index (hbs b (by simp))) fun v w _ =>
        .bind (ih (index + 1) fun b' hb' => hbs b' (by simp [hb'])) fun c c' hc => .pure ?_
      exact T.append (T.test wanted tagReg (.branch id index) v w) hc

theorem runs_withFields (value : Reg) (field : Nat) (params : List String)
    {x y : LowerM Fragment} (h : T.Runs T.Fragments x y) :
    T.Runs T.Fragments (withFields value field params x) (withFields value field params y) := by
  induction params generalizing field with
  | nil => exact h
  | cons name rest ih =>
      exact .bind_same .fresh fun r => .bind (.withLocal name (.register name r) (ih (field + 1)))
        fun f f' hf => .pure ((Fragments.same _).append hf)

end Pieces

end Tolerance

open Tolerance

mutual

/-- The two ways to dispatch lower an expression alike, up to the tolerance. -/
theorem Expr.runs_lower (T : Tolerance) : ∀ {e : Expr} (dst : Reg),
    T.Covers e.cases →
      T.Runs T.Fragments (e.lower .position dst) (e.lower .tag dst)
  | .var x, dst, _ => runs_lowerVar x dst
  | .ctor c, dst, _ => runs_lowerCtor c dst
  | .num n, dst, _ => runs_lowerBoxed "Num" n dst
  | .char n, dst, _ => runs_lowerBoxed "Char" n dst
  | .caseOf e bs, dst, h => by
      obtain ⟨hbs, hparts⟩ := List.forall_mem_cons.mp h
      obtain ⟨he, hbodies⟩ := T.covers_append.mp hparts
      refine .bind_same .fresh fun value => .bind_same .fresh fun tagReg =>
        .bind_same .fresh fun wanted => .bind_same .newCase fun id =>
        .bind (.within (Expr.runs_lower T value he)) fun f f' hf =>
        .bind (runs_lowerComparisons id tagReg wanted 0 hbs) fun c c' hc =>
        .bind (runs_lowerBranches T id value 0 dst hbodies) fun g g' hg => .pure ?_
      have hload : T.Fragments (.ofCode (.load tagReg value 0 :: c))
          (.ofCode (.load tagReg value 0 :: c')) := .ofCode (T.append (T.same [_]) hc)
      exact ((hf.append hload).append hg).append (.same _)
  | .letIn x v b, dst, h => by
      obtain ⟨hv, hb⟩ := T.covers_append.mp h
      exact .bind_same .fresh fun tmp => .bind (.within (Expr.runs_lower T tmp hv)) fun f f' hf =>
        .bind (.withLocal x (.register x tmp) (.within (Expr.runs_lower T dst hb))) fun g g' hg =>
        .pure (hf.append hg)
  | .lam x e, dst, h => by
      refine .bind_same .newRoutine fun label => .bind_same .env fun env =>
        .bind_same .fresh fun closure => .bind_same .fresh fun arg => .bind_same .fresh fun res =>
        .bind (.within (.inScope _ (Expr.runs_lower T res h))) fun f f' hf =>
        .bind (.within (runs_lowerCaptures _)) fun (regs, g) (regs', g') hg => ?_
      obtain ⟨rfl, hloads⟩ := hg
      refine .bind (runs_lowerClosure label regs dst) fun k k' hk =>
        .pure (((hf.routine ?_).append hloads).append hk)
      exact T.append (T.append (T.same _) hf.code) (T.same _)
  | .app f a, dst, h => by
      obtain ⟨hf, ha⟩ := T.covers_append.mp h
      unfold Expr.lower
      cases f.callee with
      | ctor c count =>
          refine .bind (.tag c (count + 2)) fun t t' ht =>
            .bind (Expr.runs_lowerArgs T c hf) fun (regs, before) (regs', before') hbefore => ?_
          obtain ⟨rfl, hbefore⟩ := hbefore
          exact .bind_same .fresh fun r => .bind (.within (Expr.runs_lower T r ha)) fun g g' hg =>
            .bind (runs_lowerConstruct ht (regs ++ [r]) dst) fun k k' hk =>
            .pure ((hbefore.prepend hg).append hk)
      | primitive x =>
          exact .bind (.within (Expr.runs_lower T dst ha)) fun g g' hg =>
            .bind (runs_lowerVar x dst) fun k k' hk => .pure (hg.append hk)
      | var x =>
          exact .bind_same .fresh fun funcReg => .bind_same .fresh fun argReg =>
            .bind (.within (Expr.runs_lower T argReg ha)) fun g g' hg =>
            .bind (runs_lowerVar x funcReg) fun k k' hk =>
            .bind (runs_lowerCall funcReg argReg dst) fun l l' hl =>
            .pure ((hg.append hk).append hl)
      | other =>
          exact .bind_same .fresh fun funcReg => .bind_same .fresh fun argReg =>
            .bind (.within (Expr.runs_lower T funcReg hf)) fun g g' hg =>
            .bind (.within (Expr.runs_lower T argReg ha)) fun k k' hk =>
            .bind (runs_lowerCall funcReg argReg dst) fun l l' hl =>
            .pure ((hg.append hk).append hl)
  | .missing, _, _ => .fail _
  | .foreign _, _, _ => .fail _

theorem Expr.runs_lowerArgs (T : Tolerance) (c : String) : ∀ {e : Expr},
    T.Covers e.cases →
      T.Runs T.Loaded (e.lowerArgs .position c) (e.lowerArgs .tag c)
  | .app f a, h => by
      obtain ⟨hf, ha⟩ := T.covers_append.mp h
      refine .bind (Expr.runs_lowerArgs T c hf) fun (regs, before) (regs', before') hbefore => ?_
      obtain ⟨rfl, hbefore⟩ := hbefore
      exact .bind_same .fresh fun r => .bind (.within (Expr.runs_lower T r ha)) fun g g' hg =>
        .pure ⟨rfl, hbefore.prepend hg⟩
  | .var _, _ => .pure ⟨rfl, .same []⟩
  | .ctor _, _ => .pure ⟨rfl, .same []⟩
  | .num _, _ => .pure ⟨rfl, .same []⟩
  | .char _, _ => .pure ⟨rfl, .same []⟩
  | .caseOf _ _, _ => .pure ⟨rfl, .same []⟩
  | .letIn _ _ _, _ => .pure ⟨rfl, .same []⟩
  | .lam _ _, _ => .pure ⟨rfl, .same []⟩
  | .missing, _ => .pure ⟨rfl, .same []⟩
  | .foreign _, _ => .pure ⟨rfl, .same []⟩

theorem runs_lowerBranches (T : Tolerance) (id : Nat) (value : Reg) : ∀ (index : Nat)
    {bs : List Branch} (dst : Reg), T.Covers (casesInBranches bs) →
      T.Runs T.Fragments (lowerBranches .position id value index bs dst)
        (lowerBranches .tag id value index bs dst)
  | _, [], _, _ => .pure (.same [])
  | index, .mk c params e :: bs, dst, h => by
      obtain ⟨he, hbs⟩ := T.covers_append.mp h
      have hbody := runs_withFields value 1 params (Expr.runs_lower T dst he)
      exact .bind (.within hbody) fun f f' hf =>
        .bind (runs_lowerBranches T id value (index + 1) dst hbs) fun g g' hg =>
        .pure ((((Fragments.same _).append hf).append (.same _)).append hg)

end

theorem Program.runs_lowerDefs (T : Tolerance) {p : Program}
    (h : T.Covers p.cases) :
    T.Runs (List.Forall₂ T.Fragments) (p.lowerDefs .position) (p.lowerDefs .tag) := by
  induction p with
  | nil => exact .pure .nil
  | cons d rest ih =>
      obtain ⟨hbody, hrest⟩ := T.covers_append.mp h
      have hdef : T.Runs T.Fragments (d.lower .position) (d.lower .tag) :=
        .bind_same .fresh fun value => .bind (Expr.runs_lower T value hbody) fun f f' hf =>
          .pure (((Fragments.same _).append hf).append (.same _))
      exact .bind (.within hdef) fun f f' hf => .bind (ih hrest) fun fs fs' hfs =>
        .pure (.cons hf hfs)

namespace Tolerance

variable (T : Tolerance)

theorem code_flatMap {α : Type} {code : α → Code} {as bs : List α}
    (h : List.Forall₂ (fun a b => T.code (code a) (code b)) as bs) :
    T.code (as.flatMap code) (bs.flatMap code) := by
  induction h with
  | nil => exact T.same []
  | cons hab _ ih => exact T.append hab ih

theorem code_assemble {p : Program} {fs fs' : List Fragment} (h : List.Forall₂ T.Fragments fs fs') :
    T.code (p.assemble fs) (p.assemble fs') := by
  cases p with
  | nil => exact T.same []
  | cons d rest =>
      have hroutines : List.Forall₂ (fun b b' => T.code b.code b'.code)
          (fs.flatMap Fragment.routines) (fs'.flatMap Fragment.routines) :=
        List.rel_flatMap h fun _ _ hf => hf.routines
      exact T.append (T.append (T.same [_]) (T.code_flatMap hroutines))
        (T.code_flatMap (h.imp fun _ _ hf => hf.code))

end Tolerance

/-- The two compilers fail alike, or give code that differs within the tolerance. -/
theorem Compiler.compile_within (T : Tolerance) {p : Program}
    (h : T.Covers p.cases) :
    (∃ f, ((new .position).compile p).1 = .error f ∧ ((new .tag).compile p).1 = .error f) ∨
    ∃ c c', ((new .position).compile p).1 = .ok c ∧ ((new .tag).compile p).1 = .ok c' ∧
      T.code c c' := by
  rw [compile_new, compile_new]
  obtain hp | ⟨before, d, after, rfl, hbefore, hd⟩ := p.namesFree_or_clash
  · rw [Program.lower_of_namesFree .position hp, Program.lower_of_namesFree .tag hp]
    have hresults := Program.runs_lowerDefs T h (.declared (p.map Def.name))
      (.declared (p.map Def.name)) ⟨rfl, rfl, rfl, T.start⟩
    generalize p.lowerDefs .position (.declared (p.map Def.name)) = a at hresults
    generalize p.lowerDefs .tag (.declared (p.map Def.name)) = b at hresults
    cases hresults with
    | ok value _ => exact .inr ⟨_, _, rfl, rfl, T.code_assemble value⟩
    | error _ => exact .inl ⟨_, rfl, rfl⟩
  · rw [Program.lower_of_clash .position hbefore hd after,
      Program.lower_of_clash .tag hbefore hd after]
    exact .inl ⟨_, rfl, rfl⟩

/-- The instructions are the same up to the constant that is moved or the number of words that
are allocated. -/
inductive Instr.SameButNumber : Instr → Instr → Prop where
  | same (i : Instr) : SameButNumber i i
  | movInt (dst : Reg) (v w : Int) : SameButNumber (.movInt dst v) (.movInt dst w)
  | alloc (dst : Reg) (m n : Int) : SameButNumber (.alloc dst m) (.alloc dst n)

/-- The code is the same up to the constants of comparisons. -/
inductive Code.SameButTests : Code → Code → Prop where
  | nil : SameButTests [] []
  | cons {c c' : Code} (i : Instr) (rest : SameButTests c c') : SameButTests (i :: c) (i :: c')
  | test {c c' : Code} (wanted tagReg : Reg) (label : Label) (v w : Int)
      (rest : SameButTests c c') :
      SameButTests (.movInt wanted v :: .jumpEq tagReg wanted label :: c)
        (.movInt wanted w :: .jumpEq tagReg wanted label :: c')

namespace Code.SameButTests

variable {c c' d d' : Code}

theorem refl (c : Code) : c.SameButTests c := by
  induction c with
  | nil => exact .nil
  | cons i c ih => exact .cons i ih

theorem append (hc : c.SameButTests c') (hd : d.SameButTests d') :
    SameButTests (c ++ d) (c' ++ d') := by
  induction hc with
  | nil => exact hd
  | cons i _ ih => exact .cons i ih
  | test wanted tagReg label v w _ ih => exact .test wanted tagReg label v w ih

theorem length_eq (h : c.SameButTests c') : c.length = c'.length := by
  induction h with
  | nil => rfl
  | cons _ _ ih => simpa using ih
  | test _ _ _ _ _ _ ih => simpa using ih

/-- Where the instructions differ, a comparison comes next. -/
theorem exists_test {code code' : Code} (h : code.SameButTests code') {k : Nat}
    (hk : code[k]? ≠ code'[k]?) :
    ∃ dst v w x y label, code[k]? = some (.movInt dst v) ∧ code'[k]? = some (.movInt dst w) ∧
      code[k + 1]? = some (.jumpEq x y label) ∧ code'[k + 1]? = some (.jumpEq x y label) := by
  induction h generalizing k with
  | nil => exact absurd rfl hk
  | cons i _ ih =>
      cases k with
      | zero => exact absurd rfl hk
      | succ k => exact ih hk
  | test wanted tagReg label v w _ ih =>
      match k with
      | 0 => exact ⟨wanted, v, w, tagReg, wanted, label, rfl, rfl, rfl, rfl⟩
      | 1 => exact absurd rfl hk
      | k + 2 => exact ih hk

end Code.SameButTests

/-- The registries may differ in any way, and so may the numbers that come from them. -/
def Tolerance.numbers : Tolerance where
  registries _ _ := True
  tags _ _ := True
  code := List.Forall₂ Instr.SameButNumber
  branch _ := True
  start := trivial
  same _ := List.forall₂_same.mpr fun i _ => .same i
  append hc hd := List.rel_append hc hd
  register _ _ _ := ⟨trivial, trivial⟩
  alloc obj _ := .cons (.alloc obj _ _) .nil
  word _ tmp _ := .cons (.movInt tmp _ _) (.cons (.same _) .nil)
  test wanted _ _ v w := .cons (.movInt wanted v w) (.cons (.same _) .nil)
  meet _ _ _ := trivial

/-- The registries are the same, since only built-in shapes are registered by branches. -/
def Tolerance.tests : Tolerance where
  registries r r' := r' = r ∧ Registry.builtin.entries <+: r.entries
  tags t t' := t' = t
  code := Code.SameButTests
  branch b := b.ctor ∈ Registry.builtin.names
  start := ⟨rfl, List.prefix_refl _⟩
  same := .refl
  append hc hd := hc.append hd
  register := by
    rintro r _ name size ⟨rfl, hr⟩
    exact ⟨rfl, rfl, hr.trans (Registry.entries_prefix_tag _ name size)⟩
  alloc := by
    rintro t _ obj rfl
    exact .refl _
  word := by
    rintro t _ obj tmp rfl
    exact .refl _
  test wanted tagReg label v w := .test wanted tagReg label v w .nil
  meet := by
    rintro r _ b hb ⟨rfl, hr⟩
    exact ⟨Registry.tag_of_builtin hr hb _, hr⟩

/-- By position and by tag, a program fails in the same way or gives code that only differs in
the constants that are moved and in the numbers of words that are allocated. If all branches
are for built-in constructors, it only differs in constants right before comparisons. -/
theorem Compiler.dispatch_changes_numbers (p : Program) :
    ((∃ f, ((new .position).compile p).1 = .error f ∧ ((new .tag).compile p).1 = .error f) ∨
      ∃ code code', ((new .position).compile p).1 = .ok code ∧
        ((new .tag).compile p).1 = .ok code' ∧ List.Forall₂ Instr.SameButNumber code code') ∧
    ((∀ bs ∈ p.cases, ∀ b ∈ bs, b.ctor ∈ Registry.builtin.names) →
      ∀ code code', ((new .position).compile p).1 = .ok code →
        ((new .tag).compile p).1 = .ok code' →
        code.length = code'.length ∧ ∀ k, code[k]? ≠ code'[k]? → ∃ dst v w x y label,
          code[k]? = some (.movInt dst v) ∧ code'[k]? = some (.movInt dst w) ∧
            code[k + 1]? = some (.jumpEq x y label) ∧
            code'[k + 1]? = some (.jumpEq x y label)) := by
  refine ⟨compile_within .numbers fun _ _ _ _ => trivial, ?_⟩
  intro hbuiltin code code' hcode hcode'
  obtain ⟨f, hf, -⟩ | ⟨c, c', hc, hc', hsame⟩ := compile_within .tests hbuiltin
  · rw [hcode] at hf
    cases hf
  · obtain rfl : code = c := Except.ok.inj (hcode.symm.trans hc)
    obtain rfl : code' = c' := Except.ok.inj (hcode'.symm.trans hc')
    exact ⟨hsame.length_eq, fun k hk => hsame.exists_test hk⟩

/-- A case with branches for built-in constructors, and other constructors around it. -/
def builtinBranches : Program :=
  [⟨"main", .caseOf (.app (.app (.ctor "Cons") (.ctor "A")) (.ctor "Nil"))
    [.mk "Nil" [] (.ctor "B"), .mk "Cons" ["x", "y"] (.lam "z" (.var "x"))]⟩]

theorem Compiler.dispatch_changes_numbers_builtinBranches : ∃ code code',
    ((new .position).compile builtinBranches).1 = .ok code ∧
      ((new .tag).compile builtinBranches).1 = .ok code' ∧ code ≠ code' ∧
      ∀ k, code[k]? ≠ code'[k]? → ∃ dst v w x y label,
        code[k]? = some (.movInt dst v) ∧ code'[k]? = some (.movInt dst w) ∧
          code[k + 1]? = some (.jumpEq x y label) ∧ code'[k + 1]? = some (.jumpEq x y label) := by
  obtain ⟨code, h⟩ := exists_code .position builtinBranches (by decide +kernel)
  obtain ⟨code', h'⟩ := exists_code .tag builtinBranches (by decide +kernel)
  have hbuiltin : ∀ bs ∈ builtinBranches.cases, ∀ b ∈ bs, b.ctor ∈ Registry.builtin.names := by
    decide
  have hne : ((new .position).compile builtinBranches).1.toOption ≠
      ((new .tag).compile builtinBranches).1.toOption := by
    decide +kernel
  refine ⟨code, code', h, h', ?_,
    ((dispatch_changes_numbers builtinBranches).2 hbuiltin code code' h h').2⟩
  rintro rfl
  exact hne (by rw [h, h'])

end Lowering
