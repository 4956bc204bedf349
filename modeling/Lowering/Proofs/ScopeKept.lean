import Lowering.Proofs.Rules

/-!
# Lowering leaves the scope as it found it

`Lowers.grows` says what a successful run does to the state. A run that fails stops inside of
any number of binders, so its last state is followed through the computation itself: `Tidy x`
says that `x` leaves the scope and the globals alone and only hands out more, wherever it ends.
Every way to put computations together keeps this. The one that has to put something back is
`withLocal`: the undo that was made before the body ran meets a scope that the body has left
as it was.
-/

namespace Lowering

namespace LowerM

variable {α β : Type}

/-- The state in which a computation ends, with a result or with a failure. -/
def stateAfter (x : LowerM α) (s : LowerState) : LowerState :=
  match x s with
  | .ok _ t => t
  | .error _ t => t

theorem stateAfter_of_ok {x : LowerM α} {s t : LowerState} {a : α} (h : x s = .ok a t) :
    stateAfter x s = t := by
  rw [stateAfter, h]

theorem stateAfter_of_error {x : LowerM α} {s t : LowerState} {f : LowerFailure}
    (h : x s = .error f t) : stateAfter x s = t := by
  rw [stateAfter, h]

theorem stateAfter_within (step : LowerStep) (x : LowerM α) (s : LowerState) :
    stateAfter (within step x) s = stateAfter x s := by
  unfold stateAfter within
  cases x s <;> rfl

theorem stateAfter_inScope (c : Scope) (x : LowerM α) (s : LowerState) :
    stateAfter (inScope c x) s = (stateAfter x (s.inScope c)).inScope s.scope := by
  unfold stateAfter inScope
  simp only [onScope_eq]
  cases x (s.inScope c) <;> rfl

/-- The undo that was made before the body is run on the scope that the body leaves. -/
theorem stateAfter_withLocal (name : String) (b : Binding) (x : LowerM α) (s : LowerState) :
    stateAfter (withLocal name b x) s =
      (stateAfter x (s.inScope (s.scope.bind name b))).inScope
        ((stateAfter x (s.inScope (s.scope.bind name b))).scope.restore
          ⟨name, s.scope.lookup? name⟩) := by
  have hscope : s.env.scope = s.scope := rfl
  unfold stateAfter withLocal
  simp only [Scope.shadow, onScope_eq, hscope]
  cases x (s.inScope (s.scope.bind name b)) <;> rfl

/-- Wherever it ends, the computation has left the scope and the globals alone and has only
handed out more. -/
def Tidy (x : LowerM α) : Prop := ∀ s : LowerState, s.Grows (stateAfter x s)

namespace Tidy

variable {x : LowerM α}

theorem pure (a : α) : Tidy (pure a : LowerM α) := fun s => .refl s

theorem fail (cause : LowerError) : Tidy (fail cause : LowerM α) := fun s => .refl s

theorem env : Tidy env := fun s => .refl s

theorem fresh : Tidy fresh := fun s => .skip s 1

theorem tag (name : String) (size : Nat) : Tidy (tag name (size + 1)) := fun s =>
  .withTag s name size

theorem newCase : Tidy newCase := fun s => .enterCase s

theorem newRoutine : Tidy newRoutine := fun s => .enterRoutine s

/-- A sequence ends where its first part fails, or where the rest ends. -/
theorem bind {k : α → LowerM β} (hx : Tidy x) (hk : ∀ a, Tidy (k a)) : Tidy (x >>= k) := by
  intro s
  have hfirst := hx s
  cases h : x s with
  | ok a t =>
      have hrun : (x >>= k) s = k a t := by
        change EStateM.bind x k s = k a t
        rw [EStateM.bind, h]
      rw [stateAfter_of_ok h] at hfirst
      rw [stateAfter, hrun]
      exact hfirst.trans (hk a t)
  | error f t =>
      rw [stateAfter_of_error h] at hfirst
      rwa [stateAfter_of_error (bind_eq_error.mpr (.inl h))]

theorem within (step : LowerStep) (hx : Tidy x) : Tidy (within step x) := by
  intro s
  rw [stateAfter_within]
  exact hx s

theorem inScope (c : Scope) (hx : Tidy x) : Tidy (inScope c x) := by
  intro s
  rw [stateAfter_inScope]
  exact (hx (s.inScope c)).inScope

theorem withLocal (name : String) (b : Binding) (hx : Tidy x) : Tidy (withLocal name b x) := by
  intro s
  have hbody := hx (s.inScope (s.scope.bind name b))
  have hback : (stateAfter x (s.inScope (s.scope.bind name b))).scope.restore
      ⟨name, s.scope.lookup? name⟩ = s.scope := by
    rw [hbody.scope]
    exact Scope.restore_shadow s.scope name b
  rw [stateAfter_withLocal, hback]
  exact hbody.inScope

end Tidy
end LowerM

open LowerM

theorem tidy_lowerVar (x : String) (dst : Reg) : Tidy (lowerVar x dst) := by
  unfold lowerVar
  split
  · exact .bind .fresh fun _ => .pure _
  · refine .bind .env fun e => ?_
    cases e.resolve x with
    | error u => exact .fail _
    | ok b =>
        cases b with
        | register n r => exact .pure _
        | enclosed n index =>
            cases e.scope.closure with
            | none => exact .fail _
            | some closure => exact .pure _

theorem tidy_lowerCaptures (xs : List String) : Tidy (lowerCaptures xs) := by
  induction xs with
  | nil => exact .pure _
  | cons x rest ih =>
      exact .bind .fresh fun r => .bind (tidy_lowerVar x r) fun _ => .bind ih fun _ => .pure _

theorem tidy_lowerCall (func arg dst : Reg) : Tidy (lowerCall func arg dst) :=
  .bind .fresh fun _ => .bind .fresh fun _ => .pure _

theorem tidy_lowerBoxed (shape : String) (value : Int64) (dst : Reg) :
    Tidy (lowerBoxed shape value dst) :=
  .bind (.tag shape 1) fun _ => .bind .fresh fun _ => .bind .fresh fun _ => .pure _

theorem tidy_lowerCtor (c : String) (dst : Reg) : Tidy (lowerCtor c dst) :=
  .bind (.tag c 0) fun _ => .bind .fresh fun _ => .bind .fresh fun _ => .pure _

theorem tidy_lowerConstruct (t : Tag) (args : List Reg) (dst : Reg) :
    Tidy (lowerConstruct t args dst) :=
  .bind .fresh fun _ => .bind .fresh fun _ => .pure _

theorem tidy_lowerClosure (label : Label) (captured : List Reg) (dst : Reg) :
    Tidy (lowerClosure label captured dst) :=
  .bind (.tag "Closure" 0) fun _ => .bind .fresh fun _ => .bind .fresh fun _ => .pure _

theorem tidy_branchNumber (mode : Dispatch) (index : Nat) (b : Branch) :
    Tidy (branchNumber mode index b) := by
  cases mode with
  | position => exact .pure _
  | tag => exact .bind (.tag b.ctor b.params.length) fun _ => .pure _

theorem tidy_lowerComparisons (mode : Dispatch) (id : Nat) (tagReg wanted : Reg) (index : Nat)
    (bs : List Branch) : Tidy (lowerComparisons mode id tagReg wanted index bs) := by
  induction bs generalizing index with
  | nil => exact .pure _
  | cons b bs ih =>
      exact .bind (tidy_branchNumber mode index b) fun _ => .bind (ih (index + 1)) fun _ => .pure _

/-- Parameters are bound one inside of the other, so a name that is repeated is put back by
the outer binding last. -/
theorem tidy_withFields (value : Reg) (field : Nat) (params : List String) {x : LowerM Fragment}
    (hx : Tidy x) : Tidy (withFields value field params x) := by
  induction params generalizing field with
  | nil => exact hx
  | cons name rest ih =>
      exact .bind .fresh fun r => .bind (.withLocal name (.register name r) (ih (field + 1)))
        fun _ => .pure _

mutual

theorem Expr.tidy_lower (mode : Dispatch) : ∀ (e : Expr) (dst : Reg), Tidy (e.lower mode dst)
  | .var x, dst => tidy_lowerVar x dst
  | .ctor c, dst => tidy_lowerCtor c dst
  | .num n, dst => tidy_lowerBoxed "Num" n dst
  | .char n, dst => tidy_lowerBoxed "Char" n dst
  | .caseOf e bs, dst =>
      .bind .fresh fun value => .bind .fresh fun tagReg => .bind .fresh fun wanted =>
      .bind .newCase fun id => .bind (.within _ (e.tidy_lower mode value)) fun _ =>
      .bind (tidy_lowerComparisons mode id tagReg wanted 0 bs) fun _ =>
      .bind (tidy_lowerBranches mode id value 0 bs dst) fun _ => .pure _
  | .letIn x v b, dst =>
      .bind .fresh fun tmp => .bind (.within _ (v.tidy_lower mode tmp)) fun _ =>
      .bind (.withLocal x (.register x tmp) (.within _ (b.tidy_lower mode dst))) fun _ => .pure _
  | .lam x e, dst =>
      .bind .newRoutine fun label => .bind .env fun _ => .bind .fresh fun _ =>
      .bind .fresh fun _ => .bind .fresh fun res =>
      .bind (.within _ (.inScope _ (e.tidy_lower mode res))) fun _ =>
      .bind (.within _ (tidy_lowerCaptures _)) fun (values, _) =>
      .bind (tidy_lowerClosure label values dst) fun _ => .pure _
  | .app f a, dst => by
      unfold Expr.lower
      cases f.callee with
      | ctor c count =>
          exact .bind (.tag c (count + 1)) fun t => .bind (f.tidy_lowerArgs mode c)
            fun (regs, _) => .bind .fresh fun r => .bind (.within _ (a.tidy_lower mode r)) fun _ =>
            .bind (tidy_lowerConstruct t (regs ++ [r]) dst) fun _ => .pure _
      | primitive x =>
          exact .bind (.within _ (a.tidy_lower mode dst)) fun _ =>
            .bind (tidy_lowerVar x dst) fun _ => .pure _
      | var x =>
          exact .bind .fresh fun funcReg => .bind .fresh fun argReg =>
            .bind (.within _ (a.tidy_lower mode argReg)) fun _ =>
            .bind (tidy_lowerVar x funcReg) fun _ =>
            .bind (tidy_lowerCall funcReg argReg dst) fun _ => .pure _
      | other =>
          exact .bind .fresh fun funcReg => .bind .fresh fun argReg =>
            .bind (.within _ (f.tidy_lower mode funcReg)) fun _ =>
            .bind (.within _ (a.tidy_lower mode argReg)) fun _ =>
            .bind (tidy_lowerCall funcReg argReg dst) fun _ => .pure _
  | .missing, _ => .fail _
  | .foreign _, _ => .fail _

theorem Expr.tidy_lowerArgs (mode : Dispatch) (c : String) :
    ∀ e : Expr, Tidy (e.lowerArgs mode c)
  | .app f a =>
      .bind (f.tidy_lowerArgs mode c) fun _ => .bind .fresh fun r =>
      .bind (.within _ (a.tidy_lower mode r)) fun _ => .pure _
  | .var _ => .pure _
  | .ctor _ => .pure _
  | .num _ => .pure _
  | .char _ => .pure _
  | .caseOf _ _ => .pure _
  | .letIn _ _ _ => .pure _
  | .lam _ _ => .pure _
  | .missing => .pure _
  | .foreign _ => .pure _

theorem tidy_lowerBranches (mode : Dispatch) (id : Nat) (value : Reg) :
    ∀ (index : Nat) (bs : List Branch) (dst : Reg),
      Tidy (lowerBranches mode id value index bs dst)
  | _, [], _ => .pure _
  | index, .mk _ params e :: bs, dst =>
      .bind (.within _ (tidy_withFields value 1 params (e.tidy_lower mode dst))) fun _ =>
      .bind (tidy_lowerBranches mode id value (index + 1) bs dst) fun _ => .pure _

end

/-- Lowering an expression ends, with code or with a failure, in the scope and with the globals
that it started with. The counters have only grown, and so has the registry. -/
theorem Expr.lower_keeps_scope (mode : Dispatch) (e : Expr) (dst : Reg) (s : LowerState) :
    let t := stateAfter (e.lower mode dst) s
    t.env.scope.bindings = s.env.scope.bindings ∧ t.env.scope.closure = s.env.scope.closure ∧
      t.env.shared.globals = s.env.shared.globals ∧ s.env.shared.next ≤ t.env.shared.next ∧
      s.cases ≤ t.cases ∧ s.routines ≤ t.routines ∧ s.tags.entries <+: t.tags.entries := by
  have h := e.tidy_lower mode dst s
  exact ⟨congrArg Scope.bindings h.scope, congrArg Scope.closure h.scope, h.globals, h.next,
    h.cases, h.routines, h.tags⟩

end Lowering
