import Lowering.Expr.Eval
import Lowering.Proofs.Spine

/-!
# How an evaluation proceeds

Where an expression has a value, so have the parts that it evaluates, in the order of what
they print. There is one statement for each way to apply something.
-/

namespace Lowering

@[simp] theorem Outcome.andThen_some_nil {α β : Type} (a : α) (f : α → Outcome β) :
    andThen (some (a, [])) f = f a := by
  cases h : f a <;> simp [andThen, h]

theorem Outcome.andThen_assoc {α β γ : Type} (x : Outcome α) (f : α → Outcome β)
    (g : β → Outcome γ) : (x.andThen f).andThen g = x.andThen fun a => (f a).andThen g := by
  rcases x with _ | ⟨a, before⟩
  · rfl
  rcases hf : f a with _ | ⟨b, after⟩
  · simp [andThen, hf]
  rcases hg : g b with _ | ⟨c, last⟩
  · simp [andThen, hf, hg]
  · simp [andThen, hf, hg]

theorem Outcome.andThen_eq_some {α β : Type} {x : Outcome α} {f : α → Outcome β} {b : β}
    {printed : List Printed} (h : x.andThen f = some (b, printed)) :
    ∃ a before after, x = some (a, before) ∧ f a = some (b, after) ∧
      printed = before ++ after := by
  cases x with
  | none => cases h
  | some p =>
      obtain ⟨a, before⟩ := p
      cases hf : f a with
      | none => simp [andThen, hf] at h
      | some q =>
          obtain ⟨b', after⟩ := q
          simp only [andThen, hf, Option.some.injEq, Prod.mk.injEq] at h
          obtain ⟨rfl, rfl⟩ := h
          exact ⟨a, before, after, rfl, hf, rfl⟩

theorem evalLastFirst_append_singleton (eval : Expr → Outcome Value) (es : List Expr) (a : Expr) :
    evalLastFirst eval (es ++ [a]) =
      (eval a).andThen fun v => (evalLastFirst eval es).andThen fun vs => some (vs ++ [v], []) := by
  induction es with
  | nil => simp [evalLastFirst]
  | cons e es ih => simp [evalLastFirst, ih, Outcome.andThen_assoc]

/-- The branch that is taken is the first one for the constructor. -/
theorem selectBranch?_eq_some {c : String} {args : List Value} {locals inner : Locals}
    {bs : List Branch} {e : Expr} (h : selectBranch? c args locals bs = some (e, inner)) :
    ∃ before params after, bs = before ++ .mk c params e :: after ∧
      (∀ b ∈ before, b.ctor ≠ c) ∧ params.length ≤ args.length ∧
      inner = (params.zip args).reverse ++ locals := by
  induction bs with
  | nil => cases h
  | cons b bs ih =>
      obtain ⟨c', params, body⟩ := b
      rw [selectBranch?] at h
      split at h
      · rename_i hc
        subst hc
        split at h
        · cases h
          exact ⟨[], params, bs, rfl, by simp, ‹_›, rfl⟩
        · cases h
      · obtain ⟨before, params', after, rfl, hbefore, hlength, rfl⟩ := ih h
        refine ⟨.mk c' params body :: before, params', after, rfl, ?_, hlength, rfl⟩
        intro b hb
        rcases List.mem_cons.mp hb with rfl | hb
        · assumption
        · exact hbefore b hb

namespace Expr

variable {globals locals : Locals} {fuel : Nat} {f a : Expr} {v : Value} {printed : List Printed}

/-- Only closures can be called. -/
theorem closure_of_apply {g u : Value} {r : Value × List Printed}
    (h : (match g with
      | .closure y e captured => Expr.eval globals fuel ((y, u) :: captured) e
      | _ => none) = some r) :
    ∃ y e captured, g = .closure y e captured ∧
      Expr.eval globals fuel ((y, u) :: captured) e = some r := by
  cases g with
  | closure y e captured => exact ⟨y, e, captured, rfl, h⟩
  | _ => cases h

/-- A constructor applied to arguments. -/
theorem eval_app_of_ctor {c : String} {n : Nat} (hf : f.callee = .ctor c n)
    (h : (app f a).eval globals (fuel + 1) locals = some (v, printed)) :
    ∃ vs, evalLastFirst (Expr.eval globals fuel locals) (app f a).spine.2 = some (vs, printed) ∧
      v = .ctor c vs := by
  have hspine : (app f a).spine = (.ctor c, (app f a).spine.2) := by
    rw [spine_app, (spine_of_callee_ctor hf).1]
  simp only [Expr.eval] at h
  rw [hspine] at h
  obtain ⟨vs, out, _, hargs, ⟨⟩, rfl⟩ := Outcome.andThen_eq_some h
  exact ⟨vs, by rwa [List.append_nil], rfl⟩

/-- A primitive prints its argument. -/
theorem eval_app_of_primitive {x : String} (hx : isPrimitive x = true)
    (h : (app (.var x) a).eval globals (fuel + 1) locals = some (v, printed)) :
    ∃ out p, a.eval globals fuel locals = some (v, out) ∧ v.printed? x = some p ∧
      printed = out ++ [p] := by
  obtain ⟨u, out, last, ha, hprint, rfl⟩ := Outcome.andThen_eq_some h
  rw [if_pos hx] at hprint
  obtain ⟨p, hp, ⟨⟩⟩ := Option.map_eq_some_iff.mp hprint
  exact ⟨out, p, ha, hp, rfl⟩

/-- The argument of a variable is evaluated first. -/
theorem eval_app_of_var {x : String} (hx : isPrimitive x = false)
    (h : (app (.var x) a).eval globals (fuel + 1) locals = some (v, printed)) :
    ∃ y e captured u first last, a.eval globals fuel locals = some (u, first) ∧
      lookupValue? globals locals x = some (.closure y e captured) ∧
      e.eval globals fuel ((y, u) :: captured) = some (v, last) ∧ printed = first ++ last := by
  obtain ⟨u, first, last, ha, hcall, rfl⟩ := Outcome.andThen_eq_some h
  rw [if_neg (by simp [hx])] at hcall
  cases hlookup : lookupValue? globals locals x with
  | none => simp [hlookup] at hcall
  | some g =>
      rw [hlookup] at hcall
      obtain ⟨y, e, captured, rfl, hbody⟩ := closure_of_apply hcall
      exact ⟨y, e, captured, u, first, last, ha, rfl, hbody, rfl⟩

/-- Any other function is evaluated before its argument. -/
theorem eval_app_of_other (hf : f.callee = .other)
    (h : (app f a).eval globals (fuel + 1) locals = some (v, printed)) :
    ∃ y e captured u first second last,
      f.eval globals fuel locals = some (.closure y e captured, first) ∧
      a.eval globals fuel locals = some (u, second) ∧
      e.eval globals fuel ((y, u) :: captured) = some (v, last) ∧
      printed = first ++ (second ++ last) := by
  have hctor : ∀ c args, (app f a).spine ≠ (.ctor c, args) := by
    intro c args hspine
    rw [spine_app] at hspine
    have hhead : f.spine = (.ctor c, f.spine.2) := by
      rw [← (Prod.mk.inj hspine).1]
    rw [callee, hhead] at hf
    cases hf
  have hvar : ∀ x, f ≠ .var x := by
    rintro x rfl
    by_cases hx : isPrimitive x = true <;> simp [callee, spine, spineOnto, hx] at hf
  -- The equation of the last branch needs both facts.
  simp only [Expr.eval] at h
  obtain ⟨g, first, _, hg, hrest, rfl⟩ := Outcome.andThen_eq_some h
  obtain ⟨u, second, last, ha, hcall, rfl⟩ := Outcome.andThen_eq_some hrest
  obtain ⟨y, e, captured, rfl, hbody⟩ := closure_of_apply hcall
  exact ⟨y, e, captured, u, first, second, last, hg, ha, hbody, rfl⟩

/-- A case evaluates the branch for the constructor of its scrutinee. -/
theorem eval_caseOf {e : Expr} {bs : List Branch}
    (h : (caseOf e bs).eval globals (fuel + 1) locals = some (v, printed)) :
    ∃ c args body inner first last, e.eval globals fuel locals = some (.ctor c args, first) ∧
      selectBranch? c args locals bs = some (body, inner) ∧
      body.eval globals fuel inner = some (v, last) ∧ printed = first ++ last := by
  obtain ⟨u, first, last, he, hbranch, rfl⟩ := Outcome.andThen_eq_some h
  cases u with
  | ctor c args =>
      simp only at hbranch
      cases hselect : selectBranch? c args locals bs with
      | none => simp [hselect] at hbranch
      | some p =>
          obtain ⟨body, inner⟩ := p
          rw [hselect] at hbranch
          exact ⟨c, args, body, inner, first, last, he, hselect, hbranch, rfl⟩
  | _ => cases hbranch

end Expr
end Lowering
