import Lowering.Lower.Expr
import Mathlib

/-!
# Chains of applications

The spine of an expression is its head and its arguments in source order. What an
application applies is read off the spine of its function.
-/

namespace Lowering.Expr

/-- Applying the head of a chain to its arguments gives the chain back. -/
theorem call_spineOnto (e : Expr) (rest : List Expr) :
    (e.spineOnto rest).1.call (e.spineOnto rest).2 = e.call rest := by
  fun_induction spineOnto e rest with
  | case1 f a rest ih => simpa using ih
  | case2 e rest _ => rfl

theorem call_spine (e : Expr) : e.spine.1.call e.spine.2 = e := call_spineOnto e []

theorem spineOnto_append (e : Expr) (rest more : List Expr) :
    e.spineOnto (rest ++ more) = ((e.spineOnto rest).1, (e.spineOnto rest).2 ++ more) := by
  fun_induction spineOnto e rest with
  | case1 f a rest ih => exact ih
  | case2 e rest notApp =>
      cases e with
      | app f a => exact absurd rfl (notApp f a)
      | _ => rfl

theorem spine_app (f a : Expr) : (app f a).spine = (f.spine.1, f.spine.2 ++ [a]) :=
  spineOnto_append f [] [a]

theorem spine_of_not_app {e : Expr} (h : ∀ f a, e ≠ .app f a) : e.spine = (e, []) := by
  cases e with
  | app f a => exact absurd rfl (h f a)
  | _ => rfl

/-- What is collected from both parts of an application is collected from the head and
the arguments of a chain. -/
theorem collected_eq_spine {α : Type} {g : Expr → List α}
    (happ : ∀ f a, g (.app f a) = g f ++ g a) (e : Expr) :
    g e.spine.1 ++ e.spine.2.flatMap g = g e := by
  have honto : ∀ (e : Expr) (rest : List Expr),
      g (e.spineOnto rest).1 ++ (e.spineOnto rest).2.flatMap g = g e ++ rest.flatMap g := by
    intro e rest
    fun_induction spineOnto e rest with
    | case1 f a rest ih => simpa [happ] using ih
    | case2 e rest _ => rfl
  simpa [spine] using honto e []

theorem spine_of_callee_ctor {f : Expr} {c : String} {n : Nat} (h : f.callee = .ctor c n) :
    f.spine.1 = .ctor c ∧ f.spine.2.length = n := by
  unfold callee at h
  split at h
  · rename_i hspine
    cases h
    rw [hspine]
    exact ⟨rfl, rfl⟩
  · split at h <;> cases h
  · cases h

theorem eq_of_callee_primitive {f : Expr} {x : String} (h : f.callee = .primitive x) :
    f = .var x ∧ isPrimitive x = true := by
  have hf := f.call_spine
  unfold callee at h
  split at h
  · cases h
  · rename_i y hspine
    rw [hspine] at hf
    split at h
    · cases h
      exact ⟨hf.symm, ‹_›⟩
    · cases h
  · cases h

theorem eq_of_callee_var {f : Expr} {x : String} (h : f.callee = .var x) :
    f = .var x ∧ isPrimitive x = false := by
  have hf := f.call_spine
  unfold callee at h
  split at h
  · cases h
  · rename_i y hspine
    rw [hspine] at hf
    split at h
    · cases h
    · cases h
      exact ⟨hf.symm, Bool.eq_false_iff.mpr ‹_›⟩
  · cases h

/-- An application of something to something. -/
def IsApp (e : Expr) : Prop := ∃ f a, e = .app f a

/-- Arguments that are given to a chain stand behind its own. -/
theorem spine_call (f : Expr) (args : List Expr) :
    (f.call args).spine = (f.spine.1, f.spine.2 ++ args) := by
  induction args generalizing f with
  | nil => simp
  | cons a args ih => rw [call_cons, ih, spine_app, List.append_assoc, List.singleton_append]

theorem isApp_call {args : List Expr} (h : args ≠ []) (f : Expr) : (f.call args).IsApp := by
  obtain ⟨before, a, rfl⟩ := List.eq_nil_or_concat args |>.resolve_left h
  exact ⟨f.call before, a, by simp [call]⟩

theorem not_isApp_spine (e : Expr) : ¬ e.spine.1.IsApp := by
  have honto : ∀ (e : Expr) (rest : List Expr), ¬ (e.spineOnto rest).1.IsApp := by
    intro e rest
    fun_induction spineOnto e rest with
    | case1 f a rest ih => exact ih
    | case2 e rest notApp =>
        rintro ⟨f, a, rfl⟩
        exact notApp f a rfl
  exact honto e []

/-- The head of a chain, and the arguments in the order in which they are met on the way to the
head: those in `met`, and then the arguments of the chain from the last to the first. -/
def unwindOnto : Expr → Array Expr → Expr × Array Expr
  | .app f a, met => f.unwindOnto (met.push a)
  | e, met => (e, met)

def unwind (e : Expr) : Expr × Array Expr := e.unwindOnto #[]

theorem spineOnto_eq_unwindOnto (e : Expr) (met : Array Expr) :
    e.spineOnto met.reverse.toList =
      ((e.unwindOnto met).1, (e.unwindOnto met).2.reverse.toList) := by
  fun_induction unwindOnto e met with
  | case1 f a met ih => simpa [spineOnto_app] using ih
  | case2 e met notApp =>
      cases e with
      | app f a => exact absurd rfl (notApp f a)
      | _ => rfl

/-- The arguments in source order are those that are met on the way to the head, with the outermost
two exchanged, then the next two, and so on up to the middle, which is how an array is reversed. -/
theorem spine_eq_unwind (e : Expr) : e.spine = (e.unwind.1, e.unwind.2.reverse.toList) :=
  spineOnto_eq_unwindOnto e #[]

/-- To take a chain of applications apart and to put it together are inverse to each other. An
application has a head that is none, and arguments which, given to the head, make it up. What is
given arguments has just these, behind those that it had if it was an application. The arguments
come out in source order, although the last of them is met first. -/
theorem spine_call_inverse :
    (∀ x : Expr, x.IsApp → ∀ head args, x.spine = (head, args) →
      ¬ head.IsApp ∧ args ≠ [] ∧ head.call args = x) ∧
    (∀ (f : Expr) (args : List Expr), args ≠ [] →
      (f.call args).IsApp ∧
      (¬ f.IsApp → (f.call args).spine = (f, args)) ∧
      (f.IsApp → ∀ head before, f.spine = (head, before) →
        (f.call args).spine = (head, before ++ args))) ∧
    ∀ x : Expr, x.spine = (x.unwind.1, x.unwind.2.reverse.toList) := by
  refine ⟨?_, ?_, spine_eq_unwind⟩
  · rintro x ⟨f, a, rfl⟩ head args hspine
    have hhead := not_isApp_spine (.app f a)
    have hcall := call_spine (.app f a)
    have hargs : (app f a).spine.2 ≠ [] := by simp [spine_app]
    rw [hspine] at hhead hcall hargs
    exact ⟨hhead, hargs, hcall⟩
  · intro f args hargs
    refine ⟨isApp_call hargs f, ?_, ?_⟩
    · intro hf
      rw [spine_call, spine_of_not_app fun g b hg => hf ⟨g, b, hg⟩, List.nil_append]
    · intro _ head before hspine
      rw [spine_call, hspine]

/-- A constructor with three arguments, one of them an application. -/
def threeArgs : Expr :=
  .app (.app (.app (.ctor "Triple") (.num 1)) (.app (.var "f") (.num 2))) (.var "x")

theorem spine_call_inverse_threeArgs :
    threeArgs.spine = (.ctor "Triple", [.num 1, .app (.var "f") (.num 2), .var "x"]) ∧
      (ctor "Triple").call [.num 1, .app (.var "f") (.num 2), .var "x"] = threeArgs ∧
      ((ctor "Triple").call [.num 1, .var "x"]).spine = (.ctor "Triple", [.num 1, .var "x"]) ∧
      (threeArgs.call [.num 3, .num 4]).spine =
        (.ctor "Triple", [.num 1, .app (.var "f") (.num 2), .var "x", .num 3, .num 4]) := by
  have hspine : threeArgs.spine =
      (.ctor "Triple", [.num 1, .app (.var "f") (.num 2), .var "x"]) := rfl
  have happ : threeArgs.IsApp := ⟨_, _, rfl⟩
  have hctor : ¬ (ctor "Triple").IsApp := by
    rintro ⟨f, a, h⟩
    cases h
  obtain ⟨hparts, hcalls, -⟩ := spine_call_inverse
  exact ⟨hspine, (hparts threeArgs happ _ _ hspine).2.2,
    (hcalls (.ctor "Triple") [.num 1, .var "x"] (by simp)).2.1 hctor,
    (hcalls threeArgs [.num 3, .num 4] (by simp)).2.2 happ _ _ hspine⟩

end Lowering.Expr
