import Lowering.Expr.Free
import Lowering.Lower.Expr
import Mathlib

/-!
# Which names are captured

The pass over an expression carries the names bound on the way down, and `Expr.free`
removes them on the way up; the two agree at every binder (`Expr.collect_eq`). So the
captured names are the free ones that need to be captured, in the order in which they
occur first.
-/

namespace Lowering

/-- A name is captured unless it is a primitive, it is bound inside, or it is a global
that no local name hides. -/
theorem Env.needsCapture_iff {e : Env} {bound : List String} {x : String} :
    e.needsCapture bound x = true ↔ isPrimitive x = false ∧ x ∉ bound ∧
      (e.scope.lookup? x = none → x ∉ e.shared.globals) := by
  have hglobal : e.isGlobal x = true ↔ x ∈ e.shared.globals := OrderedSet.contains_eq_true
  have hlocal : (e.local? x).isSome = true ↔ e.scope.lookup? x ≠ none :=
    Option.isSome_iff_ne_none
  have hbound : bound.contains x = true ↔ x ∈ bound := List.contains_iff_mem
  simp only [needsCapture, Bool.and_eq_true, Bool.or_eq_true, Bool.not_eq_true', and_assoc,
    ← Bool.not_eq_true, hglobal, hlocal, hbound]
  tauto

theorem Env.needsCapture_cons {e : Env} {bound : List String} {x y : String} :
    e.needsCapture (y :: bound) x = true ↔ x ≠ y ∧ e.needsCapture bound x = true := by
  simp only [needsCapture_iff, List.mem_cons]
  tauto

theorem Env.needsCapture_append {e : Env} {ys bound : List String} {x : String} :
    e.needsCapture (ys ++ bound) x = true ↔ x ∉ ys ∧ e.needsCapture bound x = true := by
  simp only [needsCapture_iff, List.mem_append]
  tauto

theorem Env.filter_needsCapture_cons (e : Env) (x : String) (bound ys : List String) :
    (ys.filter (· ≠ x)).filter (e.needsCapture bound) =
      ys.filter (e.needsCapture (x :: bound)) := by
  rw [List.filter_filter]
  apply List.filter_congr
  intro y _
  rw [Bool.eq_iff_iff, needsCapture_cons]
  simp [and_comm]

theorem Env.filter_needsCapture_append (e : Env) (xs bound ys : List String) :
    (ys.filter (· ∉ xs)).filter (e.needsCapture bound) =
      ys.filter (e.needsCapture (xs ++ bound)) := by
  rw [List.filter_filter]
  apply List.filter_congr
  intro y _
  rw [Bool.eq_iff_iff, needsCapture_append]
  simp [and_comm]

mutual

/-- The pass goes through the free occurrences of names from left to right. -/
theorem Expr.collect_eq (env : Env) :
    ∀ (e : Expr) (bound : List String) (found : OrderedSet String),
      e.collect env bound found =
        (e.free.filter (env.needsCapture bound)).foldl OrderedSet.insert found
  | .var x, bound, found => by
      by_cases hx : env.needsCapture bound x = true
      · simp [Expr.collect, Expr.free, hx]
      · simp [Expr.collect, Expr.free, hx]
  | .ctor _, _, _ => rfl
  | .num _, _, _ => rfl
  | .char _, _, _ => rfl
  | .caseOf e bs, bound, found => by
      rw [Expr.collect, Expr.collect_eq env e, collectBranches_eq env bs, Expr.free,
        List.filter_append, List.foldl_append]
  | .letIn x v b, bound, found => by
      rw [Expr.collect, Expr.collect_eq env v, Expr.collect_eq env b, Expr.free,
        List.filter_append, List.foldl_append, Env.filter_needsCapture_cons]
  | .lam x b, bound, found => by
      rw [Expr.collect, Expr.collect_eq env b, Expr.free, Env.filter_needsCapture_cons]
  | .app f a, bound, found => by
      rw [Expr.collect, Expr.collect_eq env f, Expr.collect_eq env a, Expr.free,
        List.filter_append, List.foldl_append]
  | .missing, _, _ => rfl
  | .foreign _, _, _ => rfl

theorem collectBranches_eq (env : Env) :
    ∀ (bs : List Branch) (bound : List String) (found : OrderedSet String),
      collectBranches env bs bound found =
        ((freeInBranches bs).filter (env.needsCapture bound)).foldl OrderedSet.insert found
  | [], _, _ => rfl
  | .mk _ params b :: bs, bound, found => by
      rw [collectBranches, Expr.collect_eq env b, collectBranches_eq env bs, freeInBranches,
        List.filter_append, List.foldl_append, Env.filter_needsCapture_append]

end

/-- Captured names are listed in the order of their first occurrence. -/
theorem captures_eq (e : Env) (param : String) (body : Expr) :
    captures e param body =
      (OrderedSet.ofList ((Expr.lam param body).free.filter (e.needsCapture []))).keys := by
  rw [captures, Expr.collect_eq]
  rfl

/-- A closure captures the free names of its lambda that the routine could not find
otherwise. -/
theorem mem_captures {e : Env} {param : String} {body : Expr} {x : String} :
    x ∈ captures e param body ↔ x ∈ (Expr.lam param body).free ∧ isPrimitive x = false ∧
      (e.scope.lookup? x = none → x ∉ e.shared.globals) := by
  rw [captures_eq, OrderedSet.keys_ofList]
  simp [List.mem_eraseDups, Env.needsCapture_iff]

theorem not_primitive_of_mem_captures {e : Env} {param : String} {body : Expr} {x : String}
    (h : x ∈ captures e param body) : isPrimitive x = false :=
  (mem_captures.mp h).2.1

theorem nodup_captures (e : Env) (param : String) (body : Expr) :
    (captures e param body).Nodup := by
  rw [captures_eq]
  exact OrderedSet.nodup_keys _

theorem param_not_mem_captures (e : Env) (param : String) (body : Expr) :
    param ∉ captures e param body := by
  intro h
  simpa [Expr.free] using (mem_captures.mp h).1

/-- A closure captures the free occurrences of names in its lambda, without the primitives and
without the globals that no local name hides, each name where it occurs first. So no name is
captured twice, and the parameter is not captured. -/
theorem captures_eq_eraseDups_free (e : Env) (param : String) (body : Expr) :
    captures e param body =
      (((Expr.lam param body).free.filter fun x => ¬ isPrimitive x).filter fun x =>
        ¬ (e.isGlobal x ∧ e.local? x = none)).eraseDups ∧
    (captures e param body).Nodup ∧ param ∉ captures e param body := by
  refine ⟨?_, nodup_captures e param body, param_not_mem_captures e param body⟩
  have hneeds : e.needsCapture [] = fun x =>
      decide (¬ isPrimitive x) && decide (¬ (e.isGlobal x ∧ e.local? x = none)) := by
    funext x
    cases hlocal : e.local? x <;> simp [Env.needsCapture, hlocal]
  rw [captures_eq, OrderedSet.keys_ofList, hneeds, List.filter_filter]
  simp [Bool.and_comm]

theorem lookup?_bind_enclosed {xs : List String} (hxs : xs.Nodup) (k : Nat) (s : Scope)
    (y : String) :
    ((xs.zipIdx k).foldl (fun s (x, i) => s.bind x (.enclosed x i)) s).lookup? y =
      if y ∈ xs then some (.enclosed y (k + xs.idxOf y : Nat)) else s.lookup? y := by
  induction xs generalizing k s with
  | nil => simp
  | cons x xs ih =>
      obtain ⟨hx, hxs⟩ := List.nodup_cons.mp hxs
      rw [List.zipIdx_cons, List.foldl_cons, ih hxs]
      by_cases hy : y = x
      · subst hy
        simp [hx]
      · have hne : x ≠ y := fun h => hy h.symm
        have hindex : k + 1 + xs.idxOf y = k + (x :: xs).idxOf y := by
          rw [List.idxOf_cons_ne _ hne]
          omega
        simp only [hindex, Scope.lookup?_bind_of_ne s hy, List.mem_cons, hy, false_or]

/-- In a routine the captured names are in the closure, in their order, and the parameter
is in its register. Nothing else is local. -/
theorem lookup?_routineScope {closure arg : Reg} {param : String} {captured : List String}
    (h : captured.Nodup) (y : String) :
    (routineScope closure param arg captured).lookup? y =
      if y ∈ captured then some (.enclosed y (captured.idxOf y : Nat))
      else if y = param then some (.register param arg) else none := by
  rw [routineScope, lookup?_bind_enclosed h, Nat.zero_add]
  by_cases hy : y = param
  · simp [hy]
  · simp only [hy, if_false, Scope.lookup?_bind_of_ne (Scope.routine closure) hy]
    rfl

@[simp] theorem closure_routineScope (closure arg : Reg) (param : String)
    (captured : List String) :
    (routineScope closure param arg captured).closure = some closure := by
  have hfold (xs : List (String × Nat)) (s : Scope) :
      (xs.foldl (fun s (x, i) => s.bind x (.enclosed x i)) s).closure = s.closure := by
    induction xs generalizing s with
    | nil => rfl
    | cons x xs ih => exact ih _
  exact hfold _ _

end Lowering
