import Lowering.Expr.Nameless
import Lowering.Proofs.Scoping

/-!
# Expressions with the same nameless form

`SameRef Γ Δ x y` says that `x` refers to the same thing below the binders `Γ` as `y` does
below the binders `Δ`. If two expressions have the same nameless form, their free names
refer to the same things in the same order (`Expr.forall₂_free`), they have the same holes,
and they are applied in the same way.
-/

namespace Lowering

/-- Below the binders `Γ` the name `x` refers to what `y` refers to below the binders `Δ`. -/
def SameRef (Γ Δ : List String) (x y : String) : Prop := Ref.of Γ x = Ref.of Δ y

section

variable {Γ Δ : List String} {x y a b : String}

theorem Ref.of_of_not_primitive (h : isPrimitive x = false) (Γ : List String) :
    Ref.of Γ x = match Γ.idxOf? x with
      | some index => .bound index
      | none => .free x := by
  rw [Ref.of, h]
  rfl

theorem SameRef.isPrimitive_eq (h : SameRef Γ Δ x y) : isPrimitive x = isPrimitive y := by
  unfold SameRef Ref.of at h
  cases hx : isPrimitive x <;> cases hy : isPrimitive y
  · rfl
  · cases hi : Γ.idxOf? x <;> simp [hx, hy, hi] at h
  · cases hj : Δ.idxOf? y <;> simp [hx, hy, hj] at h
  · rfl

theorem SameRef.eq_of_primitive (h : SameRef Γ Δ x y) (hx : isPrimitive x = true) : x = y := by
  have hy := h.isPrimitive_eq.symm.trans hx
  simpa [SameRef, Ref.of, hx, hy] using h

theorem Ref.of_injective (Γ : List String) : Function.Injective (Ref.of Γ) := by
  intro x y h
  have hsame : SameRef Γ Γ x y := h
  cases hx : isPrimitive x with
  | true => exact hsame.eq_of_primitive hx
  | false =>
      rw [of_of_not_primitive hx, of_of_not_primitive (hsame.isPrimitive_eq ▸ hx)] at h
      cases hi : Γ.idxOf? x with
      | none =>
          cases hj : Γ.idxOf? y with
          | none => simpa [hi, hj] using h
          | some j => simp [hi, hj] at h
      | some i =>
          cases hj : Γ.idxOf? y with
          | none => simp [hi, hj] at h
          | some j =>
              have hij : i = j := by simpa [hi, hj] using h
              obtain ⟨_, hxi, -⟩ := List.idxOf?_eq_some_iff.mp hi
              obtain ⟨_, hyj, -⟩ := List.idxOf?_eq_some_iff.mp hj
              subst hij
              exact hxi.symm.trans hyj

theorem SameRef.biUnique (Γ Δ : List String) : Relator.BiUnique (SameRef Γ Δ) := by
  constructor
  · intro x y z hx hy
    exact Ref.of_injective Γ (hx.trans hy.symm)
  · intro x y z hy hz
    exact Ref.of_injective Δ (hy.symm.trans hz)

theorem sameRef_nil_iff : SameRef [] [] x y ↔ x = y :=
  (Ref.of_injective []).eq_iff

/-- A new binder on each side is referred to by its own name. -/
theorem sameRef_cons_iff (hx : isPrimitive x = false) (hy : isPrimitive y = false) :
    SameRef (a :: Γ) (b :: Δ) x y ↔ x = a ∧ y = b ∨ x ≠ a ∧ y ≠ b ∧ SameRef Γ Δ x y := by
  simp only [SameRef, Ref.of_of_not_primitive hx, Ref.of_of_not_primitive hy, List.idxOf?_cons]
  by_cases hxa : x = a
  · by_cases hyb : y = b
    · simp [hxa, hyb]
    · have hby : (b == y) = false := by simpa using fun h => hyb h.symm
      cases hj : Δ.idxOf? y <;> simp [hxa, hyb, hby]
  · have hax : (a == x) = false := by simpa using fun h => hxa h.symm
    by_cases hyb : y = b
    · cases hi : Γ.idxOf? x <;> simp [hxa, hyb, hax]
    · have hby : (b == y) = false := by simpa using fun h => hyb h.symm
      cases hi : Γ.idxOf? x <;> cases hj : Δ.idxOf? y <;> simp [hxa, hyb, hax, hby]

/-- Behind new binders, the other names refer to what they did before. -/
theorem sameRef_append_iff {as bs : List String} (h : as.length = bs.length)
    (hx : isPrimitive x = false) (hxy : SameRef (as.reverse ++ Γ) (bs.reverse ++ Δ) x y) :
    (x ∈ as ∧ y ∈ bs) ∨ x ∉ as ∧ y ∉ bs ∧ SameRef Γ Δ x y := by
  have hy : isPrimitive y = false := hxy.isPrimitive_eq ▸ hx
  induction as generalizing bs Γ Δ with
  | nil =>
      cases bs with
      | nil => exact .inr ⟨by simp, by simp, hxy⟩
      | cons b bs => simp at h
  | cons a as ih =>
      cases bs with
      | nil => simp at h
      | cons b bs =>
          simp only [List.reverse_cons, List.append_assoc, List.singleton_append] at hxy
          rcases ih (by simpa using h) hxy with ⟨hxs, hys⟩ | ⟨hxs, hys, hrest⟩
          · exact .inl ⟨by simp [hxs], by simp [hys]⟩
          · rcases (sameRef_cons_iff hx hy).mp hrest with ⟨rfl, rfl⟩ | ⟨hxa, hyb, hrest⟩
            · exact .inl ⟨by simp, by simp⟩
            · exact .inr ⟨by simp [hxs, hxa], by simp [hys, hyb], hrest⟩

end

namespace Expr

variable {Δ : List String} {e : Expr}

theorem eq_of_nameless_var {r : Ref} (h : e.nameless Δ = .var r) :
    ∃ y, e = .var y ∧ Ref.of Δ y = r := by
  cases e with
  | var y =>
      cases h
      exact ⟨y, rfl, rfl⟩
  | _ => cases h

theorem eq_of_nameless_ctor {c : String} (h : e.nameless Δ = .ctor c) : e = .ctor c := by
  cases e with
  | ctor d =>
      cases h
      rfl
  | _ => cases h

theorem eq_of_nameless_num {n : Int64} (h : e.nameless Δ = .num n) : e = .num n := by
  cases e with
  | num m =>
      cases h
      rfl
  | _ => cases h

theorem eq_of_nameless_char {n : Int64} (h : e.nameless Δ = .char n) : e = .char n := by
  cases e with
  | char m =>
      cases h
      rfl
  | _ => cases h

theorem eq_of_nameless_caseOf {s : Nameless} {bs : List NamelessBranch}
    (h : e.nameless Δ = .caseOf s bs) : ∃ s' bs', e = .caseOf s' bs' ∧ s'.nameless Δ = s ∧
      namelessBranches Δ bs' = bs := by
  cases e with
  | caseOf s' bs' =>
      cases h
      exact ⟨s', bs', rfl, rfl, rfl⟩
  | _ => cases h

theorem eq_of_nameless_letIn {v b : Nameless} (h : e.nameless Δ = .letIn v b) :
    ∃ y v' b', e = .letIn y v' b' ∧ v'.nameless Δ = v ∧ b'.nameless (y :: Δ) = b := by
  cases e with
  | letIn y v' b' =>
      cases h
      exact ⟨y, v', b', rfl, rfl, rfl⟩
  | _ => cases h

theorem eq_of_nameless_lam {b : Nameless} (h : e.nameless Δ = .lam b) :
    ∃ y b', e = .lam y b' ∧ b'.nameless (y :: Δ) = b := by
  cases e with
  | lam y b' =>
      cases h
      exact ⟨y, b', rfl, rfl⟩
  | _ => cases h

theorem eq_of_nameless_app {f a : Nameless} (h : e.nameless Δ = .app f a) :
    ∃ f' a', e = .app f' a' ∧ f'.nameless Δ = f ∧ a'.nameless Δ = a := by
  cases e with
  | app f' a' =>
      cases h
      exact ⟨f', a', rfl, rfl, rfl⟩
  | _ => cases h

end Expr

theorem eq_of_namelessBranches_cons {Δ : List String} {bs : List Branch} {c : String} {n : Nat}
    {b : Nameless} {rest : List NamelessBranch}
    (h : namelessBranches Δ bs = .mk c n b :: rest) :
    ∃ params b' rest', bs = .mk c params b' :: rest' ∧ params.length = n ∧
      b'.nameless (params.reverse ++ Δ) = b ∧ namelessBranches Δ rest' = rest := by
  cases bs with
  | nil => cases h
  | cons d bs =>
      obtain ⟨c', params, b'⟩ := d
      cases h
      exact ⟨params, b', bs, rfl, rfl, rfl, rfl⟩

/-- The free names of an expression that are no primitives, from left to right. -/
def nonPrimitives (xs : List String) : List String := xs.filter fun x => !isPrimitive x

@[simp] theorem nonPrimitives_append (xs ys : List String) :
    nonPrimitives (xs ++ ys) = nonPrimitives xs ++ nonPrimitives ys :=
  List.filter_append xs ys

theorem forall₂_leave {Γ Δ as bs xs ys : List String} (h : as.length = bs.length)
    (hxs : List.Forall₂ (SameRef (as.reverse ++ Γ) (bs.reverse ++ Δ)) (nonPrimitives xs)
      (nonPrimitives ys)) :
    List.Forall₂ (SameRef Γ Δ) (nonPrimitives (xs.filter (· ∉ as)))
      (nonPrimitives (ys.filter (· ∉ bs))) := by
  have hprimitive : ∀ x ∈ nonPrimitives xs, isPrimitive x = false := by
    intro x hx
    simpa using (List.mem_filter.mp hx).2
  rw [nonPrimitives, nonPrimitives, List.filter_comm, List.filter_comm (l := ys)]
  change List.Forall₂ _ ((nonPrimitives xs).filter _) ((nonPrimitives ys).filter _)
  generalize nonPrimitives xs = us at hxs hprimitive
  generalize nonPrimitives ys = vs at hxs
  induction hxs with
  | nil => exact .nil
  | @cons u v us vs huv _ ih =>
      have hrest := ih fun x hx => hprimitive x (List.mem_cons_of_mem _ hx)
      rcases sameRef_append_iff h (hprimitive u (List.mem_cons_self ..)) huv with
        ⟨hu, hv⟩ | ⟨hu, hv, huv'⟩
      · rwa [List.filter_cons_of_neg (by simpa using hu),
          List.filter_cons_of_neg (by simpa using hv)]
      · rw [List.filter_cons_of_pos (by simpa using hu),
          List.filter_cons_of_pos (by simpa using hv)]
        exact .cons huv' hrest

mutual

/-- Expressions with the same nameless form refer to the same things, in the same order. -/
theorem Expr.forall₂_free {Γ Δ : List String} : ∀ {e e' : Expr},
    e.nameless Γ = e'.nameless Δ →
      List.Forall₂ (SameRef Γ Δ) (nonPrimitives e.free) (nonPrimitives e'.free)
  | .var x, e', h => by
      obtain ⟨y, rfl, hy⟩ := Expr.eq_of_nameless_var h.symm
      have hxy : SameRef Γ Δ x y := hy.symm
      cases hx : isPrimitive x with
      | true => simp [nonPrimitives, Expr.free, ← hxy.isPrimitive_eq, hx]
      | false => simp [nonPrimitives, Expr.free, ← hxy.isPrimitive_eq, hx, hxy]
  | .ctor c, e', h => by
      rw [Expr.eq_of_nameless_ctor h.symm]
      exact .nil
  | .num n, e', h => by
      rw [Expr.eq_of_nameless_num h.symm]
      exact .nil
  | .char n, e', h => by
      rw [Expr.eq_of_nameless_char h.symm]
      exact .nil
  | .caseOf e bs, e', h => by
      obtain ⟨s', bs', rfl, hs, hbs⟩ := Expr.eq_of_nameless_caseOf h.symm
      rw [Expr.free, Expr.free, nonPrimitives_append, nonPrimitives_append]
      exact List.rel_append (Expr.forall₂_free hs.symm) (forall₂_freeInBranches hbs.symm)
  | .letIn x v b, e', h => by
      obtain ⟨y, v', b', rfl, hv, hb⟩ := Expr.eq_of_nameless_letIn h.symm
      rw [Expr.free, Expr.free, nonPrimitives_append, nonPrimitives_append]
      apply List.rel_append (Expr.forall₂_free hv.symm)
      simpa using forall₂_leave (show [x].length = [y].length from rfl) (Expr.forall₂_free hb.symm)
  | .lam x b, e', h => by
      obtain ⟨y, b', rfl, hb⟩ := Expr.eq_of_nameless_lam h.symm
      simpa [Expr.free] using
        forall₂_leave (show [x].length = [y].length from rfl) (Expr.forall₂_free hb.symm)
  | .app f a, e', h => by
      obtain ⟨f', a', rfl, hf, ha⟩ := Expr.eq_of_nameless_app h.symm
      rw [Expr.free, Expr.free, nonPrimitives_append, nonPrimitives_append]
      exact List.rel_append (Expr.forall₂_free hf.symm) (Expr.forall₂_free ha.symm)
  | .missing, e', h => by
      cases e' <;> simp [Expr.nameless] at h
      exact .nil
  | .foreign _, e', h => by
      cases e' <;> simp [Expr.nameless] at h
      exact .nil

theorem forall₂_freeInBranches {Γ Δ : List String} : ∀ {bs bs' : List Branch},
    namelessBranches Γ bs = namelessBranches Δ bs' →
      List.Forall₂ (SameRef Γ Δ) (nonPrimitives (freeInBranches bs))
        (nonPrimitives (freeInBranches bs'))
  | [], bs', h => by
      cases bs' with
      | nil => exact .nil
      | cons b bs' => cases b; simp [namelessBranches] at h
  | .mk c params b :: bs, bs', h => by
      obtain ⟨params', b', rest', rfl, hn, hb, hrest⟩ := eq_of_namelessBranches_cons h.symm
      rw [freeInBranches, freeInBranches, nonPrimitives_append, nonPrimitives_append]
      exact List.rel_append (forall₂_leave hn.symm (Expr.forall₂_free hb.symm))
        (forall₂_freeInBranches hrest.symm)

end

mutual

theorem Expr.holes_eq_of_nameless {Γ Δ : List String} : ∀ {e e' : Expr},
    e.nameless Γ = e'.nameless Δ → e.holes = e'.holes
  | .var x, e', h => by
      obtain ⟨y, rfl, -⟩ := Expr.eq_of_nameless_var h.symm
      rfl
  | .ctor c, e', h => by rw [Expr.eq_of_nameless_ctor h.symm]
  | .num n, e', h => by rw [Expr.eq_of_nameless_num h.symm]
  | .char n, e', h => by rw [Expr.eq_of_nameless_char h.symm]
  | .caseOf e bs, e', h => by
      obtain ⟨s', bs', rfl, hs, hbs⟩ := Expr.eq_of_nameless_caseOf h.symm
      rw [Expr.holes, Expr.holes, Expr.holes_eq_of_nameless hs.symm,
        holesInBranches_eq_of_nameless hbs.symm]
  | .letIn x v b, e', h => by
      obtain ⟨y, v', b', rfl, hv, hb⟩ := Expr.eq_of_nameless_letIn h.symm
      rw [Expr.holes, Expr.holes, Expr.holes_eq_of_nameless hv.symm,
        Expr.holes_eq_of_nameless hb.symm]
  | .lam x b, e', h => by
      obtain ⟨y, b', rfl, hb⟩ := Expr.eq_of_nameless_lam h.symm
      rw [Expr.holes, Expr.holes, Expr.holes_eq_of_nameless hb.symm]
  | .app f a, e', h => by
      obtain ⟨f', a', rfl, hf, ha⟩ := Expr.eq_of_nameless_app h.symm
      rw [Expr.holes, Expr.holes, Expr.holes_eq_of_nameless hf.symm,
        Expr.holes_eq_of_nameless ha.symm]
  | .missing, e', h => by
      cases e' <;> simp [Expr.nameless] at h
      rfl
  | .foreign _, e', h => by
      cases e' <;> simp [Expr.nameless] at h
      rw [h]

theorem holesInBranches_eq_of_nameless {Γ Δ : List String} : ∀ {bs bs' : List Branch},
    namelessBranches Γ bs = namelessBranches Δ bs' → holesInBranches bs = holesInBranches bs'
  | [], bs', h => by
      cases bs' with
      | nil => rfl
      | cons b bs' => cases b; simp [namelessBranches] at h
  | .mk c params b :: bs, bs', h => by
      obtain ⟨params', b', rest', rfl, -, hb, hrest⟩ := eq_of_namelessBranches_cons h.symm
      rw [holesInBranches, holesInBranches, Expr.holes_eq_of_nameless hb.symm,
        holesInBranches_eq_of_nameless hrest.symm]

end

namespace Expr

theorem callee_app (f a : Expr) :
    (app f a).callee = match f.callee with
      | .ctor c n => .ctor c (n + 1)
      | _ => .other := by
  unfold callee
  rw [spine_app]
  obtain ⟨head, args⟩ := f.spine
  cases head with
  | ctor c => simp
  | var x =>
      cases args with
      | nil => cases hx : isPrimitive x <;> simp [hx]
      | cons b args => rfl
  | _ => rfl

/-- Alike functions are called in the same way. -/
theorem callee_eq_of_nameless {Γ Δ : List String} : ∀ {f f' : Expr},
    f.nameless Γ = f'.nameless Δ → (∀ x, f ≠ .var x) → f.callee = f'.callee
  | .var x, _, _, hvar => absurd rfl (hvar x)
  | .ctor c, f', h, _ => by rw [eq_of_nameless_ctor h.symm]
  | .app g a, f', h, _ => by
      obtain ⟨g', a', rfl, hg, -⟩ := eq_of_nameless_app h.symm
      rw [callee_app, callee_app]
      by_cases hvar : ∃ x, g = .var x
      · obtain ⟨x, rfl⟩ := hvar
        obtain ⟨y, rfl, -⟩ := eq_of_nameless_var hg
        have hother (z : String) : (match (var z).callee with
            | .ctor c n => Callee.ctor c (n + 1)
            | _ => .other) = .other := by
          simp only [callee, spine, spineOnto]
          cases isPrimitive z <;> rfl
        rw [hother, hother]
      · rw [callee_eq_of_nameless hg.symm (not_exists.mp hvar)]
  | .num n, f', h, _ => by rw [eq_of_nameless_num h.symm]
  | .char n, f', h, _ => by rw [eq_of_nameless_char h.symm]
  | .caseOf s bs, f', h, _ => by
      obtain ⟨s', bs', rfl, -⟩ := eq_of_nameless_caseOf h.symm
      rfl
  | .letIn x v b, f', h, _ => by
      obtain ⟨y, v', b', rfl, -⟩ := eq_of_nameless_letIn h.symm
      rfl
  | .lam x b, f', h, _ => by
      obtain ⟨y, b', rfl, -⟩ := eq_of_nameless_lam h.symm
      rfl
  | .missing, f', h, _ => by
      cases f' <;> simp [nameless] at h
      rfl
  | .foreign k, f', h, _ => by
      cases f' <;> simp [nameless] at h
      rfl

theorem callee_var (x : String) :
    (var x).callee = if isPrimitive x then .primitive x else .var x := rfl

theorem callee_var_ne_ctor (x c : String) (n : Nat) : (var x).callee ≠ .ctor c n := by
  rw [callee_var]
  split <;> simp

theorem callee_var_ne_other (x : String) : (var x).callee ≠ .other := by
  rw [callee_var]
  split <;> simp

theorem callee_ctor_of_nameless {Γ Δ : List String} {f f' : Expr} {c : String} {n : Nat}
    (h : f.nameless Γ = f'.nameless Δ) (hf : f.callee = .ctor c n) : f'.callee = .ctor c n := by
  rw [← callee_eq_of_nameless h, hf]
  rintro x rfl
  exact callee_var_ne_ctor x c n hf

theorem callee_other_of_nameless {Γ Δ : List String} {f f' : Expr}
    (h : f.nameless Γ = f'.nameless Δ) (hf : f.callee = .other) : f'.callee = .other := by
  rw [← callee_eq_of_nameless h, hf]
  rintro x rfl
  exact callee_var_ne_other x hf

end Expr

end Lowering
