import Lowering.Proofs.Nameless

/-!
# Two runs of lowering in step

Two runs are compared that differ in the names of local variables and in the globals that
are declared. They stay in step, and give the same code, as long as names that refer to the
same things live at the same places: `Lowers.inStep`. This holds of all names at once only
where they are free in what is lowered. Inside of a routine the others are not in scope.
-/

namespace Lowering

/-- In two states, the names `x` and `y` denote values that live at the same place. -/
inductive SamePlace (s s' : LowerState) (x y : String) : Prop where
  | register {n n' : String} {r : Reg} (left : s.scope.lookup? x = some (.register n r))
      (right : s'.scope.lookup? y = some (.register n' r))
  | enclosed {n n' : String} {i : Int} (left : s.scope.lookup? x = some (.enclosed n i))
      (right : s'.scope.lookup? y = some (.enclosed n' i))
  | global (same : x = y) (left : s.scope.lookup? x = none) (right : s'.scope.lookup? y = none)
      (declared : x ∈ s.globals) (declared' : y ∈ s'.globals)

namespace SamePlace

variable {s s' t t' : LowerState} {x y : String}

theorem congr (h : SamePlace s s' x y) (hscope : t.scope = s.scope)
    (hglobals : t.globals = s.globals) (hscope' : t'.scope = s'.scope)
    (hglobals' : t'.globals = s'.globals) : SamePlace t t' x y := by
  cases h with
  | register left right => exact .register (hscope ▸ left) (hscope' ▸ right)
  | enclosed left right => exact .enclosed (hscope ▸ left) (hscope' ▸ right)
  | global same left right declared declared' =>
      exact .global same (hscope ▸ left) (hscope' ▸ right) (hglobals ▸ declared)
        (hglobals' ▸ declared')

/-- A closure captures both of them or none. -/
theorem needsCapture_eq (h : SamePlace s s' x y) (hx : isPrimitive x = isPrimitive y) :
    s.env.needsCapture [] x = s'.env.needsCapture [] y := by
  have hleft : s.env.needsCapture [] x = true ↔ isPrimitive x = false ∧ x ∉ [] ∧
      (s.scope.lookup? x = none → x ∉ s.globals) := Env.needsCapture_iff
  have hright : s'.env.needsCapture [] y = true ↔ isPrimitive y = false ∧ y ∉ [] ∧
      (s'.scope.lookup? y = none → y ∉ s'.globals) := Env.needsCapture_iff
  rw [Bool.eq_iff_iff, hleft, hright, hx]
  cases h with
  | register left right => simp [left, right]
  | enclosed left right => simp [left, right]
  | global same left right declared declared' => simp [left, right, declared, declared']

/-- Their values are moved by the same code. -/
theorem code_eq (h : SamePlace s s' x y) (hclosure : s.scope.closure = s'.scope.closure)
    {dst : Reg} {c c' : Code} (hc : Refers x dst s c) (hc' : Refers y dst s' c') : c = c' := by
  cases h with
  | register left right =>
      cases hc <;> cases hc' <;> simp_all
  | enclosed left right =>
      cases hc <;> cases hc' <;> simp_all
  | global same left right _ _ =>
      cases hc <;> cases hc' <;> simp_all

end SamePlace

/-- Both states have handed out the same numbers and tags. -/
structure LowerState.InStep (s s' : LowerState) : Prop where
  next : s.next = s'.next
  tags : s.tags = s'.tags
  cases : s.cases = s'.cases
  routines : s.routines = s'.routines

namespace LowerState.InStep

variable {s s' : LowerState} (h : s.InStep s')
include h

theorem reg_eq (i : Nat) : s.reg i = s'.reg i := by
  rw [reg, reg, h.next]

theorem regs_eq (n : Nat) : s.regs n = s'.regs n := by
  simp only [regs, h.reg_eq]

theorem tagOf_eq (c : String) (n : Nat) : s.tagOf c n = s'.tagOf c n := by
  rw [tagOf, tagOf, h.tags]

theorem skip (n : Nat) : (s.skip n).InStep (s'.skip n) :=
  ⟨congrArg (· + n) h.next, h.tags, h.cases, h.routines⟩

theorem withTag (c : String) (n : Nat) : (s.withTag c n).InStep (s'.withTag c n) :=
  ⟨h.next, congrArg (fun r => (r.tag c n).2) h.tags, h.cases, h.routines⟩

theorem enterCase : s.enterCase.InStep s'.enterCase :=
  ⟨h.next, h.tags, congrArg (· + 1) h.cases, h.routines⟩

theorem enterRoutine : s.enterRoutine.InStep s'.enterRoutine :=
  ⟨h.next, h.tags, h.cases, congrArg (· + 1) h.routines⟩

theorem inScope (c c' : Scope) : (s.inScope c).InStep (s'.inScope c') :=
  ⟨h.next, h.tags, h.cases, h.routines⟩

end LowerState.InStep

/-- Two states in step, in which the names that are free in a phrase live at the same places
if they refer to the same things. -/
structure LowerState.Alike (Γ Δ free : List String) (s s' : LowerState) : Prop
    extends s.InStep s' where
  closure : s.scope.closure = s'.scope.closure
  places : ∀ x ∈ free, isPrimitive x = false → ∀ y, SameRef Γ Δ x y → SamePlace s s' x y

namespace LowerState.Alike

variable {Γ Δ free free' : List String} {s s' t t' : LowerState}

/-- What both runs have done since does not matter, as long as they are in step. -/
theorem later (h : s.Alike Γ Δ free s') (hs : s.Grows t) (hs' : s'.Grows t')
    (hstep : t.InStep t') (hfree : free' ⊆ free) : t.Alike Γ Δ free' t' where
  toInStep := hstep
  closure := by rw [hs.scope, hs'.scope, h.closure]
  places x hx hp y hxy :=
    (h.places x (hfree hx) hp y hxy).congr hs.scope hs.globals hs'.scope hs'.globals

theorem subset (h : s.Alike Γ Δ free s') (hfree : free' ⊆ free) : s.Alike Γ Δ free' s' :=
  h.later (.refl s) (.refl s') h.toInStep hfree

theorem skip (h : s.Alike Γ Δ free s') (n : Nat) : (s.skip n).Alike Γ Δ free (s'.skip n) :=
  h.later (.skip s n) (.skip s' n) (h.toInStep.skip n) (List.Subset.refl _)

/-- A new local name on each side, in the same register. -/
theorem bind {x y : String} (h : s.Alike Γ Δ (free.filter (· ≠ x)) s') (r : Reg) :
    (s.inScope (s.scope.bind x (.register x r))).Alike (x :: Γ) (y :: Δ) free
      (s'.inScope (s'.scope.bind y (.register y r))) where
  toInStep := h.toInStep.inScope _ _
  closure := h.closure
  places u hu hp v huv := by
    have hp' : isPrimitive v = false := huv.isPrimitive_eq ▸ hp
    rcases (sameRef_cons_iff hp hp').mp huv with ⟨rfl, rfl⟩ | ⟨hux, hvy, huv'⟩
    · exact .register (Scope.lookup?_bind_self _ _ _) (Scope.lookup?_bind_self _ _ _)
    · have hold := h.places u (by simp [hu, hux]) hp v huv'
      have hleft := s.scope.lookup?_bind_of_ne hux (.register x r)
      have hright := s'.scope.lookup?_bind_of_ne hvy (.register y r)
      cases hold with
      | register left right => exact .register (hleft.trans left) (hright.trans right)
      | enclosed left right => exact .enclosed (hleft.trans left) (hright.trans right)
      | global same left right declared declared' =>
          exact .global same (hleft.trans left) (hright.trans right) declared declared'

end LowerState.Alike

theorem OrderedSet.forall₂_foldl_insert {R : String → String → Prop} (hR : Relator.BiUnique R)
    {xs ys : List String} (h : List.Forall₂ R xs ys) {s s' : OrderedSet String}
    (hs : List.Forall₂ R s.keys s'.keys) :
    List.Forall₂ R (xs.foldl OrderedSet.insert s).keys (ys.foldl OrderedSet.insert s').keys := by
  induction h generalizing s s' with
  | nil => exact hs
  | @cons x y xs ys hxy _ ih =>
      apply ih
      have hmem : x ∈ s ↔ y ∈ s' := List.rel_mem hR hxy hs
      by_cases hx : x ∈ s
      · rwa [keys_insert_of_mem hx, keys_insert_of_mem (hmem.mp hx)]
      · rw [keys_insert_of_not_mem hx, keys_insert_of_not_mem (mt hmem.mpr hx)]
        exact List.rel_append hs (.cons hxy .nil)

theorem idxOf_eq_of_forall₂ {R : String → String → Prop} (hR : Relator.BiUnique R)
    {xs ys : List String} (h : List.Forall₂ R xs ys) {x y : String} (hxy : R x y) :
    xs.idxOf x = ys.idxOf y := by
  induction h with
  | nil => rfl
  | @cons a b xs ys hab _ ih =>
      have heq : a = x ↔ b = y := Relator.rel_eq hR hab hxy
      by_cases ha : a = x
      · rw [ha, heq.mp ha, List.idxOf_cons_self, List.idxOf_cons_self]
      · rw [List.idxOf_cons_ne _ ha, List.idxOf_cons_ne _ (mt heq.mpr ha), ih]

/-- Closures of lambdas that are alike capture the same things in the same order. -/
theorem LowerState.Alike.forall₂_captures {Γ Δ : List String} {s s' : LowerState}
    {x y : String} {e e' : Expr} (h : s.Alike Γ Δ (Expr.lam x e).free s')
    (hsame : (Expr.lam x e).nameless Γ = (Expr.lam y e').nameless Δ) :
    List.Forall₂ (SameRef Γ Δ) (captures s.env x e) (captures s'.env y e') := by
  have hcaptured (s : LowerState) (xs : List String) :
      xs.filter (s.env.needsCapture []) = (nonPrimitives xs).filter (s.env.needsCapture []) := by
    rw [nonPrimitives, List.filter_filter]
    apply List.filter_congr
    intro z _
    rw [Bool.eq_iff_iff, Bool.and_eq_true]
    exact ⟨fun hz => ⟨hz, by simp [(Env.needsCapture_iff.mp hz).1]⟩, And.left⟩
  have hfree := Expr.forall₂_free hsame
  have hmem : ∀ z ∈ nonPrimitives (Expr.lam x e).free,
      z ∈ (Expr.lam x e).free ∧ isPrimitive z = false := by
    intro z hz
    simpa [nonPrimitives] using hz
  rw [captures_eq, captures_eq, hcaptured s, hcaptured s']
  apply OrderedSet.forall₂_foldl_insert (SameRef.biUnique Γ Δ) _ .nil
  have hboth := (List.forall₂_and_left _ _).mpr ⟨hmem, hfree⟩
  have hfilter := List.rel_filter (p := s.env.needsCapture []) (q := s'.env.needsCapture [])
    (fun u v ⟨⟨hu, hp⟩, huv⟩ => Bool.eq_iff_iff.mp
      ((h.places u hu hp v huv).needsCapture_eq huv.isPrimitive_eq)) hboth
  exact hfilter.imp fun _ _ huv => huv.2

/-- The routines of two such lambdas find the names of their bodies at the same places. -/
theorem LowerState.Alike.routine {Γ Δ : List String} {s s' : LowerState} {x y : String}
    {e e' : Expr} (h : s.Alike Γ Δ (Expr.lam x e).free s')
    (hsame : (Expr.lam x e).nameless Γ = (Expr.lam y e').nameless Δ) :
    ((s.enterRoutine.skip 3).inScope
        (routineScope (s.reg 1) x (s.reg 2) (captures s.env x e))).Alike (x :: Γ) (y :: Δ) e.free
      ((s'.enterRoutine.skip 3).inScope
        (routineScope (s'.reg 1) y (s'.reg 2) (captures s'.env y e'))) where
  toInStep := (h.enterRoutine.skip 3).inScope _ _
  closure := by simp [h.reg_eq]
  places u hu hp v huv := by
    have hp' : isPrimitive v = false := huv.isPrimitive_eq ▸ hp
    have hcaptured := h.forall₂_captures hsame
    have hleft : (routineScope (s.reg 1) x (s.reg 2) (captures s.env x e)).lookup? u = _ :=
      lookup?_routineScope (nodup_captures _ _ _) u
    have hright : (routineScope (s'.reg 1) y (s'.reg 2) (captures s'.env y e')).lookup? v = _ :=
      lookup?_routineScope (nodup_captures _ _ _) v
    rcases (sameRef_cons_iff hp hp').mp huv with ⟨rfl, rfl⟩ | ⟨hux, hvy, huv'⟩
    · rw [if_neg (param_not_mem_captures _ _ _), if_pos rfl] at hleft hright
      exact .register hleft (hright.trans (by rw [h.reg_eq]))
    · have hmem := List.rel_mem (SameRef.biUnique Γ Δ) huv' hcaptured
      have hplace := h.places u (by simp [Expr.free, hu, hux]) hp v huv'
      by_cases hc : u ∈ captures s.env x e
      · rw [if_pos hc] at hleft
        rw [if_pos (hmem.mp hc), ← idxOf_eq_of_forall₂ (SameRef.biUnique Γ Δ) hcaptured huv']
          at hright
        exact .enclosed hleft hright
      · rw [if_neg hc, if_neg hux] at hleft
        rw [if_neg (mt hmem.mpr hc), if_neg hvy] at hright
        -- A name that is not captured is a global, so it is the same name on both sides.
        have hlocal : s.scope.lookup? u = none ∧ u ∈ s.globals := by
          rw [LowerState.mem_captures, not_and, not_and, Classical.not_imp, not_not] at hc
          exact hc (by simp [Expr.free, hu, hux]) hp
        cases hplace with
        | register left _ => simp [hlocal.1] at left
        | enclosed left _ => simp [hlocal.1] at left
        | global same _ _ declared declared' => exact .global same hleft hright declared declared'

namespace Phrase

/-- Two phrases that differ only in the names of local variables. -/
inductive Alike (Γ Δ : List String) : Phrase → Phrase → Prop where
  | expr {e e' : Expr} {dst dst' : Reg} (same : e.nameless Γ = e'.nameless Δ)
      (hdst : dst = dst') : Alike Γ Δ (.expr e dst) (.expr e' dst')
  | args {e e' : Expr} (same : e.nameless Γ = e'.nameless Δ) : Alike Γ Δ (.args e) (.args e')
  | fields {value value' : Reg} {field : Nat} {params params' : List String} {e e' : Expr}
      {dst : Reg} (count : params.length = params'.length)
      (same : e.nameless (params.reverse ++ Γ) = e'.nameless (params'.reverse ++ Δ))
      (hvalue : value = value') :
      Alike Γ Δ (.fields value field params e dst) (.fields value' field params' e' dst)
  | branches {id id' : Nat} {value value' : Reg} {index : Nat} {bs bs' : List Branch} {dst : Reg}
      (same : namelessBranches Γ bs = namelessBranches Δ bs') (hid : id = id')
      (hvalue : value = value') :
      Alike Γ Δ (.branches id value index bs dst) (.branches id' value' index bs' dst)

end Phrase

/-- Two fragments with the same code, in place and in their routines. -/
structure Fragment.SameCode (f g : Fragment) : Prop where
  code : f.code = g.code
  routines : f.routines.map Routine.code = g.routines.map Routine.code

namespace Fragment.SameCode

variable {f g f' g' : Fragment}

theorem refl (f : Fragment) : f.SameCode f := ⟨rfl, rfl⟩

theorem ofCode {c c' : Code} (h : c = c') : (Fragment.ofCode c).SameCode (.ofCode c') :=
  h ▸ .refl _

theorem append (h : f.SameCode f') (k : g.SameCode g') : (f ++ g).SameCode (f' ++ g') := by
  constructor
  · rw [code_append, code_append, h.code, k.code]
  · rw [routines_append, routines_append, List.map_append, List.map_append, h.routines, k.routines]

theorem prepend (h : f.SameCode f') (k : g.SameCode g') :
    (f.prepend g).SameCode (f'.prepend g') := by
  constructor
  · rw [code_prepend, code_prepend, h.code, k.code]
  · rw [routines_prepend, routines_prepend, List.map_append, List.map_append, h.routines,
      k.routines]

end Fragment.SameCode

theorem Compares.inStep {mode : Dispatch} {id : Nat} {tagReg wanted : Reg} {index : Nat}
    {Γ Δ : List String} {bs bs' : List Branch} {s s' t t' : LowerState} {code code' : Code}
    (h : Compares mode id tagReg wanted index bs s code t)
    (h' : Compares mode id tagReg wanted index bs' s' code' t')
    (hsame : namelessBranches Γ bs = namelessBranches Δ bs') (hs : s.InStep s') :
    code = code' ∧ t.InStep t' := by
  induction h generalizing bs' s' code' t' with
  | nil index s =>
      cases bs' with
      | nil =>
          cases h'
          exact ⟨rfl, hs⟩
      | cons b bs' => cases b; simp [namelessBranches] at hsame
  | @cons index b bs s t cs _ ih =>
      obtain ⟨c, params, e⟩ := b
      obtain ⟨params', e', rest', rfl, hn, -, hrest⟩ := eq_of_namelessBranches_cons hsame.symm
      cases h' with
      | cons rest' =>
          have hmeet : (mode.meet s (.mk c params e)).InStep (mode.meet s' (.mk c params' e')) := by
            cases mode with
            | position => exact hs
            | tag =>
                show (s.withTag c (params.length + 1)).InStep (s'.withTag c (params'.length + 1))
                rw [hn]
                exact hs.withTag _ _
          have hnumber : mode.number s index (.mk c params e) =
              mode.number s' index (.mk c params' e') := by
            cases mode with
            | position => rfl
            | tag =>
                show (s.tagOf c (params.length + 1)).id = (s'.tagOf c (params'.length + 1)).id
                rw [hn, hs.tagOf_eq]
          obtain ⟨rfl, hstep⟩ := ih rest' hrest.symm hmeet
          exact ⟨by rw [hnumber], hstep⟩

theorem RefersAll.code_eq {Γ Δ xs ys : List String} {s s' : LowerState} {c c' : Code}
    (h : RefersAll xs s c) (h' : RefersAll ys s' c') (hxs : List.Forall₂ (SameRef Γ Δ) xs ys)
    (hs : s.Alike Γ Δ xs s') : c = c' := by
  induction h generalizing ys s' c' with
  | nil s =>
      cases hxs
      cases h'
      rfl
  | @cons x rest s c cs head tail ih =>
      cases hxs with
      | @cons _ y _ ys hxy hrest =>
          cases h' with
          | cons head' tail' =>
              have hnext := hs.skip 1
              have hplace := hnext.places x (by simp) head.not_primitive y hxy
              rw [← hs.reg_eq] at head'
              rw [hplace.code_eq hnext.closure head head', ih tail' hrest
                (hnext.subset (List.subset_cons_self _ _))]

-- What is applied decides which rule an application is lowered by.
namespace Lowers

variable {mode : Dispatch} {g a : Expr} {x : String} {dst : Reg} {s t : LowerState}
  {regs : List Reg} {f : Fragment}

theorem app_of_ctor {c : String} {n : Nat} (h : Lowers mode (.expr (.app g a) dst) s regs f t)
    (hg : g.callee = .ctor c n) :
    regs = [] ∧ ∃ args fa s₁, Lowers mode (.args (.app g a)) (s.withTag c (n + 2)) args fa s₁ ∧
      f = fa ++ .ofCode (constructCode (s.tagOf c (n + 2)) args (s₁.reg 1) (s₁.reg 2) dst) ∧
      t = s₁.skip 2 := by
  cases h with
  | construct callee ha =>
      rw [hg] at callee
      cases callee
      exact ⟨rfl, _, _, _, ha, rfl, rfl⟩
  | print _ _ => exact absurd hg (Expr.callee_var_ne_ctor _ _ _)
  | callVar _ _ => exact absurd hg (Expr.callee_var_ne_ctor _ _ _)
  | call callee _ _ =>
      rw [hg] at callee
      cases callee

theorem app_of_primitive (h : Lowers mode (.expr (.app (.var x) a) dst) s regs f t)
    (hx : isPrimitive x = true) :
    regs = [] ∧ ∃ fa s₁, Lowers mode (.expr a dst) s [] fa s₁ ∧
      f = fa ++ .ofCode (printCode x (s₁.reg 1) dst) ∧ t = s₁.skip 1 := by
  cases h with
  | construct callee _ => exact absurd callee (Expr.callee_var_ne_ctor _ _ _)
  | print _ ha => exact ⟨rfl, _, _, ha, rfl, rfl⟩
  | callVar _ refers =>
      rw [refers.not_primitive] at hx
      cases hx
  | call callee _ _ => exact absurd callee (Expr.callee_var_ne_other _)

theorem app_of_var (h : Lowers mode (.expr (.app (.var x) a) dst) s regs f t)
    (hx : isPrimitive x = false) :
    regs = [] ∧ ∃ fa c s₁, Lowers mode (.expr a (s.reg 2)) (s.skip 2) [] fa s₁ ∧
      Refers x (s.reg 1) s₁ c ∧
      f = fa ++ .ofCode c ++ .ofCode (callCode (s.reg 1) (s.reg 2) (s₁.reg 1) (s₁.reg 2) dst) ∧
      t = s₁.skip 2 := by
  cases h with
  | construct callee _ => exact absurd callee (Expr.callee_var_ne_ctor _ _ _)
  | print hx' _ =>
      rw [hx] at hx'
      cases hx'
  | callVar ha refers => exact ⟨rfl, _, _, _, ha, refers, rfl, rfl⟩
  | call callee _ _ => exact absurd callee (Expr.callee_var_ne_other _)

theorem app_of_other (h : Lowers mode (.expr (.app g a) dst) s regs f t)
    (hg : g.callee = .other) :
    regs = [] ∧ ∃ fg fa s₁ s₂, Lowers mode (.expr g (s.reg 1)) (s.skip 2) [] fg s₁ ∧
      Lowers mode (.expr a (s.reg 2)) s₁ [] fa s₂ ∧
      f = fg ++ fa ++ .ofCode (callCode (s.reg 1) (s.reg 2) (s₂.reg 1) (s₂.reg 2) dst) ∧
      t = s₂.skip 2 := by
  cases h with
  | construct callee _ =>
      rw [hg] at callee
      cases callee
  | print _ _ => exact absurd hg (Expr.callee_var_ne_other _)
  | callVar _ _ => exact absurd hg (Expr.callee_var_ne_other _)
  | call _ hg' ha => exact ⟨rfl, _, _, _, _, hg', ha, rfl, rfl⟩

end Lowers

open LowerState (Grows)

/-- A run that starts in step, on a phrase that differs only in the names of local variables,
gives the same code and ends in step. -/
def Phrase.KeepsStep (mode : Dispatch) (ph : Phrase) (s : LowerState) (regs : List Reg)
    (f : Fragment) (t : LowerState) : Prop :=
  ∀ ⦃Γ Δ : List String⦄ ⦃ph' : Phrase⦄ ⦃s' : LowerState⦄ ⦃regs' : List Reg⦄ ⦃f' : Fragment⦄
    ⦃t' : LowerState⦄, ph.Alike Γ Δ ph' → s.Alike Γ Δ ph.free s' →
      Lowers mode ph' s' regs' f' t' → regs = regs' ∧ f.SameCode f' ∧ t.InStep t'

namespace Phrase.KeepsStep

variable {mode : Dispatch} {s s₁ s₂ t : LowerState} {dst : Reg} {e g a b v : Expr}
  {x : String} {regs : List Reg} {fe fb fg fa fv : Fragment}

theorem caseOf {bs : List Branch} {tests : Code}
    (he : Lowers mode (.expr e (s.reg 1)) (s.skip 3).enterCase [] fe s₁)
    (hc : Compares mode (s.cases + 1) (s.reg 2) (s.reg 3) 0 bs s₁ tests s₂)
    (scrutinee : KeepsStep mode (.expr e (s.reg 1)) (s.skip 3).enterCase [] fe s₁)
    (branches : KeepsStep mode (.branches (s.cases + 1) (s.reg 1) 0 bs dst) s₂ [] fb t) :
    KeepsStep mode (.expr (.caseOf e bs) dst) s []
      (fe ++ .ofCode (.load (s.reg 2) (s.reg 1) 0 :: tests) ++ fb ++
        .ofCode [.mark (.caseEnd (s.cases + 1))]) t := by
  rintro Γ Δ _ s' _ _ _ ⟨hsame, rfl⟩ hs h'
  obtain ⟨e', bs', rfl, hesame, hbsame⟩ := Expr.eq_of_nameless_caseOf hsame.symm
  cases h' with
  | caseOf he' hc' hb' =>
      have hstart (s : LowerState) : s.Grows (s.skip 3).enterCase :=
        (Grows.skip s 3).trans (.enterCase _)
      obtain ⟨-, hfe, hs₁⟩ := scrutinee (.expr hesame.symm (hs.reg_eq 1))
        (hs.later (hstart _) (hstart _) (hs.toInStep.skip 3).enterCase
          (List.subset_append_left _ _)) he'
      rw [← hs.cases, ← hs.reg_eq, ← hs.reg_eq] at hc'
      obtain ⟨rfl, hs₂⟩ := hc.inStep hc' hbsame.symm hs₁
      obtain ⟨-, hfb, ht⟩ := branches (.branches hbsame.symm (by rw [hs.cases]) (hs.reg_eq 1))
        (hs.later ((hstart _).trans (he.grows.trans hc.grows))
          ((hstart _).trans (he'.grows.trans hc'.grows)) hs₂ (List.subset_append_right _ _)) hb'
      rw [← hs.cases, ← hs.reg_eq, ← hs.reg_eq]
      exact ⟨rfl, ((hfe.append (.refl _)).append hfb).append (.refl _), ht⟩

theorem letIn (hv : Lowers mode (.expr v (s.reg 1)) (s.skip 1) [] fv s₁)
    (value : KeepsStep mode (.expr v (s.reg 1)) (s.skip 1) [] fv s₁)
    (body : KeepsStep mode (.expr b dst)
      (s₁.inScope (s.scope.bind x (.register x (s.reg 1)))) [] fb s₂) :
    KeepsStep mode (.expr (.letIn x v b) dst) s [] (fv ++ fb) (s₂.inScope s.scope) := by
  rintro Γ Δ _ s' _ _ _ ⟨hsame, rfl⟩ hs h'
  obtain ⟨y, v', b', rfl, hvsame, hbsame⟩ := Expr.eq_of_nameless_letIn hsame.symm
  cases h' with
  | letIn hv' hb' =>
      have hgrows := (Grows.skip s 1).trans hv.grows
      have hgrows' := (Grows.skip s' 1).trans hv'.grows
      obtain ⟨-, hfv, hs₁⟩ := value (.expr hvsame.symm (hs.reg_eq 1))
        ((hs.skip 1).subset (List.subset_append_left _ _)) hv'
      have hstart := (hs.later hgrows hgrows' hs₁ (List.subset_append_right _ _)).bind
        (y := y) (s.reg 1)
      rw [hgrows.scope, hgrows'.scope] at hstart
      rw [← hs.reg_eq] at hb'
      obtain ⟨-, hfb, hs₂⟩ := body (.expr hbsame.symm rfl) hstart hb'
      exact ⟨rfl, hfv.append hfb, hs₂.inScope _ _⟩

theorem lam {captured : List String} {loads : Code} (hcaptured : captured = captures s.env x e)
    (hb : Lowers mode (.expr e (s.reg 3))
      ((s.enterRoutine.skip 3).inScope (routineScope (s.reg 1) x (s.reg 2) captured)) [] fe s₁)
    (values : RefersAll captured (s₁.inScope s.scope) loads)
    (hs₂ : s₂ = (s₁.inScope s.scope).skip captured.length)
    (body : KeepsStep mode (.expr e (s.reg 3))
      ((s.enterRoutine.skip 3).inScope (routineScope (s.reg 1) x (s.reg 2) captured)) [] fe s₁) :
    KeepsStep mode (.expr (.lam x e) dst) s []
      ⟨loads ++ closureCode (s₂.tagOf "Closure" 1) (.routine s.routines)
          ((s₁.inScope s.scope).regs captured.length) (s₂.reg 1) (s₂.reg 2) dst,
        fe.routines ++ [⟨.routine s.routines,
          routineCode (.routine s.routines) (s.reg 1) (s.reg 2) (s.reg 3) fe.code, captured⟩]⟩
      ((s₂.withTag "Closure" 1).skip 2) := by
  rintro Γ Δ _ s' _ _ _ ⟨hsame, rfl⟩ hs h'
  obtain ⟨y, e', rfl, hesame⟩ := Expr.eq_of_nameless_lam hsame.symm
  cases h' with
  | @lam _ _ _ _ s₁' s₂' fe' captured' loads' hcaptured' hb' values' hs₂' =>
      subst hcaptured hcaptured' hs₂ hs₂'
      obtain ⟨-, hfe, hs₁⟩ := body (.expr hesame.symm (hs.reg_eq 3)) (hs.routine hsame) hb'
      have hgrows : s.Grows (s₁.inScope s.scope) :=
        ((Grows.enterRoutine s).trans (.skip _ 3)).trans (.inScope hb.grows)
      have hgrows' : s'.Grows (s₁'.inScope s'.scope) :=
        ((Grows.enterRoutine s').trans (.skip _ 3)).trans (.inScope hb'.grows)
      have hcaptures := hs.forall₂_captures hsame
      have hfree : captures s.env x e ⊆ (Expr.lam x e).free := fun z hz => (mem_captures.mp hz).1
      have hout := hs.later hgrows hgrows' (hs₁.inScope _ _) hfree
      have hloads := values.code_eq values' hcaptures hout
      have hlength := hcaptures.length_eq
      have hdone := hout.toInStep.skip (captures s.env x e).length
      rw [hlength] at hdone ⊢
      refine ⟨rfl, ⟨?_, ?_⟩, (hdone.withTag _ _).skip 2⟩
      · rw [hloads, hdone.tagOf_eq, hs.routines, hout.regs_eq, hdone.reg_eq, hdone.reg_eq]
      · rw [List.map_append, List.map_append, hfe.routines, List.map_singleton,
          List.map_singleton, hs.routines, hs.reg_eq, hs.reg_eq, hs.reg_eq, hfe.code]

theorem construct {c : String} {n : Nat} (callee : g.callee = .ctor c n)
    (args : KeepsStep mode (.args (.app g a)) (s.withTag c (n + 2)) regs fa s₁) :
    KeepsStep mode (.expr (.app g a) dst) s []
      (fa ++ .ofCode (constructCode (s.tagOf c (n + 2)) regs (s₁.reg 1) (s₁.reg 2) dst))
      (s₁.skip 2) := by
  rintro Γ Δ _ s' _ _ _ ⟨hsame, rfl⟩ hs h'
  obtain ⟨g', a', rfl, hgsame, -⟩ := Expr.eq_of_nameless_app hsame.symm
  obtain ⟨rfl, args', fa', s₁', ha', rfl, rfl⟩ :=
    h'.app_of_ctor (Expr.callee_ctor_of_nameless hgsame.symm callee)
  have hfree := Expr.free_of_callee_ctor (a := a) callee
  obtain ⟨rfl, hfa, hs₁⟩ := args (.args hsame)
    (hs.later (.withTag _ _ _) (.withTag _ _ _) (hs.toInStep.withTag _ _)
      (by rw [Phrase.free, Phrase.free, hfree]; exact List.Subset.refl _)) ha'
  rw [← hs₁.reg_eq, ← hs₁.reg_eq, ← hs.tagOf_eq]
  exact ⟨rfl, hfa.append (.refl _), hs₁.skip 2⟩

theorem print (hx : isPrimitive x = true) (arg : KeepsStep mode (.expr a dst) s [] fa s₁) :
    KeepsStep mode (.expr (.app (.var x) a) dst) s []
      (fa ++ .ofCode (printCode x (s₁.reg 1) dst)) (s₁.skip 1) := by
  rintro Γ Δ _ s' _ _ _ ⟨hsame, rfl⟩ hs h'
  obtain ⟨g', a', rfl, hgsame, hasame⟩ := Expr.eq_of_nameless_app hsame.symm
  obtain ⟨y, rfl, hy⟩ := Expr.eq_of_nameless_var hgsame
  have hxy : SameRef Γ Δ x y := hy.symm
  obtain ⟨rfl, fa', s₁', ha', rfl, rfl⟩ := h'.app_of_primitive (hxy.isPrimitive_eq ▸ hx)
  obtain ⟨-, hfa, hs₁⟩ := arg (.expr hasame.symm rfl)
    (hs.subset (List.subset_append_right _ _)) ha'
  rw [← hxy.eq_of_primitive hx, ← hs₁.reg_eq]
  exact ⟨rfl, hfa.append (.refl _), hs₁.skip 1⟩

theorem callVar {c : Code} (ha : Lowers mode (.expr a (s.reg 2)) (s.skip 2) [] fa s₁)
    (refers : Refers x (s.reg 1) s₁ c)
    (arg : KeepsStep mode (.expr a (s.reg 2)) (s.skip 2) [] fa s₁) :
    KeepsStep mode (.expr (.app (.var x) a) dst) s []
      (fa ++ .ofCode c ++ .ofCode (callCode (s.reg 1) (s.reg 2) (s₁.reg 1) (s₁.reg 2) dst))
      (s₁.skip 2) := by
  rintro Γ Δ _ s' _ _ _ ⟨hsame, rfl⟩ hs h'
  obtain ⟨g', a', rfl, hgsame, hasame⟩ := Expr.eq_of_nameless_app hsame.symm
  obtain ⟨y, rfl, hy⟩ := Expr.eq_of_nameless_var hgsame
  have hxy : SameRef Γ Δ x y := hy.symm
  have hx := refers.not_primitive
  obtain ⟨rfl, fa', c', s₁', ha', refers', rfl, rfl⟩ := h'.app_of_var (hxy.isPrimitive_eq ▸ hx)
  obtain ⟨-, hfa, hs₁⟩ := arg (.expr hasame.symm (hs.reg_eq 2))
    ((hs.skip 2).subset (List.subset_append_right _ _)) ha'
  have hlater := hs.later ((Grows.skip s 2).trans ha.grows)
    ((Grows.skip s' 2).trans ha'.grows) hs₁ (List.Subset.refl _)
  have hplace := hlater.places x (by simp [Expr.free]) hx y hxy
  rw [← hs.reg_eq] at refers'
  rw [hplace.code_eq hlater.closure refers refers', ← hs.reg_eq, ← hs.reg_eq, ← hs₁.reg_eq,
    ← hs₁.reg_eq]
  exact ⟨rfl, (hfa.append (.refl _)).append (.refl _), hs₁.skip 2⟩

theorem call (callee : g.callee = .other)
    (hg : Lowers mode (.expr g (s.reg 1)) (s.skip 2) [] fg s₁)
    (func : KeepsStep mode (.expr g (s.reg 1)) (s.skip 2) [] fg s₁)
    (arg : KeepsStep mode (.expr a (s.reg 2)) s₁ [] fa s₂) :
    KeepsStep mode (.expr (.app g a) dst) s []
      (fg ++ fa ++ .ofCode (callCode (s.reg 1) (s.reg 2) (s₂.reg 1) (s₂.reg 2) dst))
      (s₂.skip 2) := by
  rintro Γ Δ _ s' _ _ _ ⟨hsame, rfl⟩ hs h'
  obtain ⟨g', a', rfl, hgsame, hasame⟩ := Expr.eq_of_nameless_app hsame.symm
  obtain ⟨rfl, fg', fa', s₁', s₂', hg', ha', rfl, rfl⟩ :=
    h'.app_of_other (Expr.callee_other_of_nameless hgsame.symm callee)
  obtain ⟨-, hfg, hs₁⟩ := func (.expr hgsame.symm (hs.reg_eq 1))
    ((hs.skip 2).subset (List.subset_append_left _ _)) hg'
  obtain ⟨-, hfa, hs₂⟩ := arg (.expr hasame.symm (hs.reg_eq 2))
    (hs.later ((Grows.skip s 2).trans hg.grows) ((Grows.skip s' 2).trans hg'.grows) hs₁
      (List.subset_append_right _ _)) ha'
  rw [← hs.reg_eq, ← hs.reg_eq, ← hs₂.reg_eq, ← hs₂.reg_eq]
  exact ⟨rfl, (hfg.append hfa).append (.refl _), hs₂.skip 2⟩

theorem arg {before : Fragment} (hg : Lowers mode (.args g) s regs before s₁)
    (func : KeepsStep mode (.args g) s regs before s₁)
    (last : KeepsStep mode (.expr a (s₁.reg 1)) (s₁.skip 1) [] fa t) :
    KeepsStep mode (.args (.app g a)) s (regs ++ [s₁.reg 1]) (before.prepend fa) t := by
  intro Γ Δ _ s' _ _ _ hph hs h'
  cases hph with
  | args hsame =>
      obtain ⟨g', a', rfl, hgsame, hasame⟩ := Expr.eq_of_nameless_app hsame.symm
      cases h' with
      | head notApp => exact absurd rfl (notApp g' a')
      | arg hg' ha' =>
          have hfree : (Phrase.args (.app g a)).free = (Phrase.args g).free ++ a.free := by
            simp [Expr.spine_app]
          rw [hfree] at hs
          obtain ⟨rfl, hbefore, hs₁⟩ := func (.args hgsame.symm)
            (hs.subset (List.subset_append_left _ _)) hg'
          obtain ⟨-, hfa, ht⟩ := last (.expr hasame.symm (hs₁.reg_eq 1))
            ((hs.later hg.grows hg'.grows hs₁ (List.subset_append_right _ _)).skip 1) ha'
          rw [← hs₁.reg_eq]
          exact ⟨rfl, hbefore.prepend hfa, ht⟩

theorem field {value : Reg} {field : Nat} {params : List String} {f : Fragment}
    (rest : KeepsStep mode (.fields value (field + 1) params e dst)
      ((s.skip 1).inScope (s.scope.bind x (.register x (s.reg 1)))) [] f s₁) :
    KeepsStep mode (.fields value field (x :: params) e dst) s []
      (.ofCode [.load (s.reg 1) value (field : Int)] ++ f) (s₁.inScope s.scope) := by
  intro Γ Δ _ s' _ _ _ hph hs h'
  cases hph with
  | fields count hsame hvalue =>
      cases h' with
      | body _ => simp at count
      | @field _ _ y params' _ _ _ _ f' hf' =>
          have hfree : (Phrase.fields value field (x :: params) e dst).free =
              ((Phrase.fields value (field + 1) params e dst).free).filter (· ≠ x) := by
            simp [List.filter_filter]
          rw [hfree] at hs
          have hstart := (hs.skip 1).bind (y := y) (s.reg 1)
          rw [← hs.reg_eq] at hf'
          obtain ⟨-, hf, hs₁⟩ := rest (.fields (by simpa using count) (by simpa using hsame) hvalue)
            hstart hf'
          rw [← hs.reg_eq, ← hvalue]
          exact ⟨rfl, (Fragment.SameCode.refl _).append hf, hs₁.inScope _ _⟩

theorem branch {id index : Nat} {value : Reg} {c : String} {params : List String}
    {bs : List Branch} {f fs : Fragment} (hf : Lowers mode (.fields value 1 params e dst) s [] f s₁)
    (first : KeepsStep mode (.fields value 1 params e dst) s [] f s₁)
    (rest : KeepsStep mode (.branches id value (index + 1) bs dst) s₁ [] fs t) :
    KeepsStep mode (.branches id value index (.mk c params e :: bs) dst) s []
      (.ofCode [.mark (.branch id index)] ++ f ++ .ofCode [.jump (.caseEnd id)] ++ fs) t := by
  intro Γ Δ _ s' _ _ _ hph hs h'
  cases hph with
  | branches hsame hid hvalue =>
      obtain ⟨params', e', bs', rfl, hn, hesame, hrest⟩ := eq_of_namelessBranches_cons hsame.symm
      cases h' with
      | branch hf' hr' =>
          obtain ⟨-, hff, hs₁⟩ := first (.fields hn.symm hesame.symm hvalue)
            (hs.subset (List.subset_append_left _ _)) hf'
          obtain ⟨-, hfs, ht⟩ := rest (.branches hrest.symm hid hvalue)
            (hs.later hf.grows hf'.grows hs₁ (List.subset_append_right _ _)) hr'
          rw [← hid]
          exact ⟨rfl, (((Fragment.SameCode.refl _).append hff).append (.refl _)).append hfs, ht⟩

end Phrase.KeepsStep

/-- Two phrases that differ only in the names of local variables are lowered to the same
code, if both runs start in step. -/
theorem Lowers.inStep {mode : Dispatch} {ph : Phrase} {s t : LowerState} {regs : List Reg}
    {f : Fragment} (h : Lowers mode ph s regs f t) : ph.KeepsStep mode s regs f t := by
  induction h with
  | @primitive x dst s hx =>
      rintro Γ Δ _ s' _ _ _ ⟨hsame, rfl⟩ hs h'
      obtain ⟨y, rfl, hy⟩ := Expr.eq_of_nameless_var hsame.symm
      have hxy : SameRef Γ Δ x y := hy.symm
      cases h' with
      | primitive _ =>
          rw [← hxy.eq_of_primitive hx, ← hs.reg_eq]
          exact ⟨rfl, .refl _, hs.toInStep.skip 1⟩
      | var refers =>
          have hy := refers.not_primitive
          rw [← hxy.isPrimitive_eq, hx] at hy
          cases hy
  | @var x dst s c refers =>
      rintro Γ Δ _ s' _ _ _ ⟨hsame, rfl⟩ hs h'
      obtain ⟨y, rfl, hy⟩ := Expr.eq_of_nameless_var hsame.symm
      have hxy : SameRef Γ Δ x y := hy.symm
      have hx := refers.not_primitive
      cases h' with
      | primitive hy =>
          rw [← hxy.isPrimitive_eq, hx] at hy
          cases hy
      | var refers' =>
          have hplace := hs.places x (by simp [Expr.free]) hx y hxy
          rw [hplace.code_eq hs.closure refers refers']
          exact ⟨rfl, .refl _, hs.toInStep⟩
  | ctor =>
      rintro Γ Δ _ s' _ _ _ ⟨hsame, rfl⟩ hs h'
      obtain rfl := Expr.eq_of_nameless_ctor hsame.symm
      cases h'
      rw [← hs.reg_eq, ← hs.reg_eq, ← hs.tagOf_eq]
      exact ⟨rfl, .refl _, (hs.toInStep.withTag _ _).skip 2⟩
  | num =>
      rintro Γ Δ _ s' _ _ _ ⟨hsame, rfl⟩ hs h'
      obtain rfl := Expr.eq_of_nameless_num hsame.symm
      cases h'
      rw [← hs.reg_eq, ← hs.reg_eq, ← hs.tagOf_eq]
      exact ⟨rfl, .refl _, (hs.toInStep.withTag _ _).skip 2⟩
  | char =>
      rintro Γ Δ _ s' _ _ _ ⟨hsame, rfl⟩ hs h'
      obtain rfl := Expr.eq_of_nameless_char hsame.symm
      cases h'
      rw [← hs.reg_eq, ← hs.reg_eq, ← hs.tagOf_eq]
      exact ⟨rfl, .refl _, (hs.toInStep.withTag _ _).skip 2⟩
  | caseOf he hc _ scrutinee branches => exact .caseOf he hc scrutinee branches
  | letIn hv _ value body => exact .letIn hv value body
  | lam hcaptured hb values hs₂ body => exact .lam hcaptured hb values hs₂ body
  | construct callee _ args => exact .construct callee args
  | print hx _ arg => exact .print hx arg
  | callVar ha refers arg => exact .callVar ha refers arg
  | call callee hg _ func arg => exact .call callee hg func arg
  | head notApp =>
      intro Γ Δ _ s' _ _ _ hph hs h'
      cases hph with
      | args hsame =>
          cases h' with
          | head _ => exact ⟨rfl, .refl _, hs.toInStep⟩
          | arg _ _ =>
              obtain ⟨g, a, rfl, -⟩ := Expr.eq_of_nameless_app hsame
              exact absurd rfl (notApp g a)
  | arg hg _ func last => exact .arg hg func last
  | body _ ih =>
      intro Γ Δ _ s' _ _ _ hph hs h'
      cases hph with
      | fields count hsame hvalue =>
          obtain rfl := List.length_eq_zero_iff.mp count.symm
          cases h' with
          | body hb' => exact ih (.expr hsame rfl) (hs.subset (by simp)) hb'
  | field _ rest => exact .field rest
  | noBranch =>
      intro Γ Δ _ s' _ _ _ hph hs h'
      cases hph with
      | branches hsame hid hvalue =>
          cases h' with
          | noBranch => exact ⟨rfl, .refl _, hs.toInStep⟩
          | branch _ _ => simp [namelessBranches] at hsame
  | branch hf _ first rest => exact .branch hf first rest

theorem Program.AlphaEquiv.eq_cons {d : Def} {rest q : Program}
    (h : Program.AlphaEquiv (d :: rest) q) :
    ∃ d' rest', q = d' :: rest' ∧ d.name = d'.name ∧ d.body.nameless [] = d'.body.nameless [] ∧
      rest.AlphaEquiv rest' := by
  obtain ⟨d', rest', rfl, hd, hrest⟩ := List.map_eq_cons_iff.mp h.symm
  obtain ⟨hname, hbody⟩ := Prod.mk.inj hd
  exact ⟨d', rest', rfl, hname.symm, hbody.symm, hrest.symm⟩

theorem LowersDefs.inStep {mode : Dispatch} {p q : Program} {s s' t t' : LowerState}
    {fs gs : List Fragment} (h : LowersDefs mode p s fs t) (h' : LowersDefs mode q s' gs t')
    (hpq : p.AlphaEquiv q) (hs : s.Alike [] [] (p.flatMap fun d => d.body.free) s') :
    List.Forall₂ Fragment.SameCode fs gs ∧ t.InStep t' := by
  induction h generalizing q s' t' gs with
  | nil s =>
      obtain rfl : q = [] := List.map_eq_nil_iff.mp hpq.symm
      cases h'
      exact ⟨.nil, hs.toInStep⟩
  | @cons d rest s s₁ t f fs body _ ih =>
      obtain ⟨d', rest', rfl, hname, hbody, hrest⟩ := hpq.eq_cons
      cases h' with
      | cons body' others' =>
          obtain ⟨-, hf, hs₁⟩ := body.inStep (.expr hbody (hs.reg_eq 1))
            ((hs.skip 1).subset (List.subset_append_left _ _)) body'
          obtain ⟨hfs, ht⟩ := ih others' hrest (hs.later ((Grows.skip s 1).trans body.grows)
            ((Grows.skip s' 1).trans body'.grows) hs₁ (List.subset_append_right _ _))
          refine ⟨.cons ?_ hfs, ht⟩
          rw [Def.fragment, Def.fragment, hname, hs.reg_eq]
          exact ((Fragment.SameCode.refl _).append hf).append (.refl _)

/-- With only globals in scope, two states are alike for names that both declare. -/
theorem LowerState.alike_declared {names names' free : List String}
    (h : ∀ x ∈ free, isPrimitive x = false → x ∈ names ∧ x ∈ names') :
    (declared names).Alike [] [] free (declared names') where
  next := rfl
  tags := rfl
  cases := rfl
  routines := rfl
  closure := rfl
  places x hx hp y hxy := by
    obtain rfl := sameRef_nil_iff.mp hxy
    exact .global rfl rfl rfl (mem_globals_declared.mpr (h x hx hp).1)
      (mem_globals_declared.mpr (h x hx hp).2)

/-- The free names of a well-scoped program are those of its definitions. -/
theorem Program.WellScoped.mem_names {p : Program} (hp : p.WellScoped) :
    ∀ x ∈ p.flatMap (fun d => d.body.free), isPrimitive x = false → x ∈ p.map Def.name := by
  intro x hx hprimitive
  obtain ⟨d, hd, hx⟩ := List.mem_flatMap.mp hx
  simpa [hprimitive] using (Expr.scoped_iff.mp (hp.bodies d hd)).2 x hx

theorem Fragment.SameCode.map_eq {fs gs : List Fragment}
    (h : List.Forall₂ Fragment.SameCode fs gs) :
    (fs.flatMap Fragment.routines).map Routine.code =
        (gs.flatMap Fragment.routines).map Routine.code ∧
      fs.map Fragment.code = gs.map Fragment.code := by
  induction h with
  | nil => exact ⟨rfl, rfl⟩
  | cons hf _ ih =>
      simp only [List.flatMap_cons, List.map_append, List.map_cons]
      rw [hf.routines, hf.code, ih.1, ih.2]
      exact ⟨rfl, rfl⟩

end Lowering
