import Lowering.Expr.Parts
import Lowering.Proofs.ProgramRules

/-!
# Accepted programs are the well-scoped ones

Lowering succeeds exactly when every part of an expression has a meaning and every free
name is known: it is a primitive, it is local, or it is declared. Inside of a lambda an
unknown name is taken for a captured one; it is found out where the closure is built,
since `captures` collects every name that the routine could not find otherwise.

`Lowers.knows_free` is one direction, by induction on the rules. The other follows the
failures of the function (`Expr.fault_of_lower`).
-/

namespace Lowering

open LowerM

namespace LowerState

/-- A name is a primitive, local or declared. -/
def Knows (s : LowerState) (x : String) : Prop :=
  isPrimitive x = true ∨ s.scope.lookup? x ≠ none ∨ x ∈ s.globals

theorem Grows.knows_iff {s t : LowerState} (h : s.Grows t) {x : String} :
    t.Knows x ↔ s.Knows x := by
  rw [Knows, Knows, h.scope, h.globals]

theorem knows_inScope_iff {s t : LowerState} (h : t.globals = s.globals) {x : String} :
    (t.inScope s.scope).Knows x ↔ s.Knows x := by
  rw [Knows, Knows, globals_inScope, h]
  rfl

theorem knows_bind_iff {s : LowerState} {c : Scope} {x y : String} {b : Binding} :
    (s.inScope (c.bind x b)).Knows y ↔ y = x ∨ (s.inScope c).Knows y := by
  by_cases hy : y = x
  · subst hy
    simp [Knows]
  · simp [Knows, hy, Scope.lookup?_bind_of_ne]

theorem knows_routineScope_iff {s : LowerState} {closure arg : Reg} {param : String}
    {captured : List String} (h : captured.Nodup) {y : String} :
    (s.inScope (routineScope closure param arg captured)).Knows y ↔
      isPrimitive y = true ∨ y ∈ captured ∨ y = param ∨ y ∈ s.globals := by
  rw [Knows, scope_inScope, globals_inScope, lookup?_routineScope h]
  split_ifs <;> simp_all

end LowerState

theorem Refers.knows {x : String} {dst : Reg} {s : LowerState} {c : Code}
    (h : Refers x dst s c) : s.Knows x := by
  cases h with
  | register _ found => exact .inr (.inl (by simp [found]))
  | enclosed _ found _ => exact .inr (.inl (by simp [found]))
  | global _ _ declared => exact .inr (.inr declared)

theorem RefersAll.knows {xs : List String} {s : LowerState} {c : Code} (h : RefersAll xs s c) :
    ∀ x ∈ xs, s.Knows x := by
  induction h with
  | nil => simp
  | cons head _ ih =>
      intro x hx
      rcases List.mem_cons.mp hx with rfl | hx
      · exact head.knows
      · exact ih x hx

/-- The free names of a phrase. -/
@[simp] def Phrase.free : Phrase → List String
  | .expr e _ => e.free
  | .args chain => chain.spine.2.flatMap Expr.free
  | .fields _ _ params body _ => body.free.filter (· ∉ params)
  | .branches _ _ _ bs _ => freeInBranches bs

theorem Expr.free_of_callee_ctor {f a : Expr} {c : String} {n : Nat} (h : f.callee = .ctor c n) :
    (Expr.app f a).free = (Expr.app f a).spine.2.flatMap Expr.free := by
  have hspine := collected_eq_spine (g := Expr.free) (fun _ _ => rfl) (.app f a)
  rw [← hspine, spine_app, (spine_of_callee_ctor h).1]
  rfl

theorem Expr.holes_of_callee_ctor {f a : Expr} {c : String} {n : Nat}
    (h : f.callee = .ctor c n) :
    (Expr.app f a).holes = (Expr.app f a).spine.2.flatMap Expr.holes := by
  have hspine := collected_eq_spine (g := Expr.holes) (fun _ _ => rfl) (.app f a)
  rw [← hspine, spine_app, (spine_of_callee_ctor h).1]
  rfl

theorem Lowers.holes_eq_nil {mode : Dispatch} {ph : Phrase} {s t : LowerState} {regs : List Reg}
    {f : Fragment} (h : Lowers mode ph s regs f t) : ph.parts.flatMap Expr.holes = [] := by
  induction h with
  | primitive _ => rfl
  | var _ => rfl
  | ctor => rfl
  | num => rfl
  | char => rfl
  | caseOf _ _ _ scrutinee branches =>
      simp [Expr.holes, holesInBranches_eq] at *
      exact ⟨scrutinee, branches⟩
  | letIn _ _ value body => simp_all [Expr.holes]
  | lam _ _ _ _ body => simpa [Expr.holes] using body
  | construct callee _ args => simpa [Expr.holes_of_callee_ctor callee] using args
  | print _ _ arg => simpa [Expr.holes] using arg
  | callVar _ _ arg => simpa [Expr.holes] using arg
  | call _ _ _ func arg => simp_all [Expr.holes]
  | head notApp => simp [Expr.spine_of_not_app notApp]
  | arg _ _ func last => simp_all [Expr.spine_app]
  | body _ ih => exact ih
  | field _ ih => exact ih
  | noBranch => rfl
  | branch _ _ first rest => simp_all [Branch.body]

/-- Whatever is lowered only refers to known names. -/
theorem Lowers.knows_free {mode : Dispatch} {ph : Phrase} {s t : LowerState} {regs : List Reg}
    {f : Fragment} (h : Lowers mode ph s regs f t) : ∀ x ∈ ph.free, s.Knows x := by
  induction h with
  | primitive isPrimitive =>
      rintro x hx
      rw [List.mem_singleton.mp hx]
      exact .inl isPrimitive
  | var refers =>
      rintro x hx
      rw [List.mem_singleton.mp hx]
      exact refers.knows
  | ctor => simp [Expr.free]
  | num => simp [Expr.free]
  | char => simp [Expr.free]
  | caseOf he compares _ scrutinee branches =>
      intro x hx
      rcases List.mem_append.mp hx with hx | hx
      · exact scrutinee x hx
      · exact (he.grows.trans compares.grows).knows_iff.mp (branches x hx)
  | letIn hv _ value body =>
      intro x hx
      rcases List.mem_append.mp hx with hx | hx
      · exact value x hx
      · obtain ⟨hx, hne⟩ := List.mem_filter.mp hx
        rcases LowerState.knows_bind_iff.mp (body x hx) with rfl | hknows
        · simp at hne
        · exact (LowerState.knows_inScope_iff hv.grows.globals).mp hknows
  | @lam y e _ s s₁ _ _ captured _ hcaptured hbody values _ body =>
      intro x hx
      have hknows : ∀ x ∈ captured, s.Knows x := fun x hx =>
        (LowerState.knows_inScope_iff (s := s) hbody.grows.globals).mp (values.knows x hx)
      obtain ⟨hx, hne⟩ := List.mem_filter.mp hx
      have hnodup : captured.Nodup := hcaptured ▸ nodup_captures _ _ _
      rcases (LowerState.knows_routineScope_iff hnodup).mp (body x hx) with hp | hc | rfl | hg
      · exact .inl hp
      · exact hknows x hc
      · simp at hne
      · exact .inr (.inr hg)
  | construct callee _ args =>
      intro x hx
      rw [Phrase.free, Expr.free_of_callee_ctor callee] at hx
      exact args x hx
  | print isPrimitive _ arg =>
      intro x hx
      rcases List.mem_cons.mp hx with rfl | hx
      · exact .inl isPrimitive
      · exact arg x hx
  | callVar ha refers arg =>
      intro x hx
      rcases List.mem_cons.mp hx with rfl | hx
      · exact ha.grows.knows_iff.mp refers.knows
      · exact arg x hx
  | call _ hf _ func arg =>
      intro x hx
      rcases List.mem_append.mp hx with hx | hx
      · exact func x hx
      · exact hf.grows.knows_iff.mp (arg x hx)
  | head notApp => simp [Expr.spine_of_not_app notApp]
  | arg hf _ func last =>
      intro x hx
      simp only [Phrase.free, Expr.spine_app, List.flatMap_append, List.flatMap_singleton,
        List.mem_append] at hx
      rcases hx with hx | hx
      · exact func x hx
      · exact hf.grows.knows_iff.mp (last x hx)
  | body _ ih => simpa using ih
  | field _ ih =>
      intro x hx
      obtain ⟨hx, hne⟩ := List.mem_filter.mp hx
      simp only [List.mem_cons, not_or, decide_eq_true_eq] at hne
      have hknows := ih x (List.mem_filter.mpr ⟨hx, by simpa using hne.2⟩)
      exact (LowerState.knows_bind_iff.mp hknows).resolve_left hne.1
  | noBranch => simp [freeInBranches]
  | branch hf _ first rest =>
      intro x hx
      rcases List.mem_append.mp hx with hx | hx
      · exact first x hx
      · exact hf.grows.knows_iff.mp (rest x hx)

/-- What may be wrong with a phrase that has these holes and free names. -/
inductive Fault (knows : String → Prop) (holes free : List String) : LowerError → Prop where
  | unsupported {kind : String} (hole : kind ∈ holes) : Fault knows holes free (.unsupported kind)
  | unbound {x : String} (occurs : x ∈ free) (unknown : ¬ knows x) :
      Fault knows holes free (.unbound x)

theorem Fault.mono {knows knows' : String → Prop} {holes free holes' free' : List String}
    {cause : LowerError} (h : Fault knows holes free cause) (hholes : holes ⊆ holes')
    (hfree : ∀ x ∈ free, ¬ knows x → x ∈ free' ∧ ¬ knows' x) :
    Fault knows' holes' free' cause := by
  cases h with
  | unsupported hole => exact .unsupported (hholes hole)
  | unbound occurs unknown =>
      obtain ⟨hmem, hunknown⟩ := hfree _ occurs unknown
      exact .unbound hmem hunknown

/-- Where a name is in the closure, a closure is running. -/
def Scope.Running (c : Scope) : Prop :=
  ∀ x n i, c.lookup? x = some (.enclosed n i) → c.closure ≠ none

theorem Scope.Running.bind {c : Scope} (h : c.Running) (x : String) (r : Reg) :
    (c.bind x (.register x r)).Running := by
  intro y n i hy
  by_cases hne : y = x
  · subst hne
    simp at hy
  · rw [lookup?_bind_of_ne c hne] at hy
    exact h y n i hy

theorem running_routineScope (closure arg : Reg) (param : String) (captured : List String) :
    (routineScope closure param arg captured).Running := by
  intro y n i _
  simp

theorem unbound_of_lowerVar {x : String} {dst : Reg} {s t : LowerState} {f : LowerFailure}
    (h : lowerVar x dst s = .error f t) (hs : s.scope.Running) :
    f.cause = .unbound x ∧ ¬ s.Knows x := by
  cases hx : isPrimitive x with
  | true =>
      rw [lowerVar_of_primitive hx] at h
      cases h
  | false =>
      rw [lowerVar_of_not_primitive hx] at h
      split at h
      · cases h
      · rename_i hfound
        split at h
        · cases h
        · rename_i hclosure
          exact absurd hclosure (hs _ _ _ hfound)
      · rename_i hlocal
        split at h
        · cases h
        · rename_i hglobal
          cases h
          exact ⟨rfl, by simp [LowerState.Knows, hx, hlocal, hglobal]⟩

theorem unbound_of_lowerCaptures {xs : List String} {s t : LowerState} {f : LowerFailure}
    (h : lowerCaptures xs s = .error f t) (hs : s.scope.Running)
    (hxs : ∀ x ∈ xs, isPrimitive x = false) : ∃ x ∈ xs, f.cause = .unbound x ∧ ¬ s.Knows x := by
  induction xs generalizing s t f with
  | nil => cases h
  | cons x xs ih =>
      simp only [lowerCaptures, fresh_bind, bind_eq_error] at h
      rcases h with h | ⟨g, s₁, hx, h | ⟨⟨regs, g'⟩, s₂, -, h⟩⟩
      · obtain ⟨hcause, hunknown⟩ := unbound_of_lowerVar h hs
        exact ⟨x, by simp, hcause, hunknown⟩
      · obtain ⟨hp, -⟩ | ⟨c, -, -, rfl⟩ := lowerVar_eq_ok_iff.mp hx
        · simp [hxs x (by simp)] at hp
        obtain ⟨y, hy, hcause, hunknown⟩ := ih h hs fun y hy => hxs y (by simp [hy])
        exact ⟨y, by simp [hy], hcause, hunknown⟩
      · cases h

theorem lowerComparisons_ne_error {mode : Dispatch} {id : Nat} {tagReg wanted : Reg}
    {index : Nat} {bs : List Branch} {s t : LowerState} {f : LowerFailure} :
    lowerComparisons mode id tagReg wanted index bs s ≠ .error f t := by
  induction bs generalizing index s with
  | nil => simp [lowerComparisons, pure, EStateM.pure]
  | cons b bs ih =>
      intro h
      simp only [lowerComparisons, bind_eq_error, branchNumber_eq] at h
      rcases h with h | ⟨_, _, ⟨⟩, h | ⟨cs, s₁, -, h⟩⟩
      · cases h
      · exact ih h
      · cases h

theorem fault_of_withFields {mode : Dispatch} {value : Reg} {field : Nat} {params : List String}
    {e : Expr} {dst : Reg} {s t : LowerState} {f : LowerFailure}
    (hbody : ∀ {s t f}, e.lower mode dst s = .error f t → s.scope.Running →
      Fault s.Knows e.holes e.free f.cause)
    (h : withFields value field params (e.lower mode dst) s = .error f t)
    (hs : s.scope.Running) :
    Fault s.Knows e.holes (e.free.filter (· ∉ params)) f.cause := by
  induction params generalizing field s t f with
  | nil => simpa using hbody h hs
  | cons x params ih =>
      simp only [withFields, fresh_bind, bind_eq_error] at h
      rcases h with h | ⟨g, s₁, -, h⟩
      · obtain ⟨s₁, h⟩ := withLocal_eq_error h
        refine (ih h (hs.bind x _)).mono (List.Subset.refl _) ?_
        intro y hy hunknown
        rw [LowerState.knows_bind_iff, not_or] at hunknown
        simp only [List.mem_filter, decide_eq_true_eq, List.mem_cons, not_or] at hy ⊢
        exact ⟨⟨hy.1, hunknown.1, hy.2⟩, hunknown.2⟩
      · cases h

/-- What is wrong with a part is wrong with the whole. -/
theorem Fault.part {knows knows' : String → Prop} {holes free holes' free' : List String}
    {cause : LowerError} (h : Fault knows' holes free cause) (hknows : ∀ x, knows' x ↔ knows x)
    (hholes : holes ⊆ holes') (hfree : free ⊆ free') : Fault knows holes' free' cause :=
  h.mono hholes fun x hx hunknown => ⟨hfree hx, hunknown ∘ (hknows x).mpr⟩

mutual

/-- A failure names a hole or an unknown name of the expression. -/
theorem Expr.fault_of_lower {mode : Dispatch} {dst : Reg} {s t : LowerState} {f : LowerFailure} :
    ∀ {e : Expr}, e.lower mode dst s = .error f t → s.scope.Running →
      Fault s.Knows e.holes e.free f.cause
  | .var x, h, hs => by
      obtain ⟨hcause, hunknown⟩ := unbound_of_lowerVar h hs
      rw [hcause]
      exact .unbound (by simp [Expr.free]) hunknown
  | .ctor c, h, _ => by cases h
  | .num n, h, _ => by cases h
  | .char n, h, _ => by cases h
  | .caseOf e bs, h, hs => by
      simp only [Expr.lower, fresh_bind, newCase_bind, bind_eq_error, within_eq_error,
        within_eq_ok] at h
      rcases h with ⟨g, h, rfl⟩ | ⟨fe, s₁, he, h | ⟨tests, s₂, hc, h | ⟨_, _, _, h⟩⟩⟩
      · exact (Expr.fault_of_lower h hs).part (fun _ => .rfl) (List.subset_append_left _ _)
          (List.subset_append_left _ _)
      · exact absurd h lowerComparisons_ne_error
      · have hgrows := (Expr.lowers_of_lower he).grows.trans (lowerComparisons_eq_ok hc).grows
        exact (fault_of_lowerBranches h (hgrows.scope ▸ hs)).part (fun _ => hgrows.knows_iff)
          (List.subset_append_right _ _) (List.subset_append_right _ _)
      · cases h
  | .letIn x v b, h, hs => by
      simp only [Expr.lower, fresh_bind, bind_eq_error, within_eq_error, within_eq_ok] at h
      rcases h with ⟨g, h, rfl⟩ | ⟨fv, s₁, hv, h | ⟨_, _, _, h⟩⟩
      · exact (Expr.fault_of_lower h hs).part (fun _ => .rfl) (List.subset_append_left _ _)
          (List.subset_append_left _ _)
      · obtain ⟨s₂, h⟩ := withLocal_eq_error h
        obtain ⟨g, hb, rfl⟩ := within_eq_error.mp h
        have hgrows := (Expr.lowers_of_lower hv).grows
        have hrunning : s₁.scope.Running := hgrows.scope ▸ hs
        refine (Expr.fault_of_lower hb (hrunning.bind x _)).mono (List.subset_append_right _ _) ?_
        intro y hy hunknown
        rw [LowerState.knows_bind_iff, not_or] at hunknown
        exact ⟨List.mem_append_right _ (by simp [hy, hunknown.1]),
          hunknown.2 ∘ hgrows.knows_iff.mpr⟩
      · cases h
  | .lam x e, h, hs => by
      simp only [Expr.lower, newRoutine_bind, env_bind, fresh_bind, bind_eq_error, within_eq_error,
        within_eq_ok, inScope_eq_ok, lowerClosure_eq] at h
      rcases h with ⟨g, h, rfl⟩ | ⟨fe, _, ⟨s₁, he, rfl⟩, ⟨g, h, rfl⟩ | ⟨_, s₂, _, h | ⟨_, _, _, h⟩⟩⟩
      · obtain ⟨s₂, h⟩ := inScope_eq_error h
        refine (Expr.fault_of_lower h (running_routineScope _ _ _ _)).mono (List.Subset.refl _) ?_
        -- An unknown name would have been captured, so the routine itself knows all names.
        intro y hy hunknown
        rw [LowerState.knows_routineScope_iff (nodup_captures _ _ _)] at hunknown
        simp only [not_or, Bool.not_eq_true] at hunknown
        obtain ⟨hprimitive, hcaptured, hparam, hglobal⟩ := hunknown
        have hmem : y ∈ captures s.enterRoutine.env x e :=
          mem_captures.mpr ⟨by simp [Expr.free, hy, hparam], hprimitive, fun _ => hglobal⟩
        exact absurd hmem hcaptured
      · obtain ⟨y, hy, hcause, hunknown⟩ := unbound_of_lowerCaptures h hs fun y hy =>
          not_primitive_of_mem_captures hy
        have hgrows := (Expr.lowers_of_lower he).grows
        change g.cause = _ at hcause
        rw [Failure.inside, hcause]
        exact .unbound (mem_captures.mp hy).1 (hunknown ∘
          (LowerState.knows_inScope_iff (s := s) hgrows.globals).mpr)
      · cases h
      · cases h
  | .app g a, h, hs => by
      cases hcallee : g.callee with
      | ctor c n =>
          simp only [Expr.lower, hcallee, tag_bind, fresh_bind, bind_eq_error, within_eq_error,
            lowerConstruct_eq] at h
          rcases h with h | ⟨⟨regs, before⟩, s₁, hg, ⟨k, h, rfl⟩ | ⟨_, _, _, h | ⟨_, _, _, h⟩⟩⟩
          · exact (Expr.fault_of_lowerArgs h hs).part (fun _ => .rfl)
              (List.subset_append_left _ _) (List.subset_append_left _ _)
          · have hgrows := (Expr.lowers_of_lowerArgs hg).grows
            exact (Expr.fault_of_lower h (hgrows.scope ▸ hs)).part (fun _ => hgrows.knows_iff)
              (List.subset_append_right _ _) (List.subset_append_right _ _)
          · cases h
          · cases h
      | primitive x =>
          obtain ⟨rfl, hx⟩ := Expr.eq_of_callee_primitive hcallee
          simp only [Expr.lower, hcallee, bind_eq_error, within_eq_error,
            lowerVar_of_primitive hx] at h
          rcases h with ⟨k, h, rfl⟩ | ⟨_, _, _, h | ⟨_, _, _, h⟩⟩
          · exact (Expr.fault_of_lower h hs).part (fun _ => .rfl)
              (List.subset_append_right _ _) (List.subset_append_right _ _)
          · cases h
          · cases h
      | var x =>
          obtain ⟨rfl, -⟩ := Expr.eq_of_callee_var hcallee
          simp only [Expr.lower, hcallee, fresh_bind, bind_eq_error, within_eq_error, within_eq_ok,
            lowerCall_eq] at h
          rcases h with ⟨k, h, rfl⟩ | ⟨fa, s₁, ha, h | ⟨_, _, _, h | ⟨_, _, _, h⟩⟩⟩
          · exact (Expr.fault_of_lower h hs).part (fun _ => .rfl)
              (List.subset_append_right _ _) (List.subset_append_right _ _)
          · have hgrows := (Expr.lowers_of_lower ha).grows
            obtain ⟨hcause, hunknown⟩ := unbound_of_lowerVar h (hgrows.scope ▸ hs)
            rw [hcause]
            exact .unbound (by simp [Expr.free]) (hunknown ∘ hgrows.knows_iff.mpr)
          · cases h
          · cases h
      | other =>
          simp only [Expr.lower, hcallee, fresh_bind, bind_eq_error, within_eq_error, within_eq_ok,
            lowerCall_eq] at h
          rcases h with ⟨k, h, rfl⟩ | ⟨ff, s₁, hf, ⟨k, h, rfl⟩ | ⟨_, _, _, h | ⟨_, _, _, h⟩⟩⟩
          · exact (Expr.fault_of_lower h hs).part (fun _ => .rfl)
              (List.subset_append_left _ _) (List.subset_append_left _ _)
          · have hgrows := (Expr.lowers_of_lower hf).grows
            exact (Expr.fault_of_lower h (hgrows.scope ▸ hs)).part (fun _ => hgrows.knows_iff)
              (List.subset_append_right _ _) (List.subset_append_right _ _)
          · cases h
          · cases h
  | .missing, h, _ => by
      cases h
      exact .unsupported (by simp [Expr.holes])
  | .foreign kind, h, _ => by
      cases h
      exact .unsupported (by simp [Expr.holes])

theorem Expr.fault_of_lowerArgs {mode : Dispatch} {c : String} {s t : LowerState}
    {f : LowerFailure} :
    ∀ {e : Expr}, e.lowerArgs mode c s = .error f t → s.scope.Running →
      Fault s.Knows e.holes e.free f.cause
  | .app g a, h, hs => by
      simp only [Expr.lowerArgs, fresh_bind, bind_eq_error, within_eq_error] at h
      rcases h with h | ⟨⟨regs, before⟩, s₁, hg, ⟨k, h, rfl⟩ | ⟨_, _, _, h⟩⟩
      · exact (Expr.fault_of_lowerArgs h hs).part (fun _ => .rfl) (List.subset_append_left _ _)
          (List.subset_append_left _ _)
      · have hgrows := (Expr.lowers_of_lowerArgs hg).grows
        exact (Expr.fault_of_lower h (hgrows.scope ▸ hs)).part (fun _ => hgrows.knows_iff)
          (List.subset_append_right _ _) (List.subset_append_right _ _)
      · cases h
  | .var x, h, _ => by cases h
  | .ctor c, h, _ => by cases h
  | .num n, h, _ => by cases h
  | .char n, h, _ => by cases h
  | .caseOf e bs, h, _ => by cases h
  | .letIn x v b, h, _ => by cases h
  | .lam x e, h, _ => by cases h
  | .missing, h, _ => by cases h
  | .foreign kind, h, _ => by cases h

theorem fault_of_lowerBranches {mode : Dispatch} {id : Nat} {value : Reg} {index : Nat}
    {dst : Reg} {s t : LowerState} {f : LowerFailure} :
    ∀ {bs : List Branch}, lowerBranches mode id value index bs dst s = .error f t →
      s.scope.Running → Fault s.Knows (holesInBranches bs) (freeInBranches bs) f.cause
  | [], h, _ => by cases h
  | .mk c params e :: bs, h, hs => by
      simp only [lowerBranches, bind_eq_error, within_eq_error, within_eq_ok] at h
      rcases h with ⟨g, h, rfl⟩ | ⟨fe, s₁, he, h | ⟨_, _, _, h⟩⟩
      · exact (fault_of_withFields Expr.fault_of_lower h hs).part (fun _ => .rfl)
          (List.subset_append_left _ _) (List.subset_append_left _ _)
      · have hgrows := (lowers_of_withFields Expr.lowers_of_lower he).grows
        exact (fault_of_lowerBranches h (hgrows.scope ▸ hs)).part (fun _ => hgrows.knows_iff)
          (List.subset_append_right _ _) (List.subset_append_right _ _)
      · cases h

end

mutual

/-- An expression is scoped when it has no holes and its free names have a meaning. -/
theorem Expr.scoped_iff {globals : List String} :
    ∀ {e : Expr} {bound : List String}, e.Scoped globals bound ↔
      e.holes = [] ∧ ∀ x ∈ e.free, isPrimitive x = true ∨ x ∈ bound ∨ x ∈ globals
  | .var x, bound => by simp [Expr.Scoped, Expr.holes, Expr.free]
  | .ctor _, _ => by simp [Expr.Scoped, Expr.holes, Expr.free]
  | .num _, _ => by simp [Expr.Scoped, Expr.holes, Expr.free]
  | .char _, _ => by simp [Expr.Scoped, Expr.holes, Expr.free]
  | .caseOf e bs, bound => by
      rw [Expr.Scoped, e.scoped_iff, branchesScoped_iff]
      simp only [Expr.holes, Expr.free, List.append_eq_nil_iff, List.mem_append, or_imp,
        forall_and]
      tauto
  | .letIn x v b, bound => by
      rw [Expr.Scoped, v.scoped_iff, b.scoped_iff]
      simp only [Expr.holes, Expr.free, List.append_eq_nil_iff, List.mem_append, or_imp,
        forall_and, List.mem_filter, decide_eq_true_eq, List.mem_cons]
      grind
  | .lam x b, bound => by
      rw [Expr.Scoped, b.scoped_iff]
      simp only [Expr.holes, Expr.free, List.mem_filter, decide_eq_true_eq, List.mem_cons]
      grind
  | .app f a, bound => by
      rw [Expr.Scoped, f.scoped_iff, a.scoped_iff]
      simp only [Expr.holes, Expr.free, List.append_eq_nil_iff, List.mem_append, or_imp,
        forall_and]
      tauto
  | .missing, _ => by simp [Expr.Scoped, Expr.holes]
  | .foreign _, _ => by simp [Expr.Scoped, Expr.holes]

theorem branchesScoped_iff {globals : List String} :
    ∀ {bs : List Branch} {bound : List String}, BranchesScoped globals bound bs ↔
      holesInBranches bs = [] ∧
        ∀ x ∈ freeInBranches bs, isPrimitive x = true ∨ x ∈ bound ∨ x ∈ globals
  | [], _ => by simp [BranchesScoped, holesInBranches, freeInBranches]
  | .mk c params e :: bs, bound => by
      rw [BranchesScoped, e.scoped_iff, branchesScoped_iff]
      simp only [holesInBranches, freeInBranches, List.append_eq_nil_iff, List.mem_append, or_imp,
        forall_and, List.mem_filter, decide_eq_true_eq]
      grind

end

theorem LowerState.knows_declared_iff {names : List String} {s : LowerState}
    (h : (declared names).Grows s) {x : String} :
    s.Knows x ↔ isPrimitive x = true ∨ x ∈ names := by
  rw [h.knows_iff, Knows, mem_globals_declared]
  simp [Scope.lookup?]

/-- What lowering knows of a definition is what its scope says. -/
theorem Expr.scoped_iff_knows {names : List String} {s : LowerState}
    (h : (LowerState.declared names).Grows s) {e : Expr} :
    e.Scoped names [] ↔ e.holes = [] ∧ ∀ x ∈ e.free, s.Knows x := by
  simp [scoped_iff, LowerState.knows_declared_iff h]

namespace Program

theorem scoped_of_lowersDefs {mode : Dispatch} {names : List String} {p : Program}
    {s t : LowerState} {fs : List Fragment} (h : LowersDefs mode p s fs t)
    (hs : (LowerState.declared names).Grows s) : ∀ d ∈ p, d.body.Scoped names [] := by
  induction h with
  | nil => simp
  | cons body _ ih =>
      intro d hd
      rcases List.mem_cons.mp hd with rfl | hd
      · have hholes := body.holes_eq_nil
        have hknows := body.knows_free
        exact (Expr.scoped_iff_knows hs).mpr ⟨by simpa using hholes, hknows⟩
      · exact ih ((hs.trans (.skip _ 1)).trans body.grows) d hd

/-- The first definition that cannot be lowered is named, with what is wrong with it. -/
theorem fault_of_lowerDefs {mode : Dispatch} {names : List String} {p : Program}
    {s t : LowerState} {f : LowerFailure} (h : p.lowerDefs mode s = .error f t)
    (hs : (LowerState.declared names).Grows s) :
    ∃ d ∈ p, f.path.head? = some (.definition d.name) ∧
      Fault (fun x => isPrimitive x = true ∨ x ∈ names) d.body.holes d.body.free f.cause := by
  have hrunning (s : LowerState) (hs : (LowerState.declared names).Grows s) :
      s.scope.Running := by
    rw [hs.scope]
    intro x n i hfound
    simp [Scope.lookup?] at hfound
  induction p generalizing s t f with
  | nil => cases h
  | cons d rest ih =>
      simp only [lowerDefs, Def.lower, fresh_bind, bind_eq_error, within_eq_error, bind_eq_ok,
        within_eq_ok] at h
      rcases h with ⟨g, h | ⟨_, _, _, h⟩, rfl⟩ | ⟨_, _, ⟨fb, s₁, hb, ⟨⟩⟩, h | ⟨_, _, _, h⟩⟩
      · refine ⟨d, by simp, rfl, ?_⟩
        exact (Expr.fault_of_lower h (hrunning s hs)).part
          (fun _ => LowerState.knows_declared_iff hs) (List.Subset.refl _) (List.Subset.refl _)
      · cases h
      · have hgrows := (hs.trans (.skip _ 1)).trans (Expr.lowers_of_lower hb).grows
        obtain ⟨e, he, hpath, hfault⟩ := ih h hgrows
        exact ⟨e, by simp [he], hpath, hfault⟩
      · cases h

/-- No name is reserved or repeated, and every body is scoped. -/
structure WellScoped (p : Program) : Prop extends p.NamesFree where
  bodies : ∀ d ∈ p, d.body.Scoped (p.map Def.name) []

end Program

namespace Compiler

/-- A program whose names are free is rejected for a fault in one of its bodies. -/
theorem fault_of_compile {mode : Dispatch} {p : Program} (hp : p.NamesFree) {f : LowerFailure}
    (h : ((new mode).compile p).1 = .error f) :
    ∃ d ∈ p, f.path.head? = some (.definition d.name) ∧
      Fault (fun x => isPrimitive x = true ∨ x ∈ p.map Def.name) d.body.holes d.body.free
        f.cause := by
  rw [compile_new, Program.lower_of_namesFree mode hp] at h
  cases hdefs : p.lowerDefs mode (.declared (p.map Def.name)) with
  | ok fs t => simp [hdefs] at h
  | error g t =>
      simp only [hdefs, Except.error.injEq] at h
      exact h ▸ Program.fault_of_lowerDefs hdefs (.refl _)

theorem compile_of_clash (mode : Dispatch) {before : Program} {d : Def}
    (hbefore : before.NamesFree) (hd : d.Clashes before) (after : Program) :
    ((new mode).compile (before ++ d :: after)).1 = .error (.here d.nameError) ∧
      ((new mode).compile (before ++ d :: after)).2.state.tags = Registry.builtin := by
  rw [compile_new, Program.lower_of_clash mode hbefore hd after]
  exact ⟨rfl, rfl⟩

theorem wellScoped_of_compile {mode : Dispatch} {p : Program} {code : Code}
    (h : ((new mode).compile p).1 = .ok code) : p.WellScoped := by
  obtain ⟨hp, fs, hfs, -⟩ := compile_eq_ok h
  exact ⟨hp, Program.scoped_of_lowersDefs hfs (.refl _)⟩

theorem compile_of_wellScoped (mode : Dispatch) {p : Program} (hp : p.WellScoped) :
    ∃ code, ((new mode).compile p).1 = .ok code := by
  cases h : ((new mode).compile p).1 with
  | ok code => exact ⟨code, rfl⟩
  | error f =>
      obtain ⟨d, hd, -, hfault⟩ := fault_of_compile hp.toNamesFree h
      obtain ⟨hholes, hfree⟩ := Expr.scoped_iff.mp (hp.bodies d hd)
      generalize f.cause = cause at hfault
      cases hfault with
      | unsupported hole => simp [hholes] at hole
      | unbound occurs unknown => exact absurd (by simpa using hfree _ occurs) unknown

/-- A new compiler accepts exactly the well-scoped programs. If names are not free, it reports
the first definition that clashes and has registered no tag. Otherwise it reports what is
wrong with the body of the definition that the failure names. That a captured value is needed
outside of a routine is never reported. -/
theorem accepts_iff_wellScoped (mode : Dispatch) (p : Program) :
    ((∃ code, ((new mode).compile p).1 = .ok code) ↔ p.WellScoped) ∧
    (¬ p.NamesFree → ∃ (before : Program) (d : Def) (after : Program),
      p = before ++ d :: after ∧ before.NamesFree ∧ d.Clashes before ∧
        ((new mode).compile p).1 = .error (.here d.nameError) ∧
        ((new mode).compile p).2.state.tags = Registry.builtin) ∧
    (p.NamesFree → ∀ f, ((new mode).compile p).1 = .error f →
      ∃ d ∈ p, f.path.head? = some (.definition d.name) ∧
        Fault (fun x => isPrimitive x = true ∨ x ∈ p.map Def.name) d.body.holes d.body.free
          f.cause) ∧
    ∀ f x, ((new mode).compile p).1 = .error f → f.cause ≠ .outsideRoutine x := by
  refine ⟨⟨fun ⟨_, h⟩ => wellScoped_of_compile h, compile_of_wellScoped mode⟩, ?_,
    fun hp _ h => fault_of_compile hp h, ?_⟩
  · intro hp
    obtain hp' | ⟨before, d, after, rfl, hbefore, hd⟩ := p.namesFree_or_clash
    · exact absurd hp' hp
    · exact ⟨before, d, after, rfl, hbefore, hd, compile_of_clash mode hbefore hd after⟩
  · intro f x h hcause
    obtain hp | ⟨before, d, after, rfl, hbefore, hd⟩ := p.namesFree_or_clash
    · obtain ⟨d, -, -, hfault⟩ := fault_of_compile hp h
      rw [hcause] at hfault
      cases hfault
    · rw [(compile_of_clash mode hbefore hd after).1] at h
      cases h
      simp only [Failure.here, Def.nameError] at hcause
      split at hcause <;> cases hcause

/-- The name `z` is free in a lambda inside of a lambda. -/
def deepName : Program := [⟨"f", .lam "x" (.lam "y" (.app (.var "x") (.var "z")))⟩]

theorem accepts_deepName :
    (¬ ∃ code, ((new .tag).compile deepName).1 = .ok code) ∧
      ∃ code, ((new .tag).compile (deepName ++ [⟨"z", .num 1⟩])).1 = .ok code := by
  constructor
  · rw [(accepts_iff_wellScoped .tag deepName).1]
    intro h
    have hbody := h.bodies _ (List.mem_singleton_self _)
    simp [Expr.Scoped, deepName, isPrimitive, printIntName, printCharName] at hbody
  · rw [(accepts_iff_wellScoped .tag _).1]
    refine ⟨⟨by decide +kernel, by decide⟩, ?_⟩
    simp [deepName, Expr.Scoped]

end Compiler

end Lowering
