import Lowering.Expr.Shapes
import Lowering.Proofs.ProgramRules

/-!
# Tags are given out in the order of encounters

Lowering passes through the encounters of an expression in order, and each of them asks for
a tag (`Lowers.tags_eq`). Asking for tags in a row adds the names that are new, in the
order in which they come first (`Registry.entries_tagAll`).
-/

namespace Lowering

/-- Names can be left out before or after the first encounters are taken. -/
theorem firstEncounters_filter (q : String → Bool) (xs : List (String × Nat)) :
    firstEncounters (xs.filter fun x => q x.1) = (firstEncounters xs).filter fun x => q x.1 := by
  induction xs with
  | nil => rfl
  | cons x rest ih =>
      by_cases hx : q x.1 = true
      · simp only [List.filter_cons, hx, if_true, firstEncounters, ih, List.filter_filter,
          Bool.and_comm]
      · simp only [List.filter_cons, hx, if_false, firstEncounters, ih, List.filter_filter,
          Bool.false_eq_true]
        refine List.filter_congr fun y _ => ?_
        by_cases hy : y.1 = x.1
        · simp [hy, hx]
        · simp [hy]

namespace Registry

/-- The registry after tags were asked for one after the other. -/
def tagAll (r : Registry) (xs : List (String × Nat)) : Registry :=
  xs.foldl (fun r x => (r.tag x.1 x.2).2) r

variable {r : Registry} {xs ys : List (String × Nat)}

@[simp] theorem tagAll_nil : r.tagAll [] = r := rfl

@[simp] theorem tagAll_cons {x : String × Nat} :
    r.tagAll (x :: xs) = (r.tag x.1 x.2).2.tagAll xs := rfl

@[simp] theorem tagAll_append : r.tagAll (xs ++ ys) = (r.tagAll xs).tagAll ys :=
  List.foldl_append

/-- New names are added in the order in which they come first, with the next ids and the sizes
that they come with. -/
theorem entries_tagAll (r : Registry) (xs : List (String × Nat)) :
    (r.tagAll xs).entries = r.entries ++
      ((firstEncounters (xs.filter fun x => x.1 ∉ r.names)).zipIdx (r.entries.length + 1)).map
        fun (x, id) => (x.1, ⟨id, x.2⟩) := by
  induction xs generalizing r with
  | nil => simp [firstEncounters]
  | cons x rest ih =>
      obtain ⟨c, n⟩ := x
      by_cases hc : c ∈ r.names
      · rw [tagAll_cons, tag_of_mem hc, ih, List.filter_cons_of_neg (by simpa using hc)]
      · have hnames (y : String × Nat) : decide (y.1 ∉ r.names ++ [c]) =
            (decide (y.1 ∉ r.names) && decide (y.1 ≠ c)) := by
          rw [← Bool.decide_and, decide_eq_decide]
          simp
        have hfirsts : firstEncounters (rest.filter fun y => y.1 ∉ r.names ++ [c]) =
            (firstEncounters (rest.filter fun y => y.1 ∉ r.names)).filter fun y => y.1 ≠ c := by
          simp only [hnames]
          rw [← firstEncounters_filter (fun y => decide (y ≠ c)), List.filter_filter]
          refine congrArg firstEncounters (List.filter_congr fun y _ => ?_)
          rw [Bool.and_comm]
        rw [tagAll_cons, ih, names_tag_of_new hc, hfirsts, entries_tag_of_new hc,
          List.filter_cons_of_pos (by simpa using hc), firstEncounters, ← r.inStep.length_entries]
        simp

end Registry

namespace Expr

theorem encountersIn_spineOnto (mode : Dispatch) (e : Expr) (rest : List Expr) :
    (e.spineOnto rest).1.encountersIn mode (e.spineOnto rest).2.length ++
        (e.spineOnto rest).2.flatMap (encounters mode) =
      e.encountersIn mode rest.length ++ rest.flatMap (encounters mode) := by
  fun_induction spineOnto e rest with
  | case1 f a rest ih => simpa [encountersIn, encounters] using ih
  | case2 e rest _ => rfl

/-- A constructor with arguments meets itself first, with a word for each argument and one for
its tag, and then what the arguments meet. -/
theorem encounters_of_callee_ctor (mode : Dispatch) {f : Expr} (a : Expr) {c : String} {n : Nat}
    (h : f.callee = .ctor c n) :
    (app f a).encounters mode =
      (c, n + 2) :: (app f a).spine.2.flatMap (encounters mode) := by
  obtain ⟨hhead, hcount⟩ := spine_of_callee_ctor h
  have hspine := encountersIn_spineOnto mode (app f a) []
  rw [← spine, spine_app, hhead] at hspine
  simp only [List.length_append, hcount, List.length_cons, List.length_nil] at hspine
  rw [spine_app]
  simpa [encountersIn, encounters] using hspine.symm

/-- Only a constructor at the head of a chain counts the arguments. -/
theorem encountersIn_eq_encounters (mode : Dispatch) {e : Expr}
    (h : ∀ c, e.spine.1 ≠ .ctor c) (count : Nat) :
    e.encountersIn mode count = e.encounters mode := by
  have honto : ∀ (e : Expr) (rest : List Expr), (∀ c, (e.spineOnto rest).1 ≠ .ctor c) →
      ∀ m n : Nat, e.encountersIn mode m = e.encountersIn mode n := by
    intro e rest hhead
    fun_induction spineOnto e rest with
    | case1 f a rest ih =>
        intro m n
        rw [encountersIn, encountersIn, ih hhead (m + 1) (n + 1)]
    | case2 e rest notApp =>
        intro m n
        cases e with
        | ctor c => exact absurd rfl (hhead c)
        | app f a => exact absurd rfl (notApp f a)
        | _ => simp only [encountersIn]
  exact honto e [] h count 0

theorem spine_ne_ctor_of_callee {f : Expr} (h : ∀ c n, f.callee ≠ .ctor c n) (c : String) :
    f.spine.1 ≠ .ctor c := by
  intro hhead
  refine h c f.spine.2.length ?_
  unfold callee
  split
  · rename_i c' args hspine
    rw [hspine] at hhead
    cases hhead
    rw [hspine]
  · rename_i x hspine
    rw [hspine] at hhead
    cases hhead
  · rename_i hctor _
    exact (hctor c f.spine.2 (Prod.ext hhead rfl)).elim

/-- Other applications meet what their function meets and then what their argument meets. -/
theorem encounters_of_callee_other (mode : Dispatch) {f : Expr} (a : Expr)
    (h : f.callee = .other) :
    (app f a).encounters mode = f.encounters mode ++ a.encounters mode := by
  have hhead := spine_ne_ctor_of_callee (f := f) (by simp [h])
  rw [encounters, encountersIn, encountersIn_eq_encounters mode hhead, ← encounters]

end Expr

/-- The constructors that are met while a phrase is lowered. -/
def Phrase.encounters (mode : Dispatch) (ph : Phrase) : List (String × Nat) :=
  ph.parts.flatMap (Expr.encounters mode)

theorem Compares.tags_eq {mode : Dispatch} {id : Nat} {tagReg wanted : Reg} {index : Nat}
    {bs : List Branch} {s t : LowerState} {code : Code}
    (h : Compares mode id tagReg wanted index bs s code t) :
    t.tags = s.tags.tagAll (mode.encounters bs) := by
  induction h with
  | nil => cases mode <;> rfl
  | cons _ ih =>
      rw [ih]
      cases mode <;> simp [Dispatch.encounters, Dispatch.meet, LowerState.withTag]

/-- Lowering asks for the tags of the encounters, in order. -/
theorem Lowers.tags_eq {mode : Dispatch} {ph : Phrase} {s t : LowerState} {regs : List Reg}
    {f : Fragment} (h : Lowers mode ph s regs f t)
    (hs : Registry.builtin.entries <+: s.tags.entries) :
    t.tags = s.tags.tagAll (ph.encounters mode) := by
  induction h with
  | primitive _ => rfl
  | var _ => rfl
  | ctor => rfl
  | num => exact Registry.tag_of_builtin hs (by decide) 2
  | char => exact Registry.tag_of_builtin hs (by decide) 2
  | @caseOf e bs dst s s₁ s₂ t fe fb tests he compares hb scrutinee branches =>
      have hs₁ : Registry.builtin.entries <+: s₁.tags.entries := hs.trans he.grows.tags
      rw [branches (hs₁.trans compares.grows.tags), compares.tags_eq, scrutinee hs]
      simp [Phrase.encounters, Expr.encounters, Expr.encountersIn, encountersInBranches_eq]
  | letIn hv _ value body =>
      rw [LowerState.tags_inScope, body (hs.trans hv.grows.tags), LowerState.tags_inScope, value hs]
      simp [Phrase.encounters, Expr.encounters, Expr.encountersIn]
  | @lam x e dst s s₁ s₂ fe captured loads _ he _ hs₂ body =>
      subst hs₂
      have hs₁ : Registry.builtin.entries <+: s₁.tags.entries := hs.trans he.grows.tags
      refine (Registry.tag_of_builtin hs₁ (by decide) 1).trans ?_
      rw [body hs]
      simp [Phrase.encounters, Expr.encounters, Expr.encountersIn]
  | @construct f a c n dst s s₁ regs fa callee _ args =>
      rw [LowerState.tags_skip, args (hs.trans (LowerState.Grows.withTag _ _ _).tags)]
      simp only [Phrase.encounters, Phrase.parts, List.flatMap_cons, List.flatMap_nil,
        List.append_nil, Expr.encounters_of_callee_ctor mode a callee]
      rfl
  | print _ _ arg => exact arg hs
  | callVar _ _ arg => exact arg hs
  | call callee hf _ func arg =>
      rw [LowerState.tags_skip, arg (hs.trans hf.grows.tags), func hs]
      simp [Phrase.encounters, Expr.encounters_of_callee_other mode _ callee]
  | head notApp => simp [Phrase.encounters, Expr.spine_of_not_app notApp]
  | arg hf _ func last =>
      rw [last (hs.trans hf.grows.tags), LowerState.tags_skip, func hs]
      simp [Phrase.encounters, Expr.spine_app]
  | body _ ih => exact ih hs
  | field _ ih => exact ih hs
  | noBranch => rfl
  | branch hf _ first rest =>
      rw [rest (hs.trans hf.grows.tags), first hs]
      simp [Phrase.encounters, Branch.body]

theorem LowersDefs.tags_eq {mode : Dispatch} {p : Program} {s t : LowerState}
    {fs : List Fragment} (h : LowersDefs mode p s fs t)
    (hs : Registry.builtin.entries <+: s.tags.entries) :
    t.tags = s.tags.tagAll (p.encounters mode) := by
  induction h with
  | nil s => rfl
  | cons body _ ih =>
      rw [ih (hs.trans body.grows.tags), body.tags_eq hs]
      simp [Phrase.encounters, Program.encounters]

/-- The registry of an accepted program. -/
theorem Compiler.entries_tags_eq {mode : Dispatch} {p : Program} {code : Code}
    (h : ((new mode).compile p).1 = .ok code) :
    ((new mode).compile p).2.state.tags.entries = Registry.builtin.entries ++
      ((firstEncounters ((p.encounters mode).filter
        fun x => x.1 ∉ Registry.builtin.names)).zipIdx 8).map fun (x, id) => (x.1, ⟨id, x.2⟩) := by
  obtain ⟨-, fs, hfs, -⟩ := compile_eq_ok h
  rw [hfs.tags_eq (List.prefix_refl _), LowerState.tags_declared]
  exact Registry.entries_tagAll Registry.builtin (p.encounters mode)

end Lowering
