import Lowering.Proofs.Calling
import Lowering.Proofs.Evaluation
import Lowering.Proofs.Scoping

/-!
# The code of each construct

`Simulates code tags globals fuel` says that the code of every expression does what the
evaluator does with that much fuel. This module goes from there to one more step of fuel,
with a lemma for each construct but the case: constants and constructors, variables, `let`,
lambdas, and the three kinds of application.
-/

namespace Lowering

open Machine

/-- What the whole of a program's code has to offer to its parts. -/
structure Linked (code : Code) (tags : Registry) : Prop where
  marks : code.marks.Nodup
  numbered : tags.Numbered
  builtin : Registry.builtin.entries <+: tags.entries

variable {code : Code} {tags : Registry} {globals locals : Locals} {s t u : LowerState}
  {f g : Fragment} {d fuel : Nat} {v : Value} {printed : List Printed} {m : Machine}

theorem Placed.mono (h : Placed code tags f t) (hroutines : g.routines ⊆ f.routines)
    (htags : u.tags.entries <+: t.tags.entries) : Placed code tags g u :=
  ⟨fun r hr => h.routines r (hroutines hr), htags.trans h.tags⟩

/-- A tag that was met on the way is the tag that the code uses. -/
theorem Placed.lookup?_tagOf (h : Placed code tags f t) {c : String} {n : Nat}
    (hst : (s.withTag c n).Grows t) : tags.lookup? c = some (s.tagOf c n) :=
  Registry.lookup?_mono (Registry.lookup?_tag _ _ _) (hst.tags.trans h.tags)

theorem Linked.tag_eq {name : String} {t t' : Tag} (h : Linked code tags)
    (hbuiltin : Registry.builtin.lookup? name = some t') (ht : tags.lookup? name = some t) :
    t = t' :=
  Option.some.inj (ht.symm.trans (Registry.lookup?_mono hbuiltin h.builtin))

/-- A number or character. -/
theorem Linked.boxed (h : Linked code tags) {name : String} {id : Int} {n : Int64}
    {free : List String} (hname : Registry.builtin.lookup? name = some ⟨id, 2⟩)
    (hv : ∀ {t : Tag} {heap : List (List Word)} {w : Word}, tags.lookup? name = some t →
      PointsTo heap w [t.id, n.toInt] → Represents code tags heap v w)
    (hready : Ready code tags globals locals free s ((s.withTag name 2).skip 2)
      (.ofCode (boxedCode (s.tagOf name 2) n (s.reg 1) (s.reg 2) (.virtual d))) m) :
    Yields code tags (boxedCode (s.tagOf name 2) n (s.reg 1) (s.reg 2) (.virtual d)) s.next
      (s.next + 2) d [] v m := by
  have htag := hready.placed.lookup?_tagOf (.skip _ _)
  have hsize : (s.tagOf name 2).size = 2 := by rw [h.tag_eq hname htag]
  exact (Leaves.boxed (by omega) (by omega) (by omega) hsize hready.holds).yields
    (hv htag (pointsTo_length _ _))

/-- A constructor without arguments. Its object may have more words than the tag. -/
theorem Linked.ctor (h : Linked code tags) {c : String} {free : List String}
    (hready : Ready code tags globals locals free s ((s.withTag c 1).skip 2)
      (.ofCode (ctorCode (s.tagOf c 1) (s.reg 1) (s.reg 2) (.virtual d))) m) :
    Yields code tags (ctorCode (s.tagOf c 1) (s.reg 1) (s.reg 2) (.virtual d)) s.next
      (s.next + 2) d [] (.ctor c []) m := by
  have htag := hready.placed.lookup?_tagOf (.skip _ _)
  obtain ⟨n, hsize⟩ : ∃ n : Nat, (s.tagOf c 1).size = (n + 1 : Nat) := by
    have hpos : 0 < (s.tagOf c 1).size := h.numbered.sizes _ (Registry.mem_of_lookup? htag)
    exact ⟨((s.tagOf c 1).size - 1).toNat, by omega⟩
  have hobject : PointsTo (m.heap ++ [(s.tagOf c 1).id :: List.replicate n 0]) m.heap.length
      ((s.tagOf c 1).id :: [] ++ List.replicate n 0) := pointsTo_length _ _
  exact (Leaves.ctor (by omega) (by omega) (by omega) hsize hready.holds).yields
    (.ctor htag hobject rfl (by simp))

theorem Ready.var {x : String} {c : Code} {free : List String} (hx : x ∈ free)
    (hready : Ready code tags globals locals free s t (.ofCode c) m)
    (hrefers : Refers x (.virtual d) s c) (hv : lookupValue? globals locals x = some v) :
    Yields code tags c s.next t.next d [] v m := by
  obtain ⟨m₁, w, hpass, hheap, hw, hrep⟩ := hready.agrees.refers _ _ hx hrefers hready.holds hv
  exact ⟨m₁, w, hpass, hheap ▸ List.prefix_refl _, hw, hheap ▸ hrep⟩

theorem Simulates.letIn (ih : Simulates code tags globals fuel) {x : String} {e b : Expr}
    {s₁ s₂ : LowerState} {fe fb : Fragment}
    (heval : (Expr.letIn x e b).eval globals (fuel + 1) locals = some (v, printed))
    (hvalue : Lowers .tag (.expr e (s.reg 1)) (s.skip 1) [] fe s₁)
    (hbody : Lowers .tag (.expr b (.virtual d))
      (s₁.inScope (s.scope.bind x (.register x (s.reg 1)))) [] fb s₂)
    (hd : d ≤ s.next)
    (hready : Ready code tags globals locals (Expr.letIn x e b).free s (s₂.inScope s.scope)
      (fe ++ fb) m) :
    Yields code tags (fe ++ fb).code s.next s₂.next d printed v m := by
  obtain ⟨u, before, after, he, hb, rfl⟩ := Outcome.andThen_eq_some heval
  have hs₁ := (LowerState.Grows.skip s 1).trans hvalue.grows
  have hnext : s.next + 1 ≤ s₁.next := hvalue.grows.next
  have hnext' : s₁.next ≤ s₂.next := hbody.grows.next
  have hready₁ : Ready code tags globals locals e.free (s.skip 1) s₁ fe m := by
    refine ⟨hready.holds.left, ?_, hready.tidy.mono (.skip _ 1), ?_⟩
    · exact hready.placed.mono (by simp) hbody.grows.tags
    · exact hready.agrees.subset (by simp [Expr.free])
  obtain ⟨m₁, w, hpass, hheap, hw, hrep⟩ := ih he hvalue (Nat.le_refl _) hready₁
  have hready₂ : Ready code tags globals ((x, u) :: locals) b.free
      (s₁.inScope (s.scope.bind x (.register x (s.reg 1)))) s₂ fb m₁ := by
    refine ⟨hpass.holds hready.holds, ?_, ?_, ?_⟩
    · exact hready.placed.mono (by simp) (List.prefix_refl _)
    · exact hs₁.scope ▸ (hready.tidy.mono hs₁).bind ⟨s.next + 1, rfl, hnext⟩
    · refine .bind ?_ hw hrep
      have hkeep := hpass.toGoes.keeps hheap (Nat.le_succ s.next) (Nat.lt_succ_self s.next)
      exact (hready.agrees.keep hready.tidy hkeep).subset (by simp [Expr.free])
  refine .after (hpass.widen (by simp) hnext' (.inr ⟨by simp, by omega⟩)) hheap ?_
  exact (ih hb hbody (by simp; omega) hready₂).widen (by simp; omega) le_rfl

theorem map_eq_some_filterMap {α β : Type} {f : α → Option β} {xs : List α}
    (h : ∀ x ∈ xs, ∃ b, f x = some b) : xs.map f = (xs.filterMap f).map some := by
  induction xs with
  | nil => rfl
  | cons x xs ih =>
      obtain ⟨b, hb⟩ := h x (by simp)
      simp [hb, ih fun y hy => h y (by simp [hy])]

/-- The captured names are local, and the other free names of the lambda are not. -/
theorem Agrees.capturesLocals {x : String} {e : Expr}
    (h : Agrees code tags globals locals s.scope (Expr.lam x e).free m)
    (hknows : ∀ y ∈ (Expr.lam x e).free, s.Knows y) :
    ∃ values, CapturesLocals x e locals (captures s.env x e) values := by
  have hlocal : ∀ y ∈ captures s.env x e, ∃ v, locals.lookup y = some v := by
    intro y hy
    obtain ⟨hfree, hp, hglobal⟩ := LowerState.mem_captures.mp hy
    rcases h.locals y hfree hp with ⟨hnone, -⟩ | ⟨v, w, hv, -⟩
    · rcases hknows y hfree with hp' | hfound | hmem
      · simp [hp] at hp'
      · exact absurd hnone hfound
      · exact absurd hmem (hglobal hnone)
    · exact ⟨v, hv⟩
  refine ⟨_, nodup_captures _ _ _, param_not_mem_captures _ _ _, map_eq_some_filterMap hlocal, ?_⟩
  intro y hfree hp hy
  rcases h.locals y hfree hp with ⟨-, hnone⟩ | ⟨v, w, -, hfinds, -⟩
  · exact hnone
  · refine absurd (LowerState.mem_captures.mpr ⟨hfree, hp, fun hnone => ?_⟩) hy
    cases hfinds <;> simp_all

/-- Locals are loaded into the next registers. -/
theorem Agrees.refersAll {xs : List String} {c : Code} (hrefers : RefersAll xs s c)
    {free : List String} {values : List Value}
    (h : Agrees code tags globals locals s.scope free m) (htidy : s.Tidy) (hxs : xs ⊆ free)
    (hvalues : xs.map (fun y => locals.lookup y) = values.map some) (hd : d ≤ s.next)
    (hcode : code.Holds m.pc c) :
    ∃ m' ws, Passes code c s.next (s.next + xs.length) d [] m m' ∧ m'.heap = m.heap ∧
      List.Forall₂ (m'.HasUpTo (s.next + xs.length)) (s.regs xs.length) ws ∧
      RepresentsAll code tags m.heap values ws := by
  induction hrefers generalizing m values with
  | nil s =>
      obtain rfl : values = [] := by simpa using hvalues
      exact ⟨m, [], .refl m, rfl, .nil, .nil⟩
  | @cons x rest s c cs head tail ih =>
      cases values with
      | nil => simp at hvalues
      | cons v values =>
      simp only [List.map_cons, List.cons.injEq] at hvalues
      have hv : lookupValue? globals locals x = some v := by
        simp [lookupValue?, head.not_primitive, hvalues.1]
      obtain ⟨m₁, w, hpass, hheap, hw, hrep⟩ :=
        Agrees.refers (s := s.skip 1) h s.next s.next (hxs (by simp)) head hcode.left hv
      have hkeep := hpass.toGoes.keeps (hheap ▸ List.prefix_refl _) le_rfl (Nat.lt_succ_self s.next)
      obtain ⟨m₂, ws, hpass', hheap', hws, hreps⟩ := ih (h.keep htidy hkeep)
        (htidy.mono (.skip s 1)) (List.subset_of_cons_subset hxs) hvalues.2 (by simp; omega)
        (hpass.holds hcode)
      rw [hheap] at hheap' hreps
      refine ⟨m₂, w :: ws, ?_, hheap', ?_, .cons hrep hreps⟩
      · have hrest : Passes code cs s.next (s.next + (x :: rest).length) d [] m₁ m₂ :=
          hpass'.widen (by simp) (by simp; omega) (.inl rfl)
        exact .trans (hpass.widen le_rfl (by simp) (.inr (by simp))) hrest
      · rw [List.length_cons, LowerState.regs_succ]
        refine .cons ⟨s.next + 1, rfl, by omega, ?_⟩ (hws.imp fun r w hr => ?_)
        · rw [← hw]
          exact hpass'.regs _ (.inl le_rfl) (by omega)
        · obtain ⟨k, rfl, hk, hget⟩ := hr
          exact ⟨k, rfl, by simp at hk; omega, hget⟩

/-- A lambda yields a closure. -/
theorem Linked.lam (h : Linked code tags) {x : String} {e : Expr} {s₁ s₂ : LowerState}
    {fe : Fragment} {captured : List String} {loads : Code} {label : Label}
    (hknows : ∀ y ∈ (Expr.lam x e).free, s.Knows y) (hcaptured : captured = captures s.env x e)
    (hbody : Lowers .tag (.expr e (s.reg 3))
      ((s.enterRoutine.skip 3).inScope (routineScope (s.reg 1) x (s.reg 2) captured)) [] fe s₁)
    (hvalues : RefersAll captured (s₁.inScope s.scope) loads)
    (hs₂ : s₂ = (s₁.inScope s.scope).skip captured.length) (hd : d ≤ s.next)
    (hready : Ready code tags globals locals (Expr.lam x e).free s
      ((s₂.withTag "Closure" 1).skip 2)
      ⟨loads ++ closureCode (s₂.tagOf "Closure" 1) label
          ((s₁.inScope s.scope).regs captured.length) (s₂.reg 1) (s₂.reg 2) (.virtual d),
        fe.routines ++ [⟨label, routineCode label (s.reg 1) (s.reg 2) (s.reg 3) fe.code,
          captured⟩]⟩ m) :
    Yields code tags (loads ++ closureCode (s₂.tagOf "Closure" 1) label
      ((s₁.inScope s.scope).regs captured.length) (s₂.reg 1) (s₂.reg 2) (.virtual d)) s.next
      (s₂.next + 2) d [] (.closure x e locals) m := by
  obtain ⟨values, hlocals⟩ := hready.agrees.capturesLocals hknows
  rw [← hcaptured] at hlocals
  have hnext : s.next + 3 ≤ s₁.next := hbody.grows.next
  have hs₂next : s₂.next = s₁.next + captured.length := by rw [hs₂]; rfl
  have hfree : captured ⊆ (Expr.lam x e).free := by
    intro y hy
    rw [hcaptured] at hy
    exact (LowerState.mem_captures.mp hy).1
  have htidy : (s₁.inScope s.scope).Tidy :=
    ⟨fun hr => (hready.tidy.register hr).mono (by simp; omega),
      fun hr => (hready.tidy.closure hr).mono (by simp; omega)⟩
  obtain ⟨m₁, ws, hpass, hheap, hws, hreps⟩ := Agrees.refersAll (d := d) hvalues hready.agrees
    htidy hfree hlocals.values (by simp; omega) hready.holds.left
  -- The closure refers to the routine by the address of its mark.
  obtain ⟨address, hroutine⟩ : ∃ address,
      code.Holds address (routineCode label (s.reg 1) (s.reg 2) (s.reg 3) fe.code) :=
    Code.Holds.exists_of_within
      (hready.placed.routines _ (List.mem_append_right _ (List.mem_singleton_self _)))
  have haddress : code.address? label = some address :=
    Code.address?_eq h.marks hroutine.left.left.head
  have htag := hready.placed.lookup?_tagOf (.skip _ _)
  have hplaced : Placed code tags fe s₁ := by
    refine hready.placed.mono (by simp) ?_
    rw [hs₂]
    exact Registry.entries_prefix_tag _ _ _
  have hleaves : Leaves code _ s₂.next (s₂.next + 2) d _ m₁ :=
    .closure (by omega) (by omega) (by omega) haddress (hs₂next ▸ hws) (hpass.holds hready.holds)
  rw [← hheap] at hreps
  obtain ⟨hlength, heach⟩ := RepresentsAll.iff_get.mp (hreps.mono (List.prefix_append _ [_]))
  refine .after (hpass.widen (by simp; omega) (by simp; omega) (.inl rfl))
    (hheap ▸ List.prefix_refl _) ?_
  refine (hleaves.yields ?_).widen (by omega) le_rfl
  exact .closure htag (pointsTo_length _ _) (.intro (s := s.enterRoutine) hroutine hbody hplaced)
    hlocals hlength heach

/-- The arguments of a chain are evaluated from the last to the first. -/
theorem Simulates.args (ih : Simulates code tags globals fuel) {ph : Phrase} {regs : List Reg}
    (hlower : Lowers .tag ph s regs f t) {chain : Expr} (hph : ph = .args chain)
    {vs : List Value}
    (heval : evalLastFirst (Expr.eval globals fuel locals) chain.spine.2 = some (vs, printed))
    (hd : d ≤ s.next)
    (hready : Ready code tags globals locals (chain.spine.2.flatMap Expr.free) s t f m) :
    ∃ m' ws, Passes code f.code s.next t.next d printed m m' ∧ m.heap <+: m'.heap ∧
      List.Forall₂ (m'.HasUpTo t.next) regs ws ∧ RepresentsAll code tags m'.heap vs ws := by
  induction hlower generalizing chain vs printed m with
  | @head e s notApp =>
      cases hph
      rw [Expr.spine_of_not_app notApp] at heval
      cases heval
      exact ⟨m, [], .refl m, List.prefix_refl _, .nil, .nil⟩
  | @arg g a s s₁ t regs before fa func last ihf _ =>
      cases hph
      rw [Expr.spine_app, evalLastFirst_append_singleton] at heval
      rw [Expr.spine_app] at hready
      obtain ⟨v, out, _, ha, hothers, rfl⟩ := Outcome.andThen_eq_some heval
      obtain ⟨vs, out', _, hrest, ⟨⟩, rfl⟩ := Outcome.andThen_eq_some hothers
      have hnext : s.next ≤ s₁.next := func.grows.next
      have hready₁ : Ready code tags globals locals a.free (s₁.skip 1) t fa m := by
        refine ⟨hready.holds.left, hready.placed.mono (by simp) (List.prefix_refl _), ?_, ?_⟩
        · exact hready.tidy.mono (func.grows.trans (.skip _ 1))
        · rw [LowerState.scope_skip, func.grows.scope]
          exact hready.agrees.subset (by simp)
      obtain ⟨m₁, w, hpass, hheap, hw, hrep⟩ := ih ha last (Nat.le_refl _) hready₁
      have hready₂ :
          Ready code tags globals locals (g.spine.2.flatMap Expr.free) s s₁ before m₁ := by
        refine ⟨hpass.holds hready.holds, hready.placed.mono (by simp) ?_, hready.tidy, ?_⟩
        · exact ((LowerState.Grows.skip _ 1).trans last.grows).tags
        · have hkeep := hpass.toGoes.keeps (n := s.next) hheap (by simp; omega) (by omega)
          exact (hready.agrees.keep hready.tidy hkeep).subset (by simp)
      obtain ⟨m₂, us, hpass', hheap', hus, hreps⟩ := ihf rfl hrest hd hready₂
      have hgrows : s₁.next + 1 ≤ t.next := last.grows.next
      refine ⟨m₂, us ++ [w], ?_, hheap.trans hheap', ?_, ?_⟩
      · rw [List.append_nil]
        have hlast : Passes code fa.code s.next t.next d out m m₁ :=
          hpass.widen (by simp; omega) le_rfl (.inr (by omega))
        exact hlast.trans (hpass'.widen le_rfl (by omega) (.inl rfl))
      · refine List.rel_append (hus.imp fun r u hr => ?_) (.cons ⟨_, rfl, hgrows, ?_⟩ .nil)
        · obtain ⟨k, rfl, hk, hget⟩ := hr
          exact ⟨k, rfl, by omega, hget⟩
        · exact (hpass'.regs _ (.inr (by omega)) (by omega)).trans hw
      · exact List.rel_append hreps (.cons (hrep.mono hheap') .nil)
  | _ => cases hph

theorem Simulates.construct (ih : Simulates code tags globals fuel) {g a : Expr} {c : String}
    {n : Nat} {s₁ : LowerState} {regs : List Reg} {fa : Fragment} (hcallee : g.callee = .ctor c n)
    (heval : (Expr.app g a).eval globals (fuel + 1) locals = some (v, printed))
    (hargs : Lowers .tag (.args (.app g a)) (s.withTag c (n + 2)) regs fa s₁) (hd : d ≤ s.next)
    (hready : Ready code tags globals locals (Expr.app g a).free s (s₁.skip 2)
      (fa ++ .ofCode (constructCode (s.tagOf c (n + 2)) regs (s₁.reg 1) (s₁.reg 2) (.virtual d)))
      m) :
    Yields code tags (fa.code ++
      constructCode (s.tagOf c (n + 2)) regs (s₁.reg 1) (s₁.reg 2) (.virtual d)) s.next
      (s₁.next + 2) d printed v m := by
  obtain ⟨vs, hvs, rfl⟩ := Expr.eval_app_of_ctor hcallee heval
  have hnext : s.next ≤ s₁.next := hargs.grows.next
  have hready₁ : Ready code tags globals locals ((Expr.app g a).spine.2.flatMap Expr.free)
      (s.withTag c (n + 2)) s₁ fa m := by
    refine ⟨hready.holds.left, hready.placed.mono (by simp) (List.prefix_refl _),
      hready.tidy.mono (.withTag _ _ _), ?_⟩
    rw [← Expr.free_of_callee_ctor hcallee]
    exact hready.agrees
  obtain ⟨m₁, ws, hpass, hheap, hws, hreps⟩ := ih.args hargs rfl hvs hd hready₁
  have htag := hready.placed.lookup?_tagOf (hargs.grows.trans (.skip _ 2))
  have hleaves : Leaves code _ s₁.next (s₁.next + 2) d _ m₁ :=
    .construct (by omega) (by omega) (by omega) hws (hpass.holds hready.holds)
  obtain ⟨hlength, heach⟩ := RepresentsAll.iff_get.mp (hreps.mono (List.prefix_append _ [_]))
  have hobject : PointsTo (m₁.heap ++ [(s.tagOf c (n + 2)).id :: ws]) m₁.heap.length
      ((s.tagOf c (n + 2)).id :: ws ++ []) := by
    rw [List.append_nil]
    exact pointsTo_length _ _
  rw [← List.append_nil printed]
  refine .after (hpass.widen le_rfl (by omega) (.inl rfl)) hheap ?_
  refine (hleaves.yields ?_).widen hnext le_rfl
  exact .ctor htag hobject hlength heach

/-- The payload of a number or character is printed. -/
theorem Represents.passes_printCode {x : String} {k : Nat} {w : Word} {p : Printed}
    (h : Represents code tags m.heap v w) (lo hi : Nat) (hp : v.printed? x = some p)
    (hw : m.get? (.virtual d) = some w)
    (hcode : code.Holds m.pc (printCode x (.virtual k) (.virtual d))) (hkd : k ≠ d)
    (hk : lo < k ∧ k ≤ hi) :
    ∃ m', Passes code (printCode x (.virtual k) (.virtual d)) lo hi d [p] m m' ∧
      m'.heap = m.heap ∧ m'.get? (.virtual d) = some w := by
  obtain ⟨id, n, hobject, hpayload⟩ : ∃ (id : Int) (n : Int64), PointsTo m.heap w [id, n.toInt] ∧
      p = if x = printCharName then .char n.toInt else .int n.toInt := by
    cases h with
    | num _ object => exact ⟨_, _, object, (Option.some.inj hp).symm⟩
    | char _ object => exact ⟨_, _, object, (Option.some.inj hp).symm⟩
    | ctor _ _ _ _ => cases hp
    | closure _ _ _ _ _ _ => cases hp
  have hload : m.load? (.virtual d) 1 = some n.toInt := load?_eq hw hobject rfl
  let m₁ := (m.set (.virtual k) n.toInt).next
  have hpass : Passes code [.load (.virtual k) (.virtual d) 1] lo hi d [] m m₁ :=
    (Passes.set hcode.left (by simp [exec, hload])).widen le_rfl le_rfl (.inr hk)
  have hget : m₁.get? (.virtual k) = some n.toInt := by rw [get?_next, get?_set_self]
  have hheap : m₁.heap = m.heap := by rw [heap_next, heap_set]
  have hsame : m₁.get? (.virtual d) = m.get? (.virtual d) := by
    rw [get?_next, get?_set_of_ne m (by simpa using hkd.symm)]
  refine ⟨(m₁.print p).next, hpass.trans (.print (hpass.holds hcode) ?_), ?_, ?_⟩
  · subst hpayload
    by_cases hx : x = printCharName <;> simp [exec, hx, hget]
  · exact hheap
  · exact hsame.trans hw

theorem Simulates.print (ih : Simulates code tags globals fuel) {x : String} {a : Expr}
    {s₁ : LowerState} {fa : Fragment} (hx : isPrimitive x = true)
    (heval : (Expr.app (.var x) a).eval globals (fuel + 1) locals = some (v, printed))
    (harg : Lowers .tag (.expr a (.virtual d)) s [] fa s₁) (hd : d ≤ s.next)
    (hready : Ready code tags globals locals (Expr.app (.var x) a).free s (s₁.skip 1)
      (fa ++ .ofCode (printCode x (s₁.reg 1) (.virtual d))) m) :
    Yields code tags (fa.code ++ printCode x (s₁.reg 1) (.virtual d)) s.next (s₁.next + 1) d
      printed v m := by
  obtain ⟨out, p, ha, hp, rfl⟩ := Expr.eval_app_of_primitive hx heval
  have hnext : s.next ≤ s₁.next := harg.grows.next
  have hready₁ : Ready code tags globals locals a.free s s₁ fa m :=
    ⟨hready.holds.left, hready.placed.mono (by simp) (List.prefix_refl _), hready.tidy,
      hready.agrees.subset (by simp [Expr.free])⟩
  obtain ⟨m₁, w, hpass, hheap, hw, hrep⟩ := ih ha harg hd hready₁
  obtain ⟨m₂, hprint, hheap', hw'⟩ := hrep.passes_printCode s.next (s₁.next + 1) hp hw
    (hpass.holds hready.holds) (by omega) (by omega)
  exact ⟨m₂, w, .trans (hpass.widen le_rfl (by omega) (.inl rfl)) hprint,
    hheap' ▸ hheap, hw', hheap' ▸ hrep⟩

theorem Simulates.callVar (ih : Simulates code tags globals fuel) {x : String} {a : Expr}
    {s₁ : LowerState} {fa : Fragment} {c : Code}
    (heval : (Expr.app (.var x) a).eval globals (fuel + 1) locals = some (v, printed))
    (harg : Lowers .tag (.expr a (s.reg 2)) (s.skip 2) [] fa s₁)
    (hrefers : Refers x (s.reg 1) s₁ c)
    (hready : Ready code tags globals locals (Expr.app (.var x) a).free s (s₁.skip 2)
      (fa ++ .ofCode c ++
        .ofCode (callCode (s.reg 1) (s.reg 2) (s₁.reg 1) (s₁.reg 2) (.virtual d))) m) :
    Yields code tags (fa.code ++ c ++
      callCode (s.reg 1) (s.reg 2) (s₁.reg 1) (s₁.reg 2) (.virtual d)) s.next (s₁.next + 2) d
      printed v m := by
  obtain ⟨y, e, captured, u, first, last, ha, hx, hbody, rfl⟩ :=
    Expr.eval_app_of_var hrefers.not_primitive heval
  have hnext : s.next + 2 ≤ s₁.next := harg.grows.next
  have hs₁ := (LowerState.Grows.skip s 2).trans harg.grows
  have hready₁ : Ready code tags globals locals a.free (s.skip 2) s₁ fa m :=
    ⟨hready.holds.left.left, hready.placed.mono (by simp) (List.prefix_refl _),
      hready.tidy.mono (.skip _ 2), hready.agrees.subset (by simp [Expr.free])⟩
  obtain ⟨m₁, aw, hpass, hheap, haw, harep⟩ := ih ha harg (Nat.le_refl _) hready₁
  have hkeep := hpass.toGoes.keeps (n := s.next) hheap (by simp) (by omega)
  have hagrees : Agrees code tags globals locals s₁.scope _ m₁ :=
    hs₁.scope ▸ hready.agrees.keep hready.tidy hkeep
  obtain ⟨m₂, w, hpass', hheap', hw, hrep⟩ := hagrees.refers s₁.next s₁.next (by simp [Expr.free])
    hrefers (hpass.holds hready.holds.left) hx
  rw [← hheap'] at harep hrep
  have hpasses : Passes code (fa.code ++ c) s.next (s₁.next + 2) d (first ++ []) m m₂ :=
    (hpass.widen (by simp) (by omega) (.inr (by omega))).trans
      (hpass'.widen (by omega) (by omega) (.inr (by omega)))
  rw [List.append_nil] at hpasses
  have hkeep' :=
    hpass'.toGoes.keeps (n := s.next) (hheap' ▸ List.prefix_refl _) (by omega) (by omega)
  have hglobals := (hready.agrees.keep hready.tidy (hkeep.trans hkeep')).globals
  have haw' := (hpass'.regs (s.next + 2) (.inl (by omega)) (by omega)).trans haw
  have hcall : Yields code tags _ s₁.next (s₁.next + 2) d last v m₂ :=
    ih.call hbody hrep hw haw' harep hglobals (by omega) (by omega) (by omega)
      (hpasses.holds hready.holds)
  exact .after hpasses (hheap' ▸ hheap) (hcall.widen (by omega) le_rfl)

theorem Simulates.callOther (ih : Simulates code tags globals fuel) {g a : Expr}
    {s₁ s₂ : LowerState} {fg fa : Fragment} (hcallee : g.callee = .other)
    (heval : (Expr.app g a).eval globals (fuel + 1) locals = some (v, printed))
    (hfunc : Lowers .tag (.expr g (s.reg 1)) (s.skip 2) [] fg s₁)
    (harg : Lowers .tag (.expr a (s.reg 2)) s₁ [] fa s₂)
    (hready : Ready code tags globals locals (Expr.app g a).free s (s₂.skip 2)
      (fg ++ fa ++ .ofCode (callCode (s.reg 1) (s.reg 2) (s₂.reg 1) (s₂.reg 2) (.virtual d))) m) :
    Yields code tags (fg.code ++ fa.code ++
      callCode (s.reg 1) (s.reg 2) (s₂.reg 1) (s₂.reg 2) (.virtual d)) s.next (s₂.next + 2) d
      printed v m := by
  obtain ⟨y, e, captured, u, first, second, last, hg, ha, hbody, rfl⟩ :=
    Expr.eval_app_of_other hcallee heval
  have hnext : s.next + 2 ≤ s₁.next := hfunc.grows.next
  have hnext' : s₁.next ≤ s₂.next := harg.grows.next
  have hs₁ := (LowerState.Grows.skip s 2).trans hfunc.grows
  have hready₁ : Ready code tags globals locals g.free (s.skip 2) s₁ fg m :=
    ⟨hready.holds.left.left, hready.placed.mono (by simp) harg.grows.tags,
      hready.tidy.mono (.skip _ 2), hready.agrees.subset (by simp [Expr.free])⟩
  obtain ⟨m₁, w, hpass, hheap, hw, hrep⟩ := ih hg hfunc (by simp) hready₁
  have hkeep := hpass.toGoes.keeps (n := s.next) hheap (by simp) (by omega)
  have hready₂ : Ready code tags globals locals a.free s₁ s₂ fa m₁ := by
    refine ⟨hpass.holds hready.holds.left, hready.placed.mono (by simp) (List.prefix_refl _),
      hready.tidy.mono hs₁, ?_⟩
    rw [hs₁.scope]
    exact (hready.agrees.keep hready.tidy hkeep).subset (by simp [Expr.free])
  obtain ⟨m₂, aw, hpass', hheap', haw, harep⟩ := ih ha harg hnext hready₂
  have hpasses : Passes code (fg.code ++ fa.code) s.next (s₂.next + 2) d (first ++ second) m m₂ :=
    (hpass.widen (by simp) (by omega) (.inr (by omega))).trans
      (hpass'.widen (by omega) (by omega) (.inr (by omega)))
  rw [← List.append_assoc]
  have hkeep' := hpass'.toGoes.keeps (n := s.next) hheap' (by omega) (by omega)
  have hglobals := (hready.agrees.keep hready.tidy (hkeep.trans hkeep')).globals
  have hw' := (hpass'.regs (s.next + 1) (.inl (by omega)) (by omega)).trans hw
  have hcall : Yields code tags _ s₂.next (s₂.next + 2) d last v m₂ :=
    ih.call hbody (hrep.mono hheap') hw' haw harep hglobals (by omega) (by omega) (by omega)
      (hpasses.holds hready.holds)
  exact .after hpasses (hheap.trans hheap') (hcall.widen (by omega) le_rfl)

end Lowering
