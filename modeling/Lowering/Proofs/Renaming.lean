import Lowering.Proofs.InStep

/-!
# Local names do not show in the code

Programs that differ only in the names of local variables are compiled to the same code,
with the same tags (`Compiler.compile_eq_of_alphaEquiv`). A local name may be that of a
definition on one side and not on the other.
-/

namespace Lowering

namespace Program

theorem AlphaEquiv.map_name_eq {p q : Program} (h : p.AlphaEquiv q) :
    p.map Def.name = q.map Def.name := by
  have hnames := congrArg (List.map Prod.fst) h
  rwa [List.map_map, List.map_map] at hnames

theorem AlphaEquiv.symm {p q : Program} (h : p.AlphaEquiv q) : q.AlphaEquiv p := Eq.symm h

/-- The nameless form of a definition that stands in one program stands in the other. -/
theorem AlphaEquiv.exists_mem {p q : Program} (h : p.AlphaEquiv q) {d : Def} (hd : d ∈ q) :
    ∃ c ∈ p, c.name = d.name ∧ c.body.nameless [] = d.body.nameless [] := by
  have hmem : (d.name, d.body.nameless []) ∈ q.map fun d => (d.name, d.body.nameless []) :=
    List.mem_map_of_mem hd
  rw [← h] at hmem
  obtain ⟨c, hc, hcd⟩ := List.mem_map.mp hmem
  exact ⟨c, hc, Prod.mk.inj hcd⟩

theorem NamesFree.of_alphaEquiv {p q : Program} (hp : p.NamesFree) (h : p.AlphaEquiv q) :
    q.NamesFree where
  notReserved d hd := by
    obtain ⟨c, hc, hname, -⟩ := h.exists_mem hd
    exact hname ▸ hp.notReserved c hc
  distinct := h.map_name_eq ▸ hp.distinct

/-- Renaming local variables keeps a program well-scoped. -/
theorem WellScoped.of_alphaEquiv {p q : Program} (hp : p.WellScoped) (h : p.AlphaEquiv q) :
    q.WellScoped where
  toNamesFree := hp.toNamesFree.of_alphaEquiv h
  bodies d hd := by
    obtain ⟨c, hc, -, hbody⟩ := h.exists_mem hd
    obtain ⟨hholes, hfree⟩ := Expr.scoped_iff.mp (hp.bodies c hc)
    refine Expr.scoped_iff.mpr ⟨Expr.holes_eq_of_nameless hbody ▸ hholes, ?_⟩
    intro x hx
    cases hx' : isPrimitive x with
    | true => exact .inl rfl
    | false =>
        have hsame : nonPrimitives c.body.free = nonPrimitives d.body.free :=
          List.forall₂_eq_eq_eq ▸ (Expr.forall₂_free hbody).imp fun _ _ => sameRef_nil_iff.mp
        have hmem : x ∈ nonPrimitives c.body.free := by
          rw [hsame]
          simpa [nonPrimitives, hx'] using hx
        rw [← h.map_name_eq]
        simpa [hx'] using hfree x (List.mem_of_mem_filter hmem)

end Program

namespace Compiler

theorem assemble_eq_of_alphaEquiv {mode : Dispatch} {p q : Program} (h : p.AlphaEquiv q)
    (hp : p.WellScoped) {t t' : LowerState} {fs gs : List Fragment}
    (hfs : LowersDefs mode p (.declared (p.map Def.name)) fs t)
    (hgs : LowersDefs mode q (.declared (q.map Def.name)) gs t') :
    Program.assemble p fs = Program.assemble q gs ∧ t.tags = t'.tags := by
  have hstart : (LowerState.declared (p.map Def.name)).Alike [] []
      (p.flatMap fun d => d.body.free) (.declared (q.map Def.name)) := by
    apply LowerState.alike_declared
    intro x hx hx'
    have hmem := hp.mem_names x hx hx'
    exact ⟨hmem, h.map_name_eq ▸ hmem⟩
  obtain ⟨hsame, ht⟩ := hfs.inStep hgs h hstart
  obtain ⟨hroutines, hcode⟩ := Fragment.SameCode.map_eq hsame
  refine ⟨?_, ht.tags⟩
  cases p with
  | nil =>
      obtain rfl : q = [] := List.map_eq_nil_iff.mp h.symm
      rfl
  | cons d rest =>
      obtain ⟨d', rest', rfl, hname, -⟩ := h.eq_cons
      simp only [Program.assemble, List.flatMap_def (f := Routine.code),
        List.flatMap_def (f := Fragment.code), hroutines, hcode, hname]

/-- If two programs differ only in the names of local variables, both are accepted or none,
and an accepted program has the same code and the same tags as the other. -/
theorem compile_eq_of_alphaEquiv (mode : Dispatch) {p q : Program} (h : p.AlphaEquiv q) :
    ((∃ code, ((new mode).compile p).1 = .ok code) ↔
      ∃ code, ((new mode).compile q).1 = .ok code) ∧
    ∀ code, ((new mode).compile p).1 = .ok code →
      ((new mode).compile q).1 = .ok code ∧
        ((new mode).compile q).2.state.tags = ((new mode).compile p).2.state.tags := by
  constructor
  · constructor
    · rintro ⟨code, hcode⟩
      exact compile_of_wellScoped mode ((wellScoped_of_compile hcode).of_alphaEquiv h)
    · rintro ⟨code, hcode⟩
      exact compile_of_wellScoped mode ((wellScoped_of_compile hcode).of_alphaEquiv h.symm)
  · intro code hcode
    have hp := wellScoped_of_compile hcode
    obtain ⟨code', hcode'⟩ := compile_of_wellScoped mode (hp.of_alphaEquiv h)
    obtain ⟨-, fs, hfs, rfl⟩ := compile_eq_ok hcode
    obtain ⟨-, gs, hgs, rfl⟩ := compile_eq_ok hcode'
    obtain ⟨hassemble, htags⟩ := assemble_eq_of_alphaEquiv h hp hfs hgs
    rw [hassemble]
    exact ⟨hcode', htags.symm⟩

/-- Local names that hide each other, and none that hides a definition. -/
def plainNames : Program :=
  [⟨"apply", .lam "x" (.lam "y" (.caseOf (.var "x")
      [.mk "Pair" ["a", "b"] (.letIn "c" (.var "a") (.lam "z"
          (.app (.var "c") (.app (.var "y") (.var "b"))))),
        .mk "Twice" ["a", "a"] (.app (.var printIntName) (.var "a"))]))⟩,
    ⟨"main", .app (.var "apply") (.ctor "Nil")⟩]

/-- The same program with locals that have the names of definitions and of a primitive. -/
def hidingNames : Program :=
  [⟨"apply", .lam "main" (.lam "apply" (.caseOf (.var "main")
      [.mk "Pair" ["x", "main"] (.letIn "x" (.var "x") (.lam "z"
          (.app (.var "x") (.app (.var "apply") (.var "main"))))),
        .mk "Twice" [printIntName, "z"] (.app (.var printIntName) (.var "z"))]))⟩,
    ⟨"main", .app (.var "apply") (.ctor "Nil")⟩]

theorem compile_eq_of_hidingNames : plainNames.AlphaEquiv hidingNames ∧
    ∃ code, ((new .tag).compile plainNames).1 = .ok code ∧
      ((new .tag).compile hidingNames).1 = .ok code ∧
      ((new .tag).compile hidingNames).2.state.tags =
        ((new .tag).compile plainNames).2.state.tags := by
  have hsame : plainNames.AlphaEquiv hidingNames := rfl
  have hscoped : plainNames.WellScoped := by
    refine ⟨Program.namesFree_of_underscore_not_mem (by decide) (by decide), ?_⟩
    simp [plainNames, Expr.Scoped, BranchesScoped, isPrimitive]
  obtain ⟨code, hcode⟩ := compile_of_wellScoped .tag hscoped
  exact ⟨hsame, code, hcode, (compile_eq_of_alphaEquiv .tag hsame).2 code hcode⟩

end Compiler

end Lowering
