import Lowering.Proofs.Frames
import Lowering.Proofs.InStep
import Lowering.Proofs.Scoping

/-!
# Definitions that are added at the end

A program that is extended by further definitions keeps the code of those it has: the new
routines follow the old ones, and the new definitions the old ones
(`Compiler.compile_append`). The tags that were given out stay.
-/

namespace Lowering

/-- Definitions at the end are lowered from where those before them have got to. -/
theorem LowersDefs.exists_split {mode : Dispatch} {p q : Program} {s t : LowerState}
    {fs : List Fragment} (h : LowersDefs mode (p ++ q) s fs t) :
    ∃ fs₁ fs₂ s₁, fs = fs₁ ++ fs₂ ∧ LowersDefs mode p s fs₁ s₁ ∧ LowersDefs mode q s₁ fs₂ t := by
  induction p generalizing s fs with
  | nil => exact ⟨[], fs, s, rfl, .nil s, h⟩
  | cons d rest ih =>
      cases h with
      | cons body others =>
          obtain ⟨fs₁, fs₂, s₁, rfl, hrest, hq⟩ := ih others
          exact ⟨_, fs₂, s₁, rfl, .cons body hrest, hq⟩

/-- Definitions at the end have routines with the numbers that follow. -/
theorem LowersDefs.routines_append {mode : Dispatch} {p q : Program} {names : List String}
    {s t : LowerState} {fs gs : List Fragment} (hp : LowersDefs mode p (.declared names) fs s)
    (hq : LowersDefs mode q s gs t) :
    Routines p.lambdas.length (Program.lambdas (p ++ q)).length
      ((gs.flatMap Fragment.routines).map Routine.code) := by
  have hroutines := hq.routines
  rw [hq.counters.1, hp.counters.1, LowerState.routines_declared, Nat.zero_add] at hroutines
  simpa [Program.lambdas] using hroutines

namespace Program.Blocks

variable {p : Program} {code : Code} {bodies defs bodies' defs' : List Code}

/-- The mark of the first definition stands right behind the routines. -/
theorem mark_head (h : p.Blocks code bodies defs) {d : Def} (hd : p.head? = some d) :
    code[bodies.flatten.length + 1]? = some (.mark ⟨d.name⟩) := by
  obtain ⟨e, -, rfl⟩ := h.code_eq
  obtain ⟨rest, rfl⟩ := List.head?_eq_some_iff.mp hd
  cases h.definitions with
  | @cons block _ blocks _ hblock _ =>
      obtain ⟨c, rfl⟩ := List.head?_eq_some_iff.mp hblock.opens
      simp

/-- The code of a program falls into routines and definitions in one way. -/
theorem flatten_eq (h : p.Blocks code bodies defs) (h' : p.Blocks code bodies' defs')
    (hmarks : code.marks.Nodup) :
    bodies.flatten = bodies'.flatten ∧ defs.flatten = defs'.flatten := by
  obtain ⟨d, hd, hcode⟩ := h.code_eq
  obtain ⟨e, he, hcode'⟩ := h'.code_eq
  have hlength := Code.mark_unique hmarks (h.mark_head hd) (h'.mark_head hd)
  rw [hcode] at hcode'
  exact List.append_inj (List.cons.inj hcode').2 (Nat.succ.inj hlength)

end Program.Blocks

namespace Compiler

/-- The definitions of `p` are lowered alike, whether others follow them or not. -/
theorem sameCode_of_append {mode : Dispatch} {p q : Program} {t t' : LowerState}
    {fs gs : List Fragment} (hp : p.WellScoped)
    (hfs : LowersDefs mode p (.declared (p.map Def.name)) fs t)
    (hgs : LowersDefs mode p (.declared ((p ++ q).map Def.name)) gs t') :
    List.Forall₂ Fragment.SameCode fs gs ∧ t.InStep t' := by
  refine hfs.inStep hgs rfl (LowerState.alike_declared ?_)
  intro x hx hprimitive
  have hmem := hp.mem_names x hx hprimitive
  exact ⟨hmem, by rw [List.map_append]; exact List.mem_append_left _ hmem⟩

/-- If `p` and `p ++ q` are both accepted, the code of `p ++ q` is that of `p` with further
routines behind its routines and further definitions behind its definitions, and its registry
is that of `p` with further entries. -/
theorem compile_append {mode : Dispatch} {p q : Program} {code code' : Code} (hp : p ≠ [])
    (h : ((new mode).compile p).1 = .ok code) (h' : ((new mode).compile (p ++ q)).1 = .ok code') :
    (∃ bodies defs, p.Blocks code bodies defs) ∧
    (∀ bodies defs, p.Blocks code bodies defs → ∃ bodies' defs',
      Program.Blocks (p ++ q) code' (bodies ++ bodies') (defs ++ defs')) ∧
    code'.head? = code.head? ∧
    ((new mode).compile p).2.state.tags.entries <+:
      ((new mode).compile (p ++ q)).2.state.tags.entries := by
  have hpq : p ++ q ≠ [] := List.append_ne_nil_of_left_ne_nil hp q
  obtain ⟨fs, hfs, hblocks⟩ := exists_blocks hp h
  obtain ⟨gs, hgs, hblocks'⟩ := exists_blocks hpq h'
  obtain ⟨gs₁, gs₂, s₁, rfl, hgs₁, hgs₂⟩ := hgs.exists_split
  obtain ⟨hsame, hstate⟩ := sameCode_of_append (wellScoped_of_compile h) hfs hgs₁
  obtain ⟨hbodies, hdefs⟩ := Fragment.SameCode.map_eq hsame
  rw [hbodies, hdefs] at hblocks
  have hhead : (p ++ q).head? = p.head? := List.head?_append_of_ne_nil p hp
  refine ⟨⟨_, _, hblocks⟩, ?_, ?_, ?_⟩
  · intro bodies defs hown
    obtain ⟨hflat, hflat'⟩ := hblocks.flatten_eq hown (nodup_marks h)
    refine ⟨(gs₂.flatMap Fragment.routines).map Routine.code, gs₂.map Fragment.code, ?_⟩
    have hroutines : Routines 0 (Program.lambdas (p ++ q)).length
        (bodies ++ (gs₂.flatMap Fragment.routines).map Routine.code) :=
      hown.routines.append (hgs₁.routines_append hgs₂) (Nat.zero_le _) (by simp [Program.lambdas])
    refine ⟨?_, hroutines, List.rel_append hown.definitions hgs₂.definitions, ?_⟩
    · obtain ⟨d, hd, hcode⟩ := hblocks'.code_eq
      refine ⟨d, hd, ?_⟩
      rw [hcode]
      simp only [List.flatMap_append, List.map_append, List.flatten_append, hflat, hflat']
    · intro r l hl
      obtain ⟨n, hn, rfl⟩ := taken_eq h' hl
      exact hroutines.exists_opening (Nat.zero_le n) hn
  · obtain ⟨d, hd, hcode⟩ := hblocks.code_eq
    obtain ⟨e, he, hcode'⟩ := hblocks'.code_eq
    rw [hhead, hd] at he
    cases he
    rw [hcode, hcode']
    rfl
  · rw [hstate.tags]
    exact hgs₂.grows.tags

/-- Two definitions, one of them with a routine. -/
def firstPart : Program :=
  [⟨"pair", .lam "x" (.app (.app (.ctor "Pair") (.var "x")) (.ctor "A"))⟩,
    ⟨"main", .app (.var "pair") (.num 3)⟩]

/-- A definition with routines and a case of its own. It uses one of the others. -/
def secondPart : Program :=
  [⟨"swap", .lam "p" (.caseOf (.var "p")
    [.mk "Pair" ["a", "b"] (.lam "f" (.app (.var "pair") (.app (.var "f") (.var "b"))))])⟩]

theorem compile_append_secondPart : ∃ code code',
    ((new .tag).compile firstPart).1 = .ok code ∧
      ((new .tag).compile (firstPart ++ secondPart)).1 = .ok code' ∧
      ∃ bodies defs bodies' defs', firstPart.Blocks code bodies defs ∧
        Program.Blocks (firstPart ++ secondPart) code' (bodies ++ bodies') (defs ++ defs') := by
  have hfirst : firstPart.WellScoped := by
    refine ⟨Program.namesFree_of_underscore_not_mem (by decide) (by decide), ?_⟩
    simp [firstPart, Expr.Scoped]
  have hwhole : Program.WellScoped (firstPart ++ secondPart) := by
    refine ⟨Program.namesFree_of_underscore_not_mem (by decide) (by decide), ?_⟩
    simp [firstPart, secondPart, Expr.Scoped, BranchesScoped]
  obtain ⟨code, h⟩ := compile_of_wellScoped .tag hfirst
  obtain ⟨code', h'⟩ := compile_of_wellScoped .tag hwhole
  obtain ⟨⟨bodies, defs, hblocks⟩, hmore, -⟩ := compile_append (by simp [firstPart]) h h'
  obtain ⟨bodies', defs', hblocks'⟩ := hmore bodies defs hblocks
  exact ⟨code, code', h, h', bodies, defs, bodies', defs', hblocks, hblocks'⟩

end Compiler

end Lowering
