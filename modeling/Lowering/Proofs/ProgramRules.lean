import Lowering.Proofs.LabelText
import Lowering.Proofs.Rules

/-!
# The rules of lowering for programs

A program is lowered in two passes. The first declares the names of the definitions
and stops at the first name that is reserved or repeated (`Program.declareAll_clash`).
The second lowers the bodies in order, with all names declared
(`Compiler.compile_eq_ok`).
-/

namespace Lowering

open LowerM

/-- A definition that stands after `before` may not have its name. -/
def Def.Clashes (before : Program) (d : Def) : Prop :=
  Label.Reserved d.name ∨ d.name ∈ before.map Def.name

/-- What is wrong with the name of a definition that clashes. -/
def Def.nameError (d : Def) : LowerError :=
  if Label.Reserved d.name then .reserved d.name else .redefined d.name

namespace Program

/-- No name is reserved, and no name is repeated. -/
structure NamesFree (p : Program) : Prop where
  notReserved : ∀ d ∈ p, ¬ Label.Reserved d.name
  distinct : (p.map Def.name).Nodup

theorem namesFree_of_underscore_not_mem {p : Program} (h : ∀ d ∈ p, '_' ∉ d.name.toList)
    (hdistinct : (p.map Def.name).Nodup) : p.NamesFree :=
  ⟨fun d hd hreserved => h d hd hreserved.underscore_mem, hdistinct⟩

theorem namesFree_append_singleton {p : Program} {d : Def} :
    NamesFree (p ++ [d]) ↔ p.NamesFree ∧ ¬ d.Clashes p := by
  constructor
  · rintro ⟨hreserved, hdistinct⟩
    rw [List.map_append, List.nodup_append] at hdistinct
    refine ⟨⟨fun e he => hreserved e (by simp [he]), hdistinct.1⟩, ?_⟩
    rintro (hd | hd)
    · exact hreserved d (by simp) hd
    · exact hdistinct.2.2 d.name hd d.name (by simp) rfl
  · rintro ⟨⟨hreserved, hdistinct⟩, hclash⟩
    obtain ⟨hd, hnew⟩ := not_or.mp hclash
    constructor
    · intro e he
      rcases List.mem_append.mp he with he | he
      · exact hreserved e he
      · rwa [List.mem_singleton.mp he]
    · rw [List.map_append, List.nodup_append]
      refine ⟨hdistinct, by simp, ?_⟩
      rintro a ha b hb rfl
      exact hnew (by simpa [List.mem_singleton.mp hb] using ha)

/-- Either all names are free, or there is a first definition that clashes. -/
theorem namesFree_or_clash (p : Program) :
    p.NamesFree ∨ ∃ (before : Program) (d : Def) (after : Program),
      p = before ++ d :: after ∧ before.NamesFree ∧ d.Clashes before := by
  induction p using List.reverseRecOn with
  | nil => exact .inl ⟨by simp, by simp⟩
  | append_singleton p d ih =>
      rcases ih with hp | ⟨before, c, after, rfl, hbefore, hclash⟩
      · by_cases hd : d.Clashes p
        · exact .inr ⟨p, d, [], rfl, hp, hd⟩
        · exact .inl (namesFree_append_singleton.mpr ⟨hp, hd⟩)
      · exact .inr ⟨before, c, after ++ [d], by simp, hbefore, hclash⟩

end Program

/-- The state in which names are declared and nothing else is done. -/
def LowerState.declared (names : List String) : LowerState :=
  { env := { shared := { globals := .ofList names } } }

namespace LowerState

@[simp] theorem next_declared (names : List String) : (declared names).next = 0 := rfl
@[simp] theorem scope_declared (names : List String) : (declared names).scope = {} := rfl
@[simp] theorem cases_declared (names : List String) : (declared names).cases = 0 := rfl
@[simp] theorem routines_declared (names : List String) : (declared names).routines = 0 := rfl

@[simp] theorem tags_declared (names : List String) :
    (declared names).tags = Registry.builtin := rfl

@[simp] theorem mem_globals_declared {names : List String} {x : String} :
    x ∈ (declared names).globals ↔ x ∈ names := OrderedSet.mem_ofList

end LowerState

theorem LowerM.declare_of_not_mem {names : List String} {x : String} (h : x ∉ names) :
    declare x (.declared names) = .ok true (.declared (names ++ [x])) := by
  simp [declare, Env.declare, Shared.declare, OrderedSet.add_eq, LowerState.declared,
    OrderedSet.ofList_concat, h]

theorem LowerM.declare_of_mem {names : List String} {x : String} (h : x ∈ names) :
    declare x (.declared names) = .ok false (.declared names) := by
  have hmem : x ∈ OrderedSet.ofList names := OrderedSet.mem_ofList.mpr h
  simp [declare, Env.declare, Shared.declare, OrderedSet.add_eq, LowerState.declared,
    OrderedSet.insert_of_mem hmem, h]

namespace Program

theorem declareAll_cons {names : List String} {d : Def} {rest : Program}
    (hreserved : ¬ Label.Reserved d.name) :
    declareAll (d :: rest) (.declared names) =
      (do
        let new ← declare d.name
        if !new then fail (.redefined d.name)
        declareAll rest : LowerM Unit) (.declared names) := by
  simp only [declareAll, Label.isGenerated_eq_false_iff.mpr hreserved, Bool.false_eq_true,
    if_false]

/-- Free names are declared in order. -/
theorem declareAll_append {p : Program} (hp : p.NamesFree) (rest : Program) :
    declareAll (p ++ rest) (.declared []) =
      declareAll rest (.declared (p.map Def.name)) := by
  induction p using List.reverseRecOn generalizing rest with
  | nil => rfl
  | append_singleton p d ih =>
      obtain ⟨hp', hclash⟩ := namesFree_append_singleton.mp hp
      obtain ⟨hd, hnew⟩ := not_or.mp hclash
      rw [List.append_assoc, ih hp', List.singleton_append,
        declareAll_cons hd]
      change EStateM.bind (declare d.name) _ _ = _
      simp only [EStateM.bind, declare_of_not_mem hnew, List.map_append, List.map_cons,
        List.map_nil]
      rfl

/-- The first definition that clashes is reported, and nothing has been lowered. -/
theorem declareAll_clash {before : Program} {d : Def} (hbefore : before.NamesFree)
    (hd : d.Clashes before) (after : Program) :
    declareAll (before ++ d :: after) (.declared []) =
      .error (.here d.nameError) (.declared (before.map Def.name)) := by
  rw [declareAll_append hbefore]
  by_cases hreserved : Label.Reserved d.name
  · simp only [declareAll, Label.isGenerated_iff.mpr hreserved, if_true, Def.nameError, hreserved]
    rfl
  · have hmem : d.name ∈ before.map Def.name := hd.resolve_left hreserved
    rw [declareAll_cons hreserved]
    change EStateM.bind (declare d.name) _ _ = _
    simp only [EStateM.bind, declare_of_mem hmem, Def.nameError, hreserved]
    rfl

end Program

/-- Blocks are joined to code in which each of them is to be found. -/
theorem Code.within_flatMap {α : Type} (code : α → Code) {a : α} {as : List α} (h : a ∈ as) :
    code a <:+: as.flatMap code := by
  rw [List.flatMap_def]
  exact List.infix_of_mem_flatten (List.mem_map_of_mem h)

/-- The code of a definition, with its value in `value`. -/
def Def.fragment (d : Def) (value : Reg) (body : Fragment) : Fragment :=
  .ofCode [.mark ⟨d.name⟩] ++ body ++ .ofCode [.movReg (.global d.name) value]

/-- Definitions are lowered one after the other. -/
inductive LowersDefs (mode : Dispatch) :
    Program → LowerState → List Fragment → LowerState → Prop where
  | nil (s : LowerState) : LowersDefs mode [] s [] s
  | cons {d : Def} {rest : Program} {s s₁ t : LowerState} {f : Fragment} {fs : List Fragment}
      (body : Lowers mode (.expr d.body (s.reg 1)) (s.skip 1) [] f s₁)
      (others : LowersDefs mode rest s₁ fs t) :
      LowersDefs mode (d :: rest) s (d.fragment (s.reg 1) f :: fs) t

theorem LowersDefs.grows {mode : Dispatch} {p : Program} {s t : LowerState}
    {fs : List Fragment} (h : LowersDefs mode p s fs t) : s.Grows t := by
  induction h with
  | nil s => exact .refl s
  | cons body _ ih => exact (LowerState.Grows.skip _ 1).trans (body.grows.trans ih)

theorem Program.lowersDefs_of_lowerDefs {mode : Dispatch} {p : Program} {s t : LowerState}
    {fs : List Fragment} (h : p.lowerDefs mode s = .ok fs t) : LowersDefs mode p s fs t := by
  induction p generalizing s t fs with
  | nil =>
      cases h
      exact .nil s
  | cons d rest ih =>
      simp only [lowerDefs, Def.lower, fresh_bind, bind_eq_ok, within_eq_ok] at h
      obtain ⟨_, s₁, ⟨f, _, hbody, ⟨⟩⟩, gs, _, hrest, ⟨⟩⟩ := h
      exact .cons (Expr.lowers_of_lower hbody) (ih hrest)

theorem Program.lower_of_namesFree (mode : Dispatch) {p : Program} (hp : p.NamesFree) :
    p.lower mode {} =
      match p.lowerDefs mode (.declared (p.map Def.name)) with
      | .ok fs t => .ok (assemble p fs) t
      | .error f t => .error f t := by
  have hdeclare : declareAll p {} = .ok () (.declared (p.map Def.name)) := by
    have h := declareAll_append hp []
    rwa [List.append_nil] at h
  change EStateM.bind (declareAll p) _ _ = _
  simp only [EStateM.bind, hdeclare]
  change EStateM.bind (lowerDefs mode p) _ _ = _
  simp only [EStateM.bind]
  cases p.lowerDefs mode (.declared (p.map Def.name)) <;> rfl

theorem Program.lower_of_clash (mode : Dispatch) {before : Program} {d : Def}
    (hbefore : before.NamesFree) (hd : d.Clashes before) (after : Program) :
    (before ++ d :: after : Program).lower mode {} =
      .error (.here d.nameError) (.declared (before.map Def.name)) := by
  have hdeclare : declareAll (before ++ d :: after) {} = _ := declareAll_clash hbefore hd after
  change EStateM.bind (declareAll (before ++ d :: after)) _ _ = _
  simp only [EStateM.bind, hdeclare]

namespace Compiler

theorem compile_new (mode : Dispatch) (p : Program) :
    (new mode).compile p =
      match p.lower mode {} with
      | .ok code s => (.ok code, { mode, state := s, used := true })
      | .error f s => (.error f, { mode, state := s, used := true }) := rfl

theorem exists_code (mode : Dispatch) (p : Program)
    (h : ((new mode).compile p).1.toOption.isSome = true) :
    ∃ code, ((new mode).compile p).1 = .ok code := by
  cases hcode : ((new mode).compile p).1 with
  | ok code => exact ⟨code, rfl⟩
  | error f => simp [hcode, Except.toOption] at h

/-- A new compiler that accepts a program has lowered its definitions in order, from the
state in which their names are declared. -/
theorem compile_eq_ok {mode : Dispatch} {p : Program} {code : Code}
    (h : ((new mode).compile p).1 = .ok code) :
    p.NamesFree ∧ ∃ fs, LowersDefs mode p (.declared (p.map Def.name)) fs
      ((new mode).compile p).2.state ∧ code = Program.assemble p fs := by
  rw [compile_new] at h ⊢
  obtain hp | ⟨before, d, after, rfl, hbefore, hd⟩ := p.namesFree_or_clash
  · refine ⟨hp, ?_⟩
    rw [Program.lower_of_namesFree mode hp] at h ⊢
    cases hdefs : p.lowerDefs mode (.declared (p.map Def.name)) with
    | ok fs t =>
        rw [hdefs] at h
        cases h
        exact ⟨fs, Program.lowersDefs_of_lowerDefs hdefs, rfl⟩
    | error f t =>
        rw [hdefs] at h
        cases h
  · rw [Program.lower_of_clash mode hbefore hd after] at h
    cases h

end Compiler
end Lowering
