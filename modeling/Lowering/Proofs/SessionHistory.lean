import Lowering.Env.Session
import Lowering.Proofs.Captures
import Lowering.Proofs.Registers

/-!
# The history of a session

The environments of a session have one register counter and one set of globals, and each of
them has its own local names. `shared_advance` and `local?_advance` say what one call can do to
either; what a whole history does follows by induction on the calls.
-/

namespace Lowering

/-- An action, and the number of the environment that it is done to. -/
structure Call where
  env : Nat
  action : Action
  deriving DecidableEq, Repr

/-- The register that an answer gives. -/
def Answer.reg? : Answer → Option Reg
  | .reg r => some r
  | _ => none

/-- What an action does to the registers and the globals. -/
def Action.onShared (s : Shared) : Action → Shared
  | .fresh => s.fresh.2
  | .declare x => (s.declare x).2
  | _ => s

/-- The number of the undo that an action runs. -/
def Action.undo? : Action → Option Nat
  | .restore k => some k
  | _ => none

namespace Call

/-- The name that a call declares. -/
def declared? (c : Call) : Option String :=
  match c.action with
  | .declare x => some x
  | _ => none

/-- The environment and the name that a call shadows. -/
def shadowed? (c : Call) : Option (Nat × String) :=
  match c.action with
  | .shadow x _ => some (c.env, x)
  | _ => none

/-- The environment and the name that a call is for. The undos so far are for those in `undos`,
in the order of their numbers. -/
def cell? (undos : List (Nat × String)) (c : Call) : Option (Nat × String) :=
  match c.action with
  | .bind x _ | .unbind x | .shadow x _ => some (c.env, x)
  | .restore k => undos[k]?
  | .fresh | .routine _ | .declare _ => none

end Call

namespace Session

/-- The session that a call leaves. -/
def advance (s : Session) (c : Call) : Session := (s.step c.env c.action).2

/-- The session that calls in a row leave. -/
def after (s : Session) (calls : List Call) : Session := calls.foldl advance s

/-- The answers to calls in a row. -/
def answers (s : Session) : List Call → List Answer
  | [] => []
  | c :: calls => (s.step c.env c.action).1 :: (s.advance c).answers calls

/-- The environment of a call is there, and so is the undo that it runs. -/
def Accepts (s : Session) (c : Call) : Prop :=
  c.env < s.scopes.length ∧ ∀ k ∈ c.action.undo?, k < s.undos.length

/-- Each of the calls is on what is there when it is made. -/
def AcceptsAll (s : Session) : List Call → Prop
  | [] => True
  | c :: calls => s.Accepts c ∧ (s.advance c).AcceptsAll calls

instance (s : Session) (c : Call) : Decidable (s.Accepts c) :=
  inferInstanceAs (Decidable (_ ∧ _))

instance decidableAcceptsAll : ∀ (s : Session) (calls : List Call), Decidable (s.AcceptsAll calls)
  | _, [] => inferInstanceAs (Decidable True)
  | s, c :: calls =>
    have := decidableAcceptsAll (s.advance c) calls
    inferInstanceAs (Decidable (_ ∧ _))

/-- The local binding of a name in the environment with number `n`. -/
def local? (s : Session) (n : Nat) (x : String) : Option Binding := (s.env? n).bind (·.local? x)

/-- The environment and the name of each undo. -/
def undoCells (s : Session) : List (Nat × String) := s.undos.map fun p => (p.1, p.2.name)

/-- How often a register is asked for. -/
def freshes (calls : List Call) : Nat := calls.countP (·.action = .fresh)

/-- The names that are declared, each time that they are. -/
def declared (calls : List Call) : List String := calls.filterMap Call.declared?

/-- The environment and the name of each shadowing. -/
def shadowed (calls : List Call) : List (Nat × String) := calls.filterMap Call.shadowed?

variable {s : Session} {c : Call} {calls past later : List Call} {n m k : Nat} {x y : String}
  {b : Binding} {scope : Scope}

theorem after_append : s.after (past ++ later) = (s.after past).after later := List.foldl_append

theorem after_concat : s.after (past ++ [c]) = (s.after past).advance c := after_append

theorem answers_append :
    s.answers (past ++ later) = s.answers past ++ (s.after past).answers later := by
  induction past generalizing s with
  | nil => rfl
  | cons c past ih => exact congrArg ((s.step c.env c.action).1 :: ·) ih

theorem length_answers (s : Session) (calls : List Call) :
    (s.answers calls).length = calls.length := by
  induction calls generalizing s with
  | nil => rfl
  | cons c calls ih => exact congrArg (· + 1) (ih (s.advance c))

/-- The answer to a call is that of the session it is made in. -/
theorem getElem?_answers (s : Session) (past : List Call) (c : Call) (later : List Call) :
    (s.answers (past ++ c :: later))[past.length]? =
      some ((s.after past).step c.env c.action).1 := by
  rw [answers_append, List.getElem?_append_right (by rw [length_answers]), length_answers,
    Nat.sub_self]
  rfl

theorem AcceptsAll.append (h : s.AcceptsAll (past ++ later)) :
    s.AcceptsAll past ∧ (s.after past).AcceptsAll later := by
  induction past generalizing s with
  | nil => exact ⟨trivial, h⟩
  | cons c past ih => exact ⟨⟨h.1, (ih h.2).1⟩, (ih h.2).2⟩

/-- A change that is made from the scope as it is. -/
theorem modifyScope_const (h : s.scopes[n]? = some scope) (f : Scope → Scope) :
    s.modifyScope n (fun _ => f scope) = s.modifyScope n f := by
  have hscopes : s.scopes.modify n (fun _ => f scope) = s.scopes.modify n f := by
    apply List.ext_getElem?
    intro m
    rw [List.getElem?_modify, List.getElem?_modify]
    by_cases hnm : n = m
    · subst hnm
      simp [h]
    · simp [hnm]
  rw [modifyScope, modifyScope, hscopes]

/-- A shadowing binds a name and adds an undo that remembers what the name was bound to. -/
theorem step_shadow (h : s.scopes[n]? = some scope) (x : String) (b : Binding) :
    (s.step n (.shadow x b)).2 =
      { s.modifyScope n (·.bind x b) with undos := s.undos ++ [(n, ⟨x, scope.lookup? x⟩)] } := by
  rw [← modifyScope_const h (·.bind x b)]
  simp only [step, h]
  rfl

theorem step_shadow_of_none (h : s.scopes[n]? = none) (x : String) (b : Binding) :
    (s.step n (.shadow x b)).2 = s := by
  simp only [step, h]

theorem step_restore {owner : Nat} {u : Undo} (h : s.undos[k]? = some (owner, u)) (n : Nat) :
    (s.step n (.restore k)).2 = s.modifyScope owner (·.restore u) := by
  simp only [step, h]

theorem step_restore_of_none (h : s.undos[k]? = none) (n : Nat) :
    (s.step n (.restore k)).2 = s := by
  simp only [step, h]

/-- Registers and globals are handed out in the same way through all environments. -/
theorem shared_advance (s : Session) (c : Call) :
    (s.advance c).shared = c.action.onShared s.shared := by
  obtain ⟨n, a⟩ := c
  rw [advance]
  cases a with
  | shadow x b =>
      cases h : s.scopes[n]? with
      | none => rw [step_shadow_of_none h]; rfl
      | some scope => rw [step_shadow h]; rfl
  | restore k =>
      cases h : s.undos[k]? with
      | none => rw [step_restore_of_none h]; rfl
      | some p => rw [step_restore h]; rfl
  | _ => rfl

theorem local?_eq (s : Session) (n : Nat) (x : String) :
    s.local? n x = s.scopes[n]?.bind (·.lookup? x) := by
  rw [local?, env?, Option.bind_map]
  rfl

theorem getElem?_modifyScope_self (h : s.scopes[n]? = some scope) (f : Scope → Scope) :
    (s.modifyScope n f).scopes[n]? = some (f scope) := by
  rw [modifyScope, List.getElem?_modify_eq, h]
  rfl

theorem local?_modifyScope_self (h : n < s.scopes.length) (f : Scope → Scope) :
    ∃ scope, s.scopes[n]? = some scope ∧ (s.modifyScope n f).local? n x = (f scope).lookup? x := by
  have hscope := List.getElem?_eq_getElem h
  refine ⟨s.scopes[n], hscope, ?_⟩
  rw [local?_eq, getElem?_modifyScope_self hscope]
  rfl

/-- A change to a scope is seen for no name that the change leaves as it is. -/
theorem local?_modifyScope {f : Scope → Scope}
    (h : m = n → ∀ scope, (f scope).lookup? y = scope.lookup? y) :
    (s.modifyScope n f).local? m y = s.local? m y := by
  rw [local?_eq, local?_eq, modifyScope, List.getElem?_modify]
  cases hm : s.scopes[m]? with
  | none => rfl
  | some scope =>
      by_cases hnm : n = m
      · simpa [hnm] using h hnm.symm scope
      · simp [hnm]

theorem local?_step_shadow (h : s.scopes[n]? = some scope) :
    (s.step n (.shadow x b)).2.local? m y = (s.modifyScope n (·.bind x b)).local? m y := by
  rw [step_shadow h, local?_eq, local?_eq]

/-- A new environment has no local names. -/
theorem local?_routine (s : Session) (closure : Reg) :
    local? { s with scopes := s.scopes ++ [Scope.routine closure] } m y = s.local? m y := by
  rw [local?_eq, local?_eq, List.getElem?_append]
  split
  · rfl
  · rename_i hm
    rw [List.getElem?_eq_none (Nat.le_of_not_lt hm)]
    cases hnew : [Scope.routine closure][m - s.scopes.length]? with
    | none => rfl
    | some scope =>
        rw [List.mem_singleton.mp (List.mem_of_getElem? hnew)]
        rfl

/-- A call changes no local name but the one that it is for. -/
theorem local?_advance (h : c.cell? s.undoCells ≠ some (m, y)) :
    (s.advance c).local? m y = s.local? m y := by
  obtain ⟨n, a⟩ := c
  have hother : ∀ {n : Nat} {x : String}, some (n, x) ≠ some (m, y) → m = n → y ≠ x := by
    rintro n x hne rfl rfl
    exact hne rfl
  rw [advance]
  cases a with
  | fresh => rw [local?_eq, local?_eq]; rfl
  | declare x => rw [local?_eq, local?_eq]; rfl
  | routine closure => exact local?_routine s closure
  | bind x b =>
      exact local?_modifyScope fun hm scope => scope.lookup?_bind_of_ne (hother h hm) b
  | unbind x =>
      exact local?_modifyScope fun hm scope => scope.lookup?_unbind_of_ne (hother h hm)
  | shadow x b =>
      cases hn : s.scopes[n]? with
      | none => rw [step_shadow_of_none hn]
      | some scope =>
          rw [local?_step_shadow hn]
          exact local?_modifyScope fun hm scope => scope.lookup?_bind_of_ne (hother h hm) b
  | restore k =>
      cases hk : s.undos[k]? with
      | none => rw [step_restore_of_none hk]
      | some p =>
          have hcell : Call.cell? s.undoCells ⟨n, .restore k⟩ = some (p.1, p.2.name) := by
            simp [Call.cell?, undoCells, hk]
          rw [hcell] at h
          rw [step_restore hk]
          exact local?_modifyScope fun hm scope => scope.lookup?_restore_of_ne (hother h hm)

/-- A shadowing adds an undo, and undos are added in no other way. -/
theorem undos_advance (h : s.Accepts c) :
    (s.advance c).undos = s.undos ++
      (c.shadowed?.map fun p => (p.1, ⟨p.2, s.local? p.1 p.2⟩)).toList := by
  obtain ⟨n, a⟩ := c
  rw [advance]
  cases a with
  | shadow x b =>
      obtain ⟨scope, hn⟩ : ∃ scope, s.scopes[n]? = some scope :=
        ⟨_, List.getElem?_eq_getElem h.1⟩
      have hlocal : s.local? n x = scope.lookup? x := by rw [local?_eq, hn]; rfl
      rw [step_shadow hn, ← hlocal]
      rfl
  | restore k =>
      cases hk : s.undos[k]? with
      | none => rw [step_restore_of_none hk]; simp [Call.shadowed?]
      | some p => rw [step_restore hk]; simp [Call.shadowed?, modifyScope]
  | _ => simp [Call.shadowed?, step, modifyScope]

theorem undoCells_advance (h : s.Accepts c) :
    (s.advance c).undoCells = s.undoCells ++ c.shadowed?.toList := by
  rw [undoCells, undos_advance h, List.map_append]
  cases c.shadowed? <;> rfl

/-- Environments stay. -/
theorem length_scopes_advance (s : Session) (c : Call) :
    s.scopes.length ≤ (s.advance c).scopes.length := by
  obtain ⟨n, a⟩ := c
  rw [advance]
  cases a with
  | shadow x b =>
      cases hn : s.scopes[n]? with
      | none => rw [step_shadow_of_none hn]
      | some scope => simp [step_shadow hn, modifyScope]
  | restore k =>
      cases hk : s.undos[k]? with
      | none => rw [step_restore_of_none hk]
      | some p => simp [step_restore hk, modifyScope]
  | _ => simp [step, modifyScope]

/-- The name that a call is for is bound as the call says. -/
theorem local?_advance_bind (hn : c.env < s.scopes.length)
    (h : c.action = .bind x b ∨ c.action = .shadow x b) :
    (s.advance c).local? c.env x = some b := by
  obtain ⟨n, a⟩ := c
  obtain ⟨scope, hscope, hlocal⟩ := local?_modifyScope_self (x := x) hn (·.bind x b)
  rw [Scope.lookup?_bind_self] at hlocal
  rcases h with rfl | rfl
  · exact hlocal
  · rw [advance, local?_step_shadow hscope, hlocal]

theorem local?_advance_unbind (hn : c.env < s.scopes.length) (h : c.action = .unbind x) :
    (s.advance c).local? c.env x = none := by
  obtain ⟨n, a⟩ := c
  obtain ⟨scope, -, hlocal⟩ := local?_modifyScope_self (x := x) hn (·.unbind x)
  cases h
  rwa [Scope.lookup?_unbind_self] at hlocal

theorem local?_advance_restore {u : Undo} (hn : n < s.scopes.length)
    (hk : s.undos[k]? = some (n, u)) (h : c.action = .restore k) :
    (s.advance c).local? n u.name = u.previous := by
  obtain ⟨m, a⟩ := c
  obtain ⟨scope, -, hlocal⟩ := local?_modifyScope_self (x := u.name) hn (·.restore u)
  cases h
  rw [advance, step_restore hk, hlocal, Scope.lookup?_restore_self]

theorem freshes_cons (c : Call) (calls : List Call) :
    freshes (c :: calls) = freshes calls + if c.action = .fresh then 1 else 0 := by
  simp [freshes, List.countP_cons]

theorem next_onShared (a : Action) (t : Shared) :
    (a.onShared t).next = t.next + if a = .fresh then 1 else 0 := by
  cases a <;> rfl

/-- Only a call for a register is answered with one. -/
theorem reg?_step (s : Session) (n : Nat) (a : Action) :
    (s.step n a).1.reg? =
      if a = .fresh then some (Reg.virtual (s.shared.next + 1 : Nat)) else none := by
  cases a with
  | shadow x b => simp only [step]; split <;> rfl
  | restore k => simp only [step]; split <;> rfl
  | _ => rfl

/-- The registers that calls are answered with go on from the last one before. -/
theorem filterMap_reg?_answers (s : Session) (calls : List Call) :
    (s.answers calls).filterMap Answer.reg? =
      (List.range' (s.shared.next + 1) (freshes calls)).map fun i => Reg.virtual (i : Nat) := by
  induction calls generalizing s with
  | nil => rfl
  | cons c calls ih =>
      rw [answers, List.filterMap_cons, reg?_step, ih, shared_advance, next_onShared, freshes_cons]
      by_cases hc : c.action = .fresh
      · simp only [if_pos hc, List.range'_succ, List.map_cons]
      · simp only [if_neg hc, Nat.add_zero]

theorem declared_cons (c : Call) (calls : List Call) :
    declared (c :: calls) = c.declared?.toList ++ declared calls := by
  rw [declared, List.filterMap_cons]
  cases c.declared? <;> rfl

theorem globals_onShared (c : Call) (t : Shared) :
    (c.action.onShared t).globals = c.declared?.toList.foldl OrderedSet.insert t.globals := by
  obtain ⟨n, a⟩ := c
  cases a <;> rfl

/-- The globals are the names that were declared, whatever the environment was. -/
theorem globals_after (s : Session) (calls : List Call) :
    (s.after calls).shared.globals =
      (declared calls).foldl OrderedSet.insert s.shared.globals := by
  induction calls generalizing s with
  | nil => rfl
  | cons c calls ih =>
      rw [declared_cons, List.foldl_append, ← globals_onShared, ← shared_advance]
      exact ih (s.advance c)

theorem length_scopes_after (s : Session) (calls : List Call) :
    s.scopes.length ≤ (s.after calls).scopes.length := by
  induction calls generalizing s with
  | nil => exact Nat.le_refl _
  | cons c calls ih => exact (length_scopes_advance s c).trans (ih (s.advance c))

theorem shadowed_cons (c : Call) (calls : List Call) :
    shadowed (c :: calls) = c.shadowed?.toList ++ shadowed calls := by
  rw [shadowed, List.filterMap_cons]
  cases c.shadowed? <;> rfl

/-- The undos are those of the shadowings, in order. -/
theorem undoCells_after (h : s.AcceptsAll calls) :
    (s.after calls).undoCells = s.undoCells ++ shadowed calls := by
  induction calls generalizing s with
  | nil => exact (List.append_nil _).symm
  | cons c calls ih =>
      rw [shadowed_cons, ← List.append_assoc, ← undoCells_advance h.1]
      exact ih h.2

theorem undos_prefix_after (h : s.AcceptsAll calls) : s.undos <+: (s.after calls).undos := by
  induction calls generalizing s with
  | nil => exact List.prefix_refl _
  | cons c calls ih =>
      have hstep : s.undos <+: (s.advance c).undos := by
        rw [undos_advance h.1]
        exact List.prefix_append _ _
      exact hstep.trans (ih h.2)

/-- The session before any call: the root alone. -/
abbrev root : Session := {}

/-- All environments get their registers and their globals from one place. -/
structure Common (calls : List Call) : Prop where
  registers : ((root.answers calls).filterMap Answer.reg?).map Reg.text =
    (List.range (freshes calls)).map fun i => "$r" ++ toString (i + 1)
  distinct : (((root.answers calls).filterMap Answer.reg?).map Reg.text).Nodup
  flags : ∀ past n x later, calls = past ++ ⟨n, .declare x⟩ :: later →
    (root.answers calls)[past.length]? = some (.flag (decide (x ∉ declared past)))
  globals : ∀ n e, (root.after calls).env? n = some e →
    e.shared.globals.keys = (declared calls).eraseDups

/-- A call changes the binding of the name that it is for, and no other name of any
environment. -/
structure Confined (past : List Call) (c : Call) : Prop where
  others : ∀ n x, c.cell? (shadowed past) ≠ some (n, x) →
    (root.after (past ++ [c])).local? n x = (root.after past).local? n x
  bound : ∀ x b, c.action = .bind x b ∨ c.action = .shadow x b →
    (root.after (past ++ [c])).local? c.env x = some b
  unbound : ∀ x, c.action = .unbind x → (root.after (past ++ [c])).local? c.env x = none
  restored : ∀ before n x b between, past = before ++ ⟨n, .shadow x b⟩ :: between →
    c.action = .restore (shadowed before).length →
      (root.after (past ++ [c])).local? n x = (root.after before).local? n x

theorem undoCells_root (h : root.AcceptsAll calls) :
    (root.after calls).undoCells = shadowed calls :=
  undoCells_after h

theorem keys_globals_root (calls : List Call) :
    (root.after calls).shared.globals.keys = (declared calls).eraseDups := by
  rw [globals_after]
  exact OrderedSet.keys_ofList (declared calls)

theorem texts_root (calls : List Call) :
    ((root.answers calls).filterMap Answer.reg?).map Reg.text =
      (List.range (freshes calls)).map fun i => "$r" ++ toString (i + 1) := by
  rw [filterMap_reg?_answers, List.range'_eq_map_range, List.map_map, List.map_map]
  refine List.map_congr_left fun i _ => ?_
  show "$r" ++ toString ((0 + 1 + i : Nat) : Int) = "$r" ++ toString (i + 1)
  rw [Nat.zero_add, Nat.add_comm]
  rfl

theorem common_of_calls (calls : List Call) : Common calls where
  registers := texts_root calls
  distinct := by
    rw [filterMap_reg?_answers, List.map_map]
    refine List.Nodup.map (fun i j hij => ?_) List.nodup_range'
    exact Reg.virtual_injective (congrArg Reg.mk hij)
  flags := by
    rintro past n x later rfl
    have hflag : ((root.after past).shared.globals.add x).1 = decide (x ∉ declared past) := by
      rw [OrderedSet.add_eq, decide_eq_decide, not_iff_not, OrderedSet.mem_def, keys_globals_root,
        List.mem_eraseDups]
    rw [getElem?_answers]
    exact congrArg (fun flag => some (Answer.flag flag)) hflag
  globals := by
    intro n e he
    obtain ⟨scope, -, rfl⟩ := Option.map_eq_some_iff.mp he
    exact keys_globals_root calls

/-- The undo of a shadowing remembers what the name was bound to, for as long as there are
calls. -/
theorem getElem?_undos_root {before between : List Call}
    (h : root.AcceptsAll (before ++ ⟨n, .shadow x b⟩ :: between)) :
    (root.after (before ++ ⟨n, .shadow x b⟩ :: between)).undos[(shadowed before).length]? =
      some (n, ⟨x, (root.after before).local? n x⟩) := by
  obtain ⟨hbefore, hshadow, hbetween⟩ := h.append
  have hlength : (shadowed before).length = (root.after before).undos.length := by
    rw [← undoCells_root hbefore, undoCells, List.length_map]
  obtain ⟨rest, hrest⟩ := undos_prefix_after hbetween
  rw [undos_advance hshadow, List.append_assoc] at hrest
  rw [after_append, hlength]
  show (((root.after before).advance ⟨n, .shadow x b⟩).after between).undos[_]? = _
  rw [← hrest, List.getElem?_append_right (Nat.le_refl _), Nat.sub_self]
  rfl

theorem confined_of_calls (h : root.AcceptsAll (past ++ c :: later)) : Confined past c where
  others := by
    intro n x hcell
    rw [after_concat]
    apply local?_advance
    rwa [undoCells_root h.append.1]
  bound := by
    intro x b hc
    rw [after_concat]
    exact local?_advance_bind h.append.2.1.1 hc
  unbound := by
    intro x hc
    rw [after_concat]
    exact local?_advance_unbind h.append.2.1.1 hc
  restored := by
    rintro before n x b between rfl hc
    have hundo := getElem?_undos_root h.append.1
    have hn : n < (root.after (before ++ ⟨n, .shadow x b⟩ :: between)).scopes.length := by
      have hshadow := h.append.1.append.2.1.1
      rw [after_append]
      exact Nat.lt_of_lt_of_le hshadow (length_scopes_after _ _)
    rw [after_concat]
    exact local?_advance_restore hn hundo hc

/-- Environments that are derived from one root share registers and globals and nothing else.
Over any calls on them, the registers are `$r1`, `$r2`, ... in the order of the calls; a name is
new when it is declared for the first time through any environment, and each environment lists
the declared names in this order; and a call for a name of an environment changes what this name
is bound to there, and no local name besides. -/
theorem calls_share_only_common {calls : List Call} (h : root.AcceptsAll calls) :
    Common calls ∧ ∀ past c later, calls = past ++ c :: later → Confined past c := by
  refine ⟨common_of_calls calls, ?_⟩
  rintro past c later rfl
  exact confined_of_calls h

/-- A name is shadowed twice in a derived environment and once in the root. The undos are run
in the order of the shadowings, and the first of them a second time at the end. -/
def crossedUndos : List Call :=
  [⟨0, .fresh⟩, ⟨0, .declare "f"⟩, ⟨0, .routine ⟨"$r1"⟩⟩, ⟨1, .declare "f"⟩,
    ⟨1, .bind "x" (.enclosed "x" 0)⟩, ⟨1, .shadow "x" (.enclosed "x" 1)⟩, ⟨1, .fresh⟩,
    ⟨1, .shadow "x" (.enclosed "x" 2)⟩, ⟨0, .shadow "x" (.enclosed "x" 3)⟩, ⟨1, .declare "g"⟩,
    ⟨0, .fresh⟩, ⟨1, .restore 0⟩, ⟨1, .restore 1⟩, ⟨0, .restore 0⟩]

theorem calls_share_only_common_crossedUndos :
    root.AcceptsAll crossedUndos ∧
      ((root.answers crossedUndos).filterMap Answer.reg?).map Reg.text = ["$r1", "$r2", "$r3"] ∧
      (root.answers crossedUndos)[3]? = some (.flag false) ∧
      (∀ e, (root.after crossedUndos).env? 1 = some e → e.shared.globals.keys = ["f", "g"]) ∧
      (root.after crossedUndos).local? 0 "x" = some (.enclosed "x" 3) ∧
      (root.after crossedUndos).local? 1 "x" = some (.enclosed "x" 0) := by
  have h : root.AcceptsAll crossedUndos := by decide
  obtain ⟨hcommon, hconfined⟩ := calls_share_only_common h
  have hlast : Confined (crossedUndos.take 13) ⟨0, .restore 0⟩ := hconfined _ _ [] rfl
  refine ⟨h, hcommon.registers.trans (by decide), ?_, ?_, ?_, ?_⟩
  · exact hcommon.flags (crossedUndos.take 3) 1 "f" (crossedUndos.drop 4) rfl
  · intro e he
    exact (hcommon.globals 1 e he).trans (by decide)
  · exact (hlast.others 0 "x" (by decide)).trans (by decide)
  · exact (hlast.restored (crossedUndos.take 5) 1 "x" (.enclosed "x" 1)
      ((crossedUndos.take 13).drop 6) rfl rfl).trans (by decide)

end Session
end Lowering
