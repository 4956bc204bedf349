import Lowering.Env.Memory
import Lowering.Proofs.SessionHistory

/-!
# Which environments see which changes

In memory, all environments that were derived from one root have the address of one shared part,
and no two of them have the address of one map (`Separated`). So a memory can be read as a session
(`EnvMemory.session`), in which a change to one scope is by definition no change to another, and
each call does to the session what it does to the memory (`step_session`). What is said of the
calls on a session therefore holds of calls that go through addresses (`calls_root`).
-/

namespace Lowering.EnvMemory

/-- One shared part and a map of its own for each environment. -/
structure Separated (m : EnvMemory) : Prop where
  one_shared : ∀ r ∈ m.envs, r.shared = 0
  has_shared : 0 < m.shareds.length
  own_map : (m.envs.map EnvRecord.bindings).Nodup
  has_map : ∀ r ∈ m.envs, r.bindings < m.maps.length

/-- What the memory holds, without addresses. -/
def session (m : EnvMemory) : Session where
  shared := m.shareds[0]?.getD {}
  scopes := m.envs.map m.scope
  undos := m.undos

variable {m : EnvMemory} {n : Nat} {r other : EnvRecord}

namespace Separated

theorem shared_eq (h : m.Separated) (hr : r ∈ m.envs) : m.shared r = m.session.shared := by
  rw [shared, h.one_shared r hr]
  rfl

theorem writeShared (h : m.Separated) (r : EnvRecord) (t : Shared) :
    (m.writeShared r t).Separated where
  one_shared := h.one_shared
  has_shared := by simpa [EnvMemory.writeShared] using h.has_shared
  own_map := h.own_map
  has_map := h.has_map

theorem writeMap (h : m.Separated) (r : EnvRecord) (bindings : Bindings) :
    (m.writeMap r bindings).Separated where
  one_shared := h.one_shared
  has_shared := h.has_shared
  own_map := h.own_map
  has_map := by simpa [EnvMemory.writeMap] using h.has_map

/-- The map of a new environment is at an address that no environment had. -/
theorem allocEnv (h : m.Separated) (closure : Option Reg) : (m.allocEnv 0 closure).Separated where
  one_shared := by
    intro r hr
    rcases List.mem_append.mp hr with hr | hr
    · exact h.one_shared r hr
    · rw [List.mem_singleton.mp hr]
  has_shared := h.has_shared
  own_map := by
    have hnew : m.maps.length ∉ m.envs.map EnvRecord.bindings := by
      intro hmem
      obtain ⟨r, hr, heq⟩ := List.mem_map.mp hmem
      exact Nat.ne_of_lt (h.has_map r hr) heq
    rw [EnvMemory.allocEnv, List.map_append]
    exact h.own_map.append (List.nodup_singleton _) (by simpa using hnew)
  has_map := by
    intro r hr
    rw [EnvMemory.allocEnv, List.length_append]
    rcases List.mem_append.mp hr with hr | hr
    · exact Nat.lt_add_right 1 (h.has_map r hr)
    · rw [List.mem_singleton.mp hr]
      exact Nat.lt_succ_self _

theorem modifyEnv (h : m.Separated) (n : Nat) (f : Scope → Scope) :
    (m.modifyEnv n f).Separated := by
  rw [EnvMemory.modifyEnv]
  split
  · exact h
  · exact h.writeMap _ _

end Separated

theorem session_writeShared (h : m.Separated) (hr : r ∈ m.envs) (t : Shared) :
    (m.writeShared r t).session = { m.session with shared := t } := by
  have hset : (m.shareds.set 0 t)[0]? = some t := List.getElem?_set_self h.has_shared
  simp only [session, writeShared, h.one_shared r hr, hset]
  rfl

theorem session_allocEnv (h : m.Separated) (closure : Reg) :
    (m.allocEnv 0 (some closure)).session =
      { m.session with scopes := m.session.scopes ++ [Scope.routine closure] } := by
  have hold : m.envs.map (m.allocEnv 0 (some closure)).scope = m.envs.map m.scope := by
    apply List.map_congr_left
    intro r hr
    rw [scope, scope, allocEnv, List.getElem?_append_left (h.has_map r hr)]
  have hnew : (m.allocEnv 0 (some closure)).scope ⟨0, m.maps.length, some closure⟩ =
      Scope.routine closure := by
    rw [scope, allocEnv, List.getElem?_concat_length]
    rfl
  rw [session, session, ← hold, ← hnew, allocEnv, List.map_append]
  rfl

theorem scope_writeMap_self (hr : r.bindings < m.maps.length) (bindings : Bindings) :
    (m.writeMap r bindings).scope r = ⟨bindings, r.closure⟩ := by
  rw [scope, writeMap, List.getElem?_set_self hr]
  rfl

theorem scope_writeMap_of_ne (h : r.bindings ≠ other.bindings) (bindings : Bindings) :
    (m.writeMap r bindings).scope other = m.scope other := by
  rw [scope, scope, writeMap, List.getElem?_set_ne h]

/-- No two environments have the address of one map. -/
theorem Separated.bindings_ne (h : m.Separated) {i : Nat} (hr : m.envs[n]? = some r)
    (hother : m.envs[i]? = some other) (hni : n ≠ i) : r.bindings ≠ other.bindings := by
  intro heq
  have hn : n < (m.envs.map EnvRecord.bindings).length := by
    rw [List.length_map]
    exact (List.getElem?_eq_some_iff.mp hr).1
  apply hni
  apply (List.getElem?_inj hn h.own_map).mp
  rw [List.getElem?_map, List.getElem?_map, hr, hother, Option.map_some, Option.map_some, heq]

/-- Writing to the map of one environment is seen in this one alone. -/
theorem session_modifyEnv (h : m.Separated) {f : Scope → Scope}
    (hf : ∀ scope, (f scope).closure = scope.closure) (n : Nat) :
    (m.modifyEnv n f).session = m.session.modifyScope n f := by
  rw [modifyEnv]
  cases hn : m.envs[n]? with
  | none =>
      have hlength : (m.envs.map m.scope).length ≤ n := by
        rw [List.length_map]
        exact List.getElem?_eq_none_iff.mp hn
      rw [Session.modifyScope, session, List.modify_eq_self hlength]
  | some r =>
      have hscopes : m.envs.map (m.writeMap r (f (m.scope r)).bindings).scope =
          (m.envs.map m.scope).modify n f := by
        apply List.ext_getElem?
        intro i
        rw [List.getElem?_map, List.getElem?_modify, List.getElem?_map]
        cases hi : m.envs[i]? with
        | none => rfl
        | some other =>
            by_cases hni : n = i
            · subst hni
              cases hn.symm.trans hi
              have hmap := h.has_map r (List.mem_of_getElem? hn)
              have hclosure : r.closure = (f (m.scope r)).closure := (hf (m.scope r)).symm
              simp [scope_writeMap_self hmap, hclosure]
            · simp [scope_writeMap_of_ne (h.bindings_ne hn hi hni), hni]
      rw [session, Session.modifyScope, session, ← hscopes]
      rfl

/-- Each call does to the session in memory what it does to the memory. -/
theorem step_session (h : m.Separated) (hn : n < m.envs.length) (a : Action) :
    (m.step n a).1 = (m.session.step n a).1 ∧
      (m.step n a).2.session = (m.session.step n a).2 ∧ (m.step n a).2.Separated := by
  have hn' := List.getElem?_eq_getElem hn
  have hr : m.envs[n] ∈ m.envs := List.getElem_mem hn
  have hscope : m.session.scopes[n]? = some (m.scope m.envs[n]) := by
    rw [session, List.getElem?_map, hn', Option.map_some]
  cases a with
  | fresh =>
      simp only [step, withRecord, hn', h.shared_eq hr]
      exact ⟨rfl, session_writeShared h hr _, h.writeShared _ _⟩
  | declare x =>
      simp only [step, withRecord, hn', h.shared_eq hr]
      exact ⟨rfl, session_writeShared h hr _, h.writeShared _ _⟩
  | routine closure =>
      simp only [step, withRecord, hn', h.one_shared _ hr]
      refine ⟨?_, session_allocEnv h closure, h.allocEnv _⟩
      simp [Session.step, session]
  | bind x b =>
      exact ⟨rfl, session_modifyEnv h (fun scope => scope.closure_bind x b) n,
        h.modifyEnv n (·.bind x b)⟩
  | unbind x =>
      exact ⟨rfl, session_modifyEnv h (fun scope => scope.closure_unbind x) n,
        h.modifyEnv n (·.unbind x)⟩
  | shadow x b =>
      have hmodify := session_modifyEnv h (fun scope => scope.closure_bind x b) n
      have hseparated := h.modifyEnv n (·.bind x b)
      rw [Session.step_shadow hscope, ← hmodify]
      simp only [step, withRecord, hn', Session.step, hscope]
      exact ⟨rfl, rfl, hseparated.one_shared, hseparated.has_shared, hseparated.own_map,
        hseparated.has_map⟩
  | restore k =>
      have hundos : m.session.undos[k]? = m.undos[k]? := rfl
      simp only [step, Session.step, hundos]
      cases m.undos[k]? with
      | none => exact ⟨rfl, rfl, h⟩
      | some p =>
          exact ⟨rfl, session_modifyEnv h (fun scope => scope.closure_restore p.2) p.1,
            h.modifyEnv p.1 (·.restore p.2)⟩

/-- The memory that a call leaves. -/
def advance (m : EnvMemory) (c : Call) : EnvMemory := (m.step c.env c.action).2

/-- The memory that calls in a row leave. -/
def after (m : EnvMemory) (calls : List Call) : EnvMemory := calls.foldl advance m

/-- The answers to calls in a row. -/
def answers (m : EnvMemory) : List Call → List Answer
  | [] => []
  | c :: calls => (m.step c.env c.action).1 :: (m.advance c).answers calls

theorem env?_eq (h : m.Separated) (n : Nat) : m.env? n = m.session.env? n := by
  rw [env?, Session.env?, session, List.getElem?_map]
  cases hn : m.envs[n]? with
  | none => rfl
  | some r => simp [h.shared_eq (List.mem_of_getElem? hn), session]

theorem calls_session (h : m.Separated) {calls : List Call} (hcalls : m.session.AcceptsAll calls) :
    m.answers calls = m.session.answers calls ∧ (m.after calls).session = m.session.after calls ∧
      (m.after calls).Separated := by
  induction calls generalizing m with
  | nil => exact ⟨rfl, rfl, h⟩
  | cons c calls ih =>
      have hn : c.env < m.envs.length := by simpa [session] using hcalls.1.1
      obtain ⟨hanswer, hsession, hseparated⟩ := step_session h hn c.action
      have hrest := hcalls.2
      rw [Session.advance, ← hsession] at hrest
      obtain ⟨hanswers, hafter, hlast⟩ := ih hseparated hrest
      refine ⟨?_, hafter.trans (by rw [hsession]; rfl), hlast⟩
      rw [answers, Session.answers, Session.advance, ← hanswer, ← hsession, ← hanswers]
      rfl

/-- The root alone, with nothing bound and nothing declared. -/
abbrev root : EnvMemory := {}

theorem separated_root : root.Separated where
  one_shared := by decide
  has_shared := by decide
  own_map := by decide
  has_map := by decide

/-- Calls through addresses are answered as those on a session are, and leave environments that
look the same. -/
theorem calls_root {calls : List Call} (h : Session.root.AcceptsAll calls) :
    root.answers calls = Session.root.answers calls ∧
      (∀ n, (root.after calls).env? n = (Session.root.after calls).env? n) ∧
      (root.after calls).Separated := by
  obtain ⟨hanswers, hsession, hseparated⟩ := calls_session separated_root h
  refine ⟨hanswers, fun n => ?_, hseparated⟩
  rw [env?_eq hseparated, hsession]
  rfl

end Lowering.EnvMemory
