import Lowering.Lower.Program
import Lowering.Proofs.Registers
import Lowering.Proofs.Registry

/-!
# Runs of lowering computations

A computation on the lowering state is followed by its result: `LowerM.bind_eq_ok`
takes a successful sequence apart, and each primitive computation has an equation
that gives its result and the state after it.

States after a step are written with a few updates (`skip`, `inScope`, `withTag`,
`enterCase`, `enterRoutine`), each with one lemma for every part of the state that
it keeps or changes.
-/

namespace Lowering

namespace LowerState

/-- The number of the last register that was handed out. -/
def next (s : LowerState) : Nat := s.env.shared.next

/-- The names of the definitions. -/
def globals (s : LowerState) : OrderedSet String := s.env.shared.globals

def scope (s : LowerState) : Scope := s.env.scope

/-- The register that is handed out after `i` requests. -/
def reg (s : LowerState) (i : Nat) : Reg := Reg.virtual ((s.next + i : Nat) : Int)

/-- The state after `n` registers have been handed out. -/
def skip (s : LowerState) (n : Nat) : LowerState :=
  { s with env := { s.env with shared := { s.env.shared with next := s.next + n } } }

def inScope (s : LowerState) (c : Scope) : LowerState :=
  { s with env := { s.env with scope := c } }

/-- The tag that a constructor has, or gets when it is met with `size` words. -/
def tagOf (s : LowerState) (name : String) (size : Nat) : Tag := (s.tags.tag name size).1.1

/-- The state after a constructor was met with `size` words. -/
def withTag (s : LowerState) (name : String) (size : Nat) : LowerState :=
  { s with tags := (s.tags.tag name size).2 }

/-- The state in which a new case has its id. -/
def enterCase (s : LowerState) : LowerState := { s with cases := s.cases + 1 }

/-- The state in which a new routine has its label. -/
def enterRoutine (s : LowerState) : LowerState := { s with routines := s.routines + 1 }

variable (s : LowerState) (n size : Nat) (c : Scope) (name : String)

@[simp] theorem next_skip : (s.skip n).next = s.next + n := rfl
@[simp] theorem globals_skip : (s.skip n).globals = s.globals := rfl
@[simp] theorem scope_skip : (s.skip n).scope = s.scope := rfl
@[simp] theorem tags_skip : (s.skip n).tags = s.tags := rfl
@[simp] theorem cases_skip : (s.skip n).cases = s.cases := rfl
@[simp] theorem routines_skip : (s.skip n).routines = s.routines := rfl

@[simp] theorem next_inScope : (s.inScope c).next = s.next := rfl
@[simp] theorem globals_inScope : (s.inScope c).globals = s.globals := rfl
@[simp] theorem scope_inScope : (s.inScope c).scope = c := rfl
@[simp] theorem tags_inScope : (s.inScope c).tags = s.tags := rfl
@[simp] theorem cases_inScope : (s.inScope c).cases = s.cases := rfl
@[simp] theorem routines_inScope : (s.inScope c).routines = s.routines := rfl

@[simp] theorem next_withTag : (s.withTag name size).next = s.next := rfl
@[simp] theorem globals_withTag : (s.withTag name size).globals = s.globals := rfl
@[simp] theorem scope_withTag : (s.withTag name size).scope = s.scope := rfl
@[simp] theorem cases_withTag : (s.withTag name size).cases = s.cases := rfl
@[simp] theorem routines_withTag : (s.withTag name size).routines = s.routines := rfl

@[simp] theorem next_enterCase : s.enterCase.next = s.next := rfl
@[simp] theorem globals_enterCase : s.enterCase.globals = s.globals := rfl
@[simp] theorem scope_enterCase : s.enterCase.scope = s.scope := rfl
@[simp] theorem tags_enterCase : s.enterCase.tags = s.tags := rfl
@[simp] theorem cases_enterCase : s.enterCase.cases = s.cases + 1 := rfl
@[simp] theorem routines_enterCase : s.enterCase.routines = s.routines := rfl

@[simp] theorem next_enterRoutine : s.enterRoutine.next = s.next := rfl
@[simp] theorem globals_enterRoutine : s.enterRoutine.globals = s.globals := rfl
@[simp] theorem scope_enterRoutine : s.enterRoutine.scope = s.scope := rfl
@[simp] theorem tags_enterRoutine : s.enterRoutine.tags = s.tags := rfl
@[simp] theorem cases_enterRoutine : s.enterRoutine.cases = s.cases := rfl
@[simp] theorem routines_enterRoutine : s.enterRoutine.routines = s.routines + 1 := rfl

@[simp] theorem reg_inScope (i : Nat) : (s.inScope c).reg i = s.reg i := rfl
@[simp] theorem reg_withTag (i : Nat) : (s.withTag name size).reg i = s.reg i := rfl
@[simp] theorem reg_enterCase (i : Nat) : s.enterCase.reg i = s.reg i := rfl
@[simp] theorem reg_enterRoutine (i : Nat) : s.enterRoutine.reg i = s.reg i := rfl

@[simp] theorem env_enterRoutine : s.enterRoutine.env = s.env := rfl

@[simp] theorem inScope_scope : s.inScope s.scope = s := rfl

@[simp] theorem inScope_inScope (d : Scope) : (s.inScope c).inScope d = s.inScope d := rfl

@[simp] theorem skip_skip (m : Nat) : (s.skip n).skip m = s.skip (n + m) := by
  simp [skip, next, Nat.add_assoc]

@[simp] theorem reg_skip (i : Nat) : (s.skip n).reg i = s.reg (n + i) := by
  simp only [reg, next_skip, Nat.add_assoc]

@[simp] theorem reg_inj {i j : Nat} : s.reg i = s.reg j ↔ i = j := by
  simp only [reg, Reg.virtual_inj, Nat.add_left_cancel_iff]

end LowerState

/-- The register was handed out before. -/
def LowerState.Has (s : LowerState) (r : Reg) : Prop := ∃ n : Nat, r = .virtual n ∧ n ≤ s.next

namespace LowerState.Has

variable {s t : LowerState} {r : Reg}

theorem mono (h : s.Has r) (hnext : s.next ≤ t.next) : t.Has r := by
  obtain ⟨n, rfl, hn⟩ := h
  exact ⟨n, rfl, hn.trans hnext⟩

theorem ne_reg (h : s.Has r) {i : Nat} (hi : 0 < i) : r ≠ s.reg i := by
  obtain ⟨n, rfl, hn⟩ := h
  intro heq
  have := Reg.virtual_injective heq
  omega

end LowerState.Has

namespace LowerM

open EStateM (Result)

/-- A sequence succeeds when both of its parts do. -/
theorem bind_eq_ok {α β : Type} {x : LowerM α} {k : α → LowerM β} {s t : LowerState} {b : β} :
    (x >>= k) s = .ok b t ↔ ∃ a s₁, x s = .ok a s₁ ∧ k a s₁ = .ok b t := by
  change EStateM.bind x k s = .ok b t ↔ _
  unfold EStateM.bind
  constructor
  · intro h
    split at h
    · exact ⟨_, _, by assumption, h⟩
    · cases h
  · rintro ⟨a, s₁, hx, hk⟩
    rw [hx]
    exact hk

/-- A sequence fails where its first part does, or where the rest does. -/
theorem bind_eq_error {α β : Type} {x : LowerM α} {k : α → LowerM β} {s t : LowerState}
    {f : LowerFailure} :
    (x >>= k) s = .error f t ↔
      x s = .error f t ∨ ∃ a s₁, x s = .ok a s₁ ∧ k a s₁ = .error f t := by
  change EStateM.bind x k s = .error f t ↔ _
  unfold EStateM.bind
  cases x s <;> simp

theorem within_eq_ok {α : Type} {step : LowerStep} {x : LowerM α} {s t : LowerState} {a : α} :
    within step x s = .ok a t ↔ x s = .ok a t := by
  unfold within
  split <;> simp_all

theorem within_eq_error {α : Type} {step : LowerStep} {x : LowerM α} {s t : LowerState}
    {f : LowerFailure} :
    within step x s = .error f t ↔ ∃ g, x s = .error g t ∧ f = g.inside step := by
  unfold within
  cases x s with
  | ok a s₁ => simp
  | error g s₁ => simp [eq_comm, and_comm]

section

variable {β : Type} (s : LowerState) (name : String) (size : Nat)

theorem fresh_bind (k : Reg → LowerM β) : (fresh >>= k) s = k (s.reg 1) (s.skip 1) := rfl

theorem env_bind (k : Env → LowerM β) : (env >>= k) s = k s.env s := rfl

theorem tag_bind (k : Tag → LowerM β) :
    (tag name size >>= k) s = k (s.tagOf name size) (s.withTag name size) := rfl

theorem newCase_bind (k : Nat → LowerM β) :
    (newCase >>= k) s = k (s.cases + 1) s.enterCase := rfl

theorem newRoutine_bind (k : Label → LowerM β) :
    (newRoutine >>= k) s = k (Label.routine s.routines) s.enterRoutine := rfl

end

theorem onScope_eq (f : Scope → Scope) (s : LowerState) :
    onScope f s = s.inScope (f s.scope) := rfl

theorem inScope_eq_ok {α : Type} {c : Scope} {x : LowerM α} {s t : LowerState} {a : α} :
    inScope c x s = .ok a t ↔ ∃ s₁, x (s.inScope c) = .ok a s₁ ∧ t = s₁.inScope s.scope := by
  simp only [inScope, onScope_eq]
  cases x (s.inScope c) with
  | ok b s₁ => simp [eq_comm, LowerState.scope]
  | error f s₁ => simp

theorem inScope_eq_error {α : Type} {c : Scope} {x : LowerM α} {s t : LowerState}
    {f : LowerFailure} (h : inScope c x s = .error f t) : ∃ s₁, x (s.inScope c) = .error f s₁ := by
  simp only [inScope, onScope_eq] at h
  cases hx : x (s.inScope c) with
  | ok b s₁ => simp [hx] at h
  | error g s₁ =>
      simp only [hx, Result.error.injEq] at h
      exact ⟨s₁, by rw [h.1]⟩

/-- A local binding is taken back by an undo made before it. -/
theorem withLocal_eq_ok {α : Type} {name : String} {b : Binding} {x : LowerM α}
    {s t : LowerState} {a : α} :
    withLocal name b x s = .ok a t ↔ ∃ s₁, x (s.inScope (s.scope.bind name b)) = .ok a s₁ ∧
      t = s₁.inScope (s₁.scope.restore ⟨name, s.scope.lookup? name⟩) := by
  simp only [withLocal, Scope.shadow, onScope_eq]
  change _ ↔ ∃ s₁, x (s.inScope (s.env.scope.bind name b)) = _ ∧ _
  cases x (s.inScope (s.env.scope.bind name b)) with
  | ok b s₁ => simp [eq_comm, LowerState.scope]
  | error f s₁ => simp

theorem withLocal_eq_error {α : Type} {name : String} {b : Binding} {x : LowerM α}
    {s t : LowerState} {f : LowerFailure} (h : withLocal name b x s = .error f t) :
    ∃ s₁, x (s.inScope (s.scope.bind name b)) = .error f s₁ := by
  simp only [withLocal, Scope.shadow, onScope_eq] at h
  change ∃ s₁, x (s.inScope (s.env.scope.bind name b)) = _
  cases hx : x (s.inScope (s.env.scope.bind name b)) with
  | ok b s₁ => simp [hx] at h
  | error g s₁ =>
      simp only [hx, Result.error.injEq] at h
      exact ⟨s₁, by rw [h.1]⟩

end LowerM

end Lowering
