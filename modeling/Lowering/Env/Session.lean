import Lowering.Env.Basic

/-!
# Sessions

A session is a history of environments that were derived from one root. They are
numbered in order of creation, the root being 0, and so are the undos of their
shadowings. All of them see one register counter and one set of globals.
-/

namespace Lowering

structure Session where
  shared : Shared := {}
  scopes : List Scope := [{}]
  /-- Each undo with the number of the scope that it is for. -/
  undos : List (Nat × Undo) := []
  deriving DecidableEq, Repr

instance : Inhabited Session := ⟨{}⟩

/-- What can be done to an environment. -/
inductive Action where
  | fresh
  /-- Derive the environment of a routine with its closure in a register. -/
  | routine (closure : Reg)
  | declare (name : String)
  | bind (name : String) (binding : Binding)
  | unbind (name : String)
  | shadow (name : String) (binding : Binding)
  /-- Run the undo with the given number. It may belong to any environment, and
  may be run in any order and more than once. -/
  | restore (undo : Nat)
  deriving DecidableEq, Repr

/-- What an action answers. -/
inductive Answer where
  | done
  | reg (r : Reg)
  /-- The number of a new environment or undo. -/
  | number (n : Nat)
  | flag (b : Bool)
  deriving DecidableEq, Repr

namespace Session

/-- The environment with number `n`. -/
def env? (s : Session) (n : Nat) : Option Env := (s.scopes[n]?).map (⟨s.shared, ·⟩)

/-- Change the scope with number `n`. -/
def modifyScope (s : Session) (n : Nat) (f : Scope → Scope) : Session :=
  { s with scopes := s.scopes.modify n f }

/-- Do one thing to environment `n`. Registers and globals are handed out whatever `n`
is. Without such an environment, or such an undo, no binding changes. -/
def step (s : Session) (n : Nat) : Action → Answer × Session
  | .fresh => (.reg s.shared.fresh.1, { s with shared := s.shared.fresh.2 })
  | .routine closure =>
    (.number s.scopes.length, { s with scopes := s.scopes ++ [Scope.routine closure] })
  | .declare name =>
    (.flag (s.shared.declare name).1, { s with shared := (s.shared.declare name).2 })
  | .bind name b => (.done, s.modifyScope n (·.bind name b))
  | .unbind name => (.done, s.modifyScope n (·.unbind name))
  | .shadow name b =>
    match s.scopes[n]? with
    | none => (.done, s)
    | some scope =>
      (.number s.undos.length,
        { s.modifyScope n (fun _ => (scope.shadow name b).2) with
          undos := s.undos ++ [(n, (scope.shadow name b).1)] })
  | .restore k =>
    match s.undos[k]? with
    | none => (.done, s)
    | some (owner, u) => (.done, s.modifyScope owner (·.restore u))

end Session
end Lowering
