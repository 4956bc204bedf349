import Lowering.Env.Session

/-!
# Environments in memory

An environment is a record in memory. It has the address of the part that it shares with other
environments and the address of the map with its own local names. The environment of a routine
gets the address of the shared part from the one that it is derived from, and a new map. Whether
environments see what is done to another one is a question of addresses.
-/

namespace Lowering

/-- The record of an environment. -/
structure EnvRecord where
  /-- The address of the registers and globals. -/
  shared : Nat
  /-- The address of the map of local names. -/
  bindings : Nat
  closure : Option Reg
  deriving DecidableEq, Repr

/-- The memory of environments that were derived from one root, with the things of each kind in
the order of their addresses. -/
structure EnvMemory where
  shareds : List Shared := [{}]
  maps : List Bindings := [∅]
  envs : List EnvRecord := [⟨0, 0, none⟩]
  /-- What is needed to run an undo: the address of an environment, and what to put back. -/
  undos : List (Nat × Undo) := []
  deriving DecidableEq, Repr

namespace EnvMemory

def shared (m : EnvMemory) (r : EnvRecord) : Shared := m.shareds[r.shared]?.getD {}

def scope (m : EnvMemory) (r : EnvRecord) : Scope := ⟨m.maps[r.bindings]?.getD ∅, r.closure⟩

/-- The environment at an address, with all that its record refers to. -/
def env? (m : EnvMemory) (n : Nat) : Option Env :=
  m.envs[n]?.map fun r => ⟨m.shared r, m.scope r⟩

def writeShared (m : EnvMemory) (r : EnvRecord) (shared : Shared) : EnvMemory :=
  { m with shareds := m.shareds.set r.shared shared }

def writeMap (m : EnvMemory) (r : EnvRecord) (bindings : Bindings) : EnvMemory :=
  { m with maps := m.maps.set r.bindings bindings }

/-- Make the record of an environment with a new map. -/
def allocEnv (m : EnvMemory) (shared : Nat) (closure : Option Reg) : EnvMemory :=
  { m with maps := m.maps ++ [∅], envs := m.envs ++ [⟨shared, m.maps.length, closure⟩] }

/-- Change the local names of the environment at address `n`. -/
def modifyEnv (m : EnvMemory) (n : Nat) (f : Scope → Scope) : EnvMemory :=
  match m.envs[n]? with
  | none => m
  | some r => m.writeMap r (f (m.scope r)).bindings

/-- Do something with the record at address `n`. -/
def withRecord (m : EnvMemory) (n : Nat) (f : EnvRecord → Answer × EnvMemory) :
    Answer × EnvMemory :=
  match m.envs[n]? with
  | none => (.done, m)
  | some r => f r

/-- Do one thing to the environment at address `n`. An undo is run on the environment that it was
made for. -/
def step (m : EnvMemory) (n : Nat) : Action → Answer × EnvMemory
  | .fresh => m.withRecord n fun r =>
    (.reg (m.shared r).fresh.1, m.writeShared r (m.shared r).fresh.2)
  | .declare name => m.withRecord n fun r =>
    (.flag ((m.shared r).declare name).1, m.writeShared r ((m.shared r).declare name).2)
  | .routine closure => m.withRecord n fun r =>
    (.number m.envs.length, m.allocEnv r.shared (some closure))
  | .bind name b => (.done, m.modifyEnv n (·.bind name b))
  | .unbind name => (.done, m.modifyEnv n (·.unbind name))
  | .shadow name b => m.withRecord n fun r =>
    (.number m.undos.length,
      { m.modifyEnv n (·.bind name b) with
        undos := m.undos ++ [(n, ((m.scope r).shadow name b).1)] })
  | .restore k =>
    match m.undos[k]? with
    | none => (.done, m)
    | some (owner, u) => (.done, m.modifyEnv owner (·.restore u))

end EnvMemory
end Lowering
