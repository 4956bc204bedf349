import Lowering.Instr

/-!
# Generated labels

Definitions are marked by their own names. Routines and cases are marked by labels
of three families, which definitions may not use: `rtn_N` for the routine with
number `N`, `case_N_I` for branch `I` of the case with id `N`, and `case_N_end` for
the end of that case.
-/

namespace Lowering.Label

def routine (n : Nat) : Label := ⟨"rtn_" ++ toString n⟩

def branch (id index : Nat) : Label := ⟨"case_" ++ toString id ++ "_" ++ toString index⟩

def caseEnd (id : Nat) : Label := ⟨"case_" ++ toString id ++ "_end"⟩

/-- One or more decimal digits. -/
def isNumber (s : List Char) : Bool := !s.isEmpty && s.all Char.isDigit

/-- What follows `lead` in a text that starts with it. -/
def after? : List Char → List Char → Option (List Char)
  | [], s => some s
  | _ :: _, [] => none
  | a :: lead, b :: s => if a = b then after? lead s else none

/-- A number, an underscore and a branch: a number or `end`. The number ends at
the first underscore. -/
def isCaseSuffix (s : List Char) : Bool :=
  match s.dropWhile (· ≠ '_') with
  | [] => false
  | _ :: rest => isNumber (s.takeWhile (· ≠ '_')) && (rest == "end".toList || isNumber rest)

/-- Whether a name has the form of a generated label. -/
def isGenerated (name : String) : Bool :=
  match after? "rtn_".toList name.toList with
  | some s => isNumber s
  | none =>
    match after? "case_".toList name.toList with
    | some s => isCaseSuffix s
    | none => false

end Lowering.Label
