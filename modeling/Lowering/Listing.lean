import Lowering.Instr

/-!
# Listings

A listing has one line for each instruction. Marks start at the margin and all
other instructions are indented by a tab.
-/

namespace Lowering

/-- The line of an instruction, with its line end. -/
def Instr.line (i : Instr) : String :=
  match i with
  | .mark _ => i.text ++ "\n"
  | _ => "\t" ++ i.text ++ "\n"

/-- The listing of a piece of code. -/
def Code.listing (code : Code) : String := String.join (code.map Instr.line)

namespace Listing

/-- A listing was asked for code with a gap: no instruction at `position`. -/
structure Gap where
  position : Nat
  deriving DecidableEq, Repr

def Gap.message (g : Gap) : String := "instr " ++ toString g.position ++ ": nil instruction"

/-- The code without gaps, or the first gap, counted from `position`. -/
def closedFrom : Nat → List (Option Instr) → Except Gap Code
  | _, [] => .ok []
  | position, none :: _ => .error ⟨position⟩
  | position, some i :: rest => (closedFrom (position + 1) rest).map (i :: ·)

/-- Append the listing of `code` to `buffer`. -/
def append (buffer : String) (code : List (Option Instr)) : Except Gap String :=
  (closedFrom 0 code).map (buffer ++ Code.listing ·)

end Listing
end Lowering
