import Lowering.Text.Quoted

/-!
# Case dispatch

A case compares the tag of its scrutinee with a number for each branch. There
are two ways to choose these numbers.
-/

namespace Lowering

inductive Dispatch where
  /-- Compare with the position of the branch. -/
  | position
  /-- Compare with the tag of the branch's constructor. -/
  | tag
  deriving DecidableEq, Repr

namespace Dispatch

/-- The number of a way to dispatch. -/
def code : Dispatch → Int
  | .position => 0
  | .tag => 1

/-- The way to dispatch that a number selects. Numbers without a meaning of their
own select `position`. -/
def ofCode (n : Int) : Dispatch := if n = 1 then .tag else .position

/-- The name of a number. -/
def codeName (n : Int) : String :=
  if n = 0 then "position"
  else if n = 1 then "tag"
  else "Dispatch(" ++ toString n ++ ")"

def name (d : Dispatch) : String := codeName d.code

/-- The word names no way to dispatch. -/
structure Unknown where
  word : String
  deriving DecidableEq, Repr

def Unknown.message (u : Unknown) : String := "unknown dispatch: " ++ Text.quote u.word

/-- Read a name. The empty word stands for the default. -/
def parse (word : String) : Except Unknown Dispatch :=
  if word = "" ∨ word = "position" then .ok .position
  else if word = "tag" then .ok .tag
  else .error ⟨word⟩

end Dispatch
end Lowering
