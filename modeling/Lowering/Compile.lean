import Lowering.Expr.TaggedArray
import Lowering.Listing
import Lowering.Lower.Program

/-!
# From program text to listing

Compilation reads a program, lowers it and lists the code.
-/

namespace Lowering

/-- The stage that failed, and why. -/
inductive CompileFailure where
  | decode (failure : DecodeFailure)
  | lower (failure : LowerFailure)
  | list (gap : Listing.Gap)
  deriving DecidableEq, Repr

namespace CompileFailure

def message : CompileFailure → String
  | .decode failure => "decode: " ++ failure.message
  | .lower failure => "compile: " ++ failure.message
  | .list gap => "format: " ++ gap.message

end CompileFailure

/-- The listing of the program whose text has the given bytes. -/
def compile (mode : Dispatch) (bytes : List UInt8) : Except CompileFailure String := do
  let p ← (Program.ofBytes bytes).mapError .decode
  let code ← ((Compiler.new mode).compile p).1.mapError .lower
  (Listing.append "" (code.map some)).mapError .list

end Lowering
