import Lowering.Expr.Basic
import Lowering.Json.Basic

/-!
# Programs as records

The form in which programs are shown to people: a node is a record of named fields
between braces, a list stands between brackets, and names are not quoted.
-/

namespace Lowering

/-- A record with the given fields. -/
def recordText (fields : List (String × String)) : String :=
  openBrace.toString ++ " ".intercalate (fields.map fun (key, value) => key ++ ":" ++ value) ++
    closeBrace.toString

def listText (items : List String) : String := "[" ++ " ".intercalate items ++ "]"

mutual

def Expr.recordForm : Expr → String
  | .var x => recordText [("Name", x)]
  | .ctor c => recordText [("Name", c)]
  | .num n => recordText [("Value", toString n.toInt)]
  | .char n => recordText [("Value", toString n.toInt)]
  | .caseOf scrutinee branches =>
    recordText [("Scrutinee", scrutinee.recordForm), ("Branches", listText (branchForms branches))]
  | .letIn x value body =>
    recordText [("Name", x), ("Value", value.recordForm), ("Body", body.recordForm)]
  | .lam x body => recordText [("Param", x), ("Body", body.recordForm)]
  | .app f a => recordText [("Func", f.recordForm), ("Arg", a.recordForm)]
  | .missing => "<nil>"
  | .foreign kind => kind

def branchForms : List Branch → List String
  | [] => []
  | .mk c params body :: rest =>
    recordText [("Constructor", c), ("Params", listText params), ("Body", body.recordForm)] ::
      branchForms rest

end

def Def.recordForm (d : Def) : String :=
  recordText [("Name", d.name), ("Body", d.body.recordForm)]

def Program.recordForm (p : Program) : String := listText (p.map Def.recordForm)

end Lowering
