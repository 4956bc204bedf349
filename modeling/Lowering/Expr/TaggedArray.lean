import Lowering.Expr.Kind
import Lowering.Failure
import Lowering.Json.Parser

/-!
# Programs as tagged arrays

A program is written as a JSON array of definitions, and each definition, expression
and branch as an array that starts with its kind: `["Def", name, expr]`,
`["ExprLambda", param, expr]` and so on. A node is checked in this order: its kind, the
number of its fields, the fields from left to right. The first fault is reported with
the path to it.

`null` is accepted in place of any part: it is the program without definitions, the
empty name, the number zero, the empty list of branches or parameters, and a node
without a kind, which is a fault.
-/

namespace Lowering

/-- What is wrong with a node. `text` is the text of the value at fault. -/
inductive NodeFault where
  | notArray (found : JsonKind)
  | empty
  | kindNotString (text : String)
  | fieldCount (expected found : Nat)
  | notString (text : String)
  | notInteger (text : String)
  | branchesNotArray (found : JsonKind)
  | paramsNotArray (found : JsonKind)
  | paramNotString (found : JsonKind)
  deriving DecidableEq, Repr

/-- A value of another kind stands where a value of type `wanted` is read. -/
def kindMismatch (found : JsonKind) (wanted : String) : String :=
  "json: cannot unmarshal " ++ found.name ++ " into Go value of type " ++ wanted

def NodeFault.message : NodeFault → String
  | .notArray found => "node is not an array: " ++ kindMismatch found "[]json.RawMessage"
  | .empty => "empty node"
  | .kindNotString text => "node kind is not a string: " ++ text
  | .fieldCount expected found =>
    toString expected ++ " fields expected, got " ++ toString found
  | .notString text => "string expected, got " ++ text
  | .notInteger text => "integer expected, got " ++ text
  | .branchesNotArray found => "branches: " ++ kindMismatch found "[]json.RawMessage"
  | .paramsNotArray found => "params: " ++ kindMismatch found "[]string"
  | .paramNotString found => "params: " ++ kindMismatch found "string"

/-- Why a text is no program. -/
inductive DecodeError where
  | notJson (fault : JsonFault)
  /-- The text is JSON, but no array. -/
  | notProgram (found : JsonKind)
  /-- A node of a known kind, or of a kind that could not be read, is at fault. -/
  | malformed (kind : Option NodeKind) (fault : NodeFault)
  /-- The kind is unknown, or does not belong in this place. -/
  | unsupported (kind : String)
  deriving DecidableEq, Repr

def DecodeError.message : DecodeError → String
  | .notJson fault => fault.message
  | .notProgram found => kindMismatch found "[]json.RawMessage"
  | .malformed none fault => "malformed node: " ++ fault.message
  | .malformed (some kind) fault => "malformed " ++ kind.name ++ " node: " ++ fault.message
  | .unsupported kind => "unsupported construct: " ++ Text.quote kind

/-- Where in a program the reader is. -/
inductive DecodeStep where
  | program
  | definition (index : Nat)
  /-- The body of the definition or branch with this name. -/
  | body (name : String)
  | letValue (name : String)
  | letBody (name : String)
  | lambda (param : String)
  | func
  | arg
  | scrutinee
  | branch (index : Nat)
  deriving DecidableEq, Repr

def DecodeStep.text : DecodeStep → String
  | .program => "program"
  | .definition index => "def " ++ toString index
  | .body name => name
  | .letValue name => "let " ++ name ++ ": value"
  | .letBody name => "let " ++ name ++ ": body"
  | .lambda param => "lambda " ++ param
  | .func => "apply: func"
  | .arg => "apply: arg"
  | .scrutinee => "case: scrutinee"
  | .branch index => "case: branch " ++ toString index

abbrev DecodeFailure := Failure DecodeStep DecodeError

namespace DecodeFailure

def message (f : DecodeFailure) : String := Failure.message DecodeStep.text DecodeError.message f

end DecodeFailure

/-- Record on which step of the path a failure arose. -/
def DecodeStep.around {α : Type} (step : DecodeStep) (x : Except DecodeFailure α) :
    Except DecodeFailure α :=
  x.mapError (Failure.inside step)

def malformed {α : Type} (kind : Option NodeKind) (fault : NodeFault) :
    Except DecodeFailure α :=
  .error (.here (.malformed kind fault))

namespace Json

/-- The string that a value is; `null` is the empty string. -/
def string? : Json → Option String
  | .null => some ""
  | .string parts => some (String.ofList (StringPart.content parts))
  | _ => none

/-- The word that a value is; `null` is zero. -/
def int64? : Json → Option Int64
  | .null => some 0
  | .number lexeme => integer? lexeme
  | _ => none

/-- Read a field that holds a name. -/
def readName (kind : NodeKind) (j : Json) : Except DecodeFailure String :=
  match j.string? with
  | some s => .ok s
  | none => malformed kind (.notString j.raw)

/-- Read a field that holds a word. -/
def readInt64 (kind : NodeKind) (j : Json) : Except DecodeFailure Int64 :=
  match j.int64? with
  | some n => .ok n
  | none => malformed kind (.notInteger j.raw)

/-- Read the first item of a node. -/
def readKind (j : Json) : Except DecodeFailure String :=
  match j.string? with
  | some s => .ok s
  | none => malformed none (.kindNotString j.raw)

/-- Read the first item of a node that has to be of the given kind. -/
def expectKind (kind : NodeKind) (j : Json) : Except DecodeFailure Unit := do
  let name ← readKind j
  if name = kind.name then return () else .error (.here (.unsupported name))

/-- Read the first item of an expression. -/
def readExprKind (j : Json) : Except DecodeFailure ExprKind := do
  let name ← readKind j
  match ExprKind.ofName? name with
  | some kind => return kind
  | none => .error (.here (.unsupported name))

/-- Read a parameter. -/
def readParam (j : Json) : Except DecodeFailure String :=
  match j.string? with
  | some s => .ok s
  | none => malformed (some .branch) (.paramNotString j.kind)

/-- Read the parameters of a branch. -/
def readParams : Json → Except DecodeFailure (List String)
  | .null => .ok []
  | .emptyArray _ => .ok []
  | .array items => items.toList.mapM readParam
  | j => malformed (some .branch) (.paramsNotArray j.kind)

/-- The failure of a value that is no node, or a node without a kind. -/
def noNode {α : Type} : Json → Except DecodeFailure α
  | .null => malformed none .empty
  | .emptyArray _ => malformed none .empty
  | j => malformed none (.notArray j.kind)

end Json

/-- The failure of a node with a wrong number of fields. -/
def wrongArity {α : Type} (kind : NodeKind) (found : Nat) : Except DecodeFailure α :=
  malformed kind (.fieldCount kind.arity found)

mutual

/-- Read an expression. The kind is read first, however many fields there are. -/
def Expr.ofJson : Json → Except DecodeFailure Expr
  | .array (.last _ k _) => do
    let kind ← k.readExprKind
    wrongArity (.expr kind) 0
  | .array (.more _ k _ (.last _ x _)) => do
    match ← k.readExprKind with
    | .var => return .var (← x.readName (.expr .var))
    | .ctor => return .ctor (← x.readName (.expr .ctor))
    | .num => return .num (← x.readInt64 (.expr .num))
    | .char => return .char (← x.readInt64 (.expr .char))
    | kind => wrongArity (.expr kind) 1
  | .array (.more _ k _ (.more _ x _ (.last _ y _))) => do
    match ← k.readExprKind with
    | .caseOf => do
      let scrutinee ← DecodeStep.scrutinee.around (Expr.ofJson x)
      let branches ← branchesOfJson y
      return .caseOf scrutinee branches
    | .lam => do
      let param ← x.readName (.expr .lam)
      let body ← (DecodeStep.lambda param).around (Expr.ofJson y)
      return .lam param body
    | .app => do
      let func ← DecodeStep.func.around (Expr.ofJson x)
      let arg ← DecodeStep.arg.around (Expr.ofJson y)
      return .app func arg
    | kind => wrongArity (.expr kind) 2
  | .array (.more _ k _ (.more _ x _ (.more _ y _ (.last _ z _)))) => do
    match ← k.readExprKind with
    | .letIn => do
      let name ← x.readName (.expr .letIn)
      let value ← (DecodeStep.letValue name).around (Expr.ofJson y)
      let body ← (DecodeStep.letBody name).around (Expr.ofJson z)
      return .letIn name value body
    | kind => wrongArity (.expr kind) 3
  | .array (.more _ k _ fields) => do
    let kind ← k.readExprKind
    wrongArity (.expr kind) fields.length
  | j => j.noNode

/-- Read the branches of a case. -/
def branchesOfJson : Json → Except DecodeFailure (List Branch)
  | .null => .ok []
  | .emptyArray _ => .ok []
  | .array items => branchesOfItems 0 items
  | j => malformed (some (.expr .caseOf)) (.branchesNotArray j.kind)

/-- Read branches, which are numbered from `index` on. -/
def branchesOfItems (index : Nat) : JsonItems → Except DecodeFailure (List Branch)
  | .last _ b _ => do
    let branch ← (DecodeStep.branch index).around (Branch.ofJson b)
    return [branch]
  | .more _ b _ rest => do
    let branch ← (DecodeStep.branch index).around (Branch.ofJson b)
    let others ← branchesOfItems (index + 1) rest
    return branch :: others

/-- Read a branch. -/
def Branch.ofJson : Json → Except DecodeFailure Branch
  | .array (.last _ k _) => do
    k.expectKind .branch
    wrongArity .branch 0
  | .array (.more _ k _ fields) => do
    k.expectKind .branch
    match fields with
    | .more _ c _ (.more _ ps _ (.last _ b _)) => do
      let ctor ← c.readName .branch
      let params ← ps.readParams
      let body ← (DecodeStep.body ctor).around (Expr.ofJson b)
      return .mk ctor params body
    | fields => wrongArity .branch fields.length
  | j => j.noNode

end

/-- Read a definition. -/
def Def.ofJson : Json → Except DecodeFailure Def
  | .array (.last _ k _) => do
    k.expectKind .definition
    wrongArity .definition 0
  | .array (.more _ k _ fields) => do
    k.expectKind .definition
    match fields with
    | .more _ x _ (.last _ b _) => do
      let name ← x.readName .definition
      let body ← (DecodeStep.body name).around (Expr.ofJson b)
      return ⟨name, body⟩
    | fields => wrongArity .definition fields.length
  | j => j.noNode

namespace Program

/-- Read definitions, which are numbered from `index` on. -/
def ofItems (index : Nat) : JsonItems → Except DecodeFailure Program
  | .last _ d _ => do
    let definition ← (DecodeStep.definition index).around (Def.ofJson d)
    return [definition]
  | .more _ d _ rest => do
    let definition ← (DecodeStep.definition index).around (Def.ofJson d)
    let others ← ofItems (index + 1) rest
    return definition :: others

/-- Read a program from a JSON value. -/
def ofJson : Json → Except DecodeFailure Program
  | .null => .ok []
  | .emptyArray _ => .ok []
  | .array items => ofItems 0 items
  | j => .error ⟨[.program], .notProgram j.kind⟩

/-- Read a program from a text. -/
def ofText (s : List Char) : Except DecodeFailure Program :=
  match Document.parse s with
  | .ok d => ofJson d.value
  | .error fault => .error ⟨[.program], .notJson fault⟩

/-- Read a program from the bytes of a text. -/
def ofBytes (bytes : List UInt8) : Except DecodeFailure Program := ofText (Utf8.decode bytes)

end Program
end Lowering
