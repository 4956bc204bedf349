import Mathlib.Data.List.Forall2
import Lowering.Expr.Basic
import Lowering.Json.Grammar

/-!
# How programs are written

`WrittenAs` says which JSON values write an expression, a branch, a definition or a program.
Each node is an array of its kind and its fields. A string may be spelled with any escapes, an
array may have any blanks, and zero may have a sign. A missing or foreign expression has no
written form.

A document `Writes` a program if its text is legal and its value writes the program. `toJson`
is one written form of each program, without blanks and with as few escapes as possible.
-/

namespace Lowering
namespace Json

/-- The items of an array. -/
def elements? : Json → Option (List Json)
  | .emptyArray _ => some []
  | .array items => some items.toList
  | _ => none

/-- The value is a string that writes the given text. -/
def IsString (s : String) : Json → Prop
  | .string parts => StringPart.Spells parts s.toList
  | _ => False

/-- The value is the given number in decimal digits. -/
def IsWord (n : Int64) : Json → Prop
  | .number lexeme => lexeme = (toString n.toInt).toList ∨ n = 0 ∧ lexeme = ['-', '0']
  | _ => False

/-- The value is an array of strings that write the given texts. -/
def IsStrings (ss : List String) (j : Json) : Prop :=
  ∃ items, j.elements? = some items ∧ List.Forall₂ IsString ss items

/-- The value is an array of a kind and the given fields. -/
def IsNode (kind : String) (fields : List Json) (j : Json) : Prop :=
  ∃ k : Json, k.IsString kind ∧ j.elements? = some (k :: fields)

end Json

mutual

/-- The value writes the expression. -/
def Expr.WrittenAs : Expr → Json → Prop
  | .var name, j => ∃ x : Json, j.IsNode "ExprVar" [x] ∧ x.IsString name
  | .ctor name, j => ∃ x : Json, j.IsNode "ExprConstructor" [x] ∧ x.IsString name
  | .num value, j => ∃ n : Json, j.IsNode "ExprNumber" [n] ∧ n.IsWord value
  | .char value, j => ∃ n : Json, j.IsNode "ExprChar" [n] ∧ n.IsWord value
  | .caseOf scrutinee branches, j => ∃ e bs items, j.IsNode "ExprCase" [e, bs] ∧
      scrutinee.WrittenAs e ∧ bs.elements? = some items ∧ branchesWrittenAs branches items
  | .letIn name value body, j => ∃ x v b, j.IsNode "ExprLet" [x, v, b] ∧ x.IsString name ∧
      value.WrittenAs v ∧ body.WrittenAs b
  | .lam param body, j => ∃ x b, j.IsNode "ExprLambda" [x, b] ∧ x.IsString param ∧
      body.WrittenAs b
  | .app func arg, j => ∃ f a, j.IsNode "ExprApply" [f, a] ∧ func.WrittenAs f ∧
      arg.WrittenAs a
  | .missing, _ => False
  | .foreign _, _ => False

/-- The values write the branches in their order. -/
def branchesWrittenAs : List Branch → List Json → Prop
  | [], items => items = []
  | .mk ctor params body :: branches, items => ∃ j rest x ps b, items = j :: rest ∧
      j.IsNode "CaseBranch" [x, ps, b] ∧ x.IsString ctor ∧ ps.IsStrings params ∧
      body.WrittenAs b ∧ branchesWrittenAs branches rest

end

/-- The value writes the definition. -/
def Def.WrittenAs (d : Def) (j : Json) : Prop :=
  ∃ x b, j.IsNode "Def" [x, b] ∧ x.IsString d.name ∧ d.body.WrittenAs b

/-- The value writes the program. -/
def Program.WrittenAs (p : Program) (j : Json) : Prop :=
  ∃ items, j.elements? = some items ∧ List.Forall₂ Def.WrittenAs p items

/-- The text of the document is legal JSON and writes the program. -/
structure Document.Writes (d : Document) (p : Program) : Prop where
  legal : d.Legal
  written : p.WrittenAs d.value

/-- The part that writes a character: the character itself, or its unit if it needs an escape. -/
def StringPart.ofChar (c : Char) : StringPart :=
  if c.toNat < 0x20 ∨ c = '"' ∨ c = '\\' then
    .unit ['0', '0', Nat.digitChar (c.toNat / 16), Nat.digitChar (c.toNat % 16)]
  else .plain c

def JsonItems.ofList (value : Json) : List Json → JsonItems
  | [] => .last [] value []
  | next :: rest => .more [] value [] (.ofList next rest)

namespace Json

def ofString (s : String) : Json := .string (s.toList.map StringPart.ofChar)

def ofWord (n : Int64) : Json := .number (toString n.toInt).toList

def ofList : List Json → Json
  | [] => .emptyArray []
  | value :: rest => .array (.ofList value rest)

def node (kind : String) (fields : List Json) : Json := ofList (ofString kind :: fields)

end Json

mutual

def Expr.toJson : Expr → Json
  | .var name => .node "ExprVar" [.ofString name]
  | .ctor name => .node "ExprConstructor" [.ofString name]
  | .num value => .node "ExprNumber" [.ofWord value]
  | .char value => .node "ExprChar" [.ofWord value]
  | .caseOf scrutinee branches =>
    .node "ExprCase" [scrutinee.toJson, .ofList (branchesToJson branches)]
  | .letIn name value body => .node "ExprLet" [.ofString name, value.toJson, body.toJson]
  | .lam param body => .node "ExprLambda" [.ofString param, body.toJson]
  | .app func arg => .node "ExprApply" [func.toJson, arg.toJson]
  | .missing => .null
  | .foreign _ => .null

def branchesToJson : List Branch → List Json
  | [] => []
  | .mk ctor params body :: branches =>
    .node "CaseBranch" [.ofString ctor, .ofList (params.map .ofString), body.toJson] ::
      branchesToJson branches

end

def Def.toJson (d : Def) : Json := .node "Def" [.ofString d.name, d.body.toJson]

def Program.toJson (p : Program) : Json := .ofList (p.map Def.toJson)

/-- The text of a program without blanks around it. -/
def Program.document (p : Program) : Document := ⟨[], p.toJson, []⟩

end Lowering
