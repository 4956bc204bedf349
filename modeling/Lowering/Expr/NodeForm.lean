import Lowering.Expr.TaggedArray
import Lowering.Expr.TaggedForm

/-!
# What programs are read from

`Piece.ReadAs` says which JSON values are read as a piece of a program. A list of pieces is read
from an array, and a node from an array of its kind and its fields; `Piece.node?` says what
the fields of a node are. Besides, `null` is read as the empty name, as zero and as an empty list.

`Json.faults` lists what is wrong with a value, in the order in which a reader meets it. A
value that is no node of a known kind with the right number of fields has one fault. All
other nodes have the faults of their fields, from left to right.
-/

namespace Lowering

/-- A piece of a program. -/
inductive Piece where
  | name (text : String)
  | word (value : Int64)
  | params (names : List String)
  | branches (branches : List Branch)
  | expr (e : Expr)
  | branch (b : Branch)
  | definition (d : Def)
  | program (p : Program)

namespace Piece

/-- The pieces of a list. -/
def items? : Piece → Option (List Piece)
  | .params names => some (names.map .name)
  | .branches bs => some (bs.map .branch)
  | .program p => some (p.map .definition)
  | _ => none

/-- The kind of a node and its fields. -/
def node? : Piece → Option (NodeKind × List Piece)
  | .definition d => some (.definition, [.name d.name, .expr d.body])
  | .branch (.mk c xs body) => some (.branch, [.name c, .params xs, .expr body])
  | .expr (.var x) => some (.expr .var, [.name x])
  | .expr (.ctor c) => some (.expr .ctor, [.name c])
  | .expr (.num n) => some (.expr .num, [.word n])
  | .expr (.char n) => some (.expr .char, [.word n])
  | .expr (.caseOf scrutinee bs) => some (.expr .caseOf, [.expr scrutinee, .branches bs])
  | .expr (.letIn x value body) => some (.expr .letIn, [.name x, .expr value, .expr body])
  | .expr (.lam x body) => some (.expr .lam, [.name x, .expr body])
  | .expr (.app f a) => some (.expr .app, [.expr f, .expr a])
  | _ => none

mutual

/-- The value is read as the piece. -/
inductive ReadAs : Piece → Json → Prop where
  | noName : ReadAs (.name "") .null
  | name {parts : List StringPart} :
      ReadAs (.name (String.ofList (StringPart.content parts))) (.string parts)
  | noWord : ReadAs (.word 0) .null
  | word {n : Int64} {lexeme : List Char} (digits : (Json.number lexeme).IsWord n) :
      ReadAs (.word n) (.number lexeme)
  | noItems {piece : Piece} (list : piece.items? = some []) : ReadAs piece .null
  | items {piece : Piece} {pieces : List Piece} {j : Json} {values : List Json}
      (list : piece.items? = some pieces) (array : j.elements? = some values)
      (each : AllReadAs pieces values) : ReadAs piece j
  | node {piece : Piece} {kind : NodeKind} {pieces : List Piece} {j k : Json} {fields : List Json}
      (node : piece.node? = some (kind, pieces)) (array : j.elements? = some (k :: fields))
      (word : ReadAs (.name kind.name) k) (each : AllReadAs pieces fields) : ReadAs piece j

/-- The values are read as the pieces, one for one. -/
inductive AllReadAs : List Piece → List Json → Prop where
  | nil : AllReadAs [] []
  | cons {piece : Piece} {pieces : List Piece} {j : Json} {js : List Json} (first : ReadAs piece j)
      (rest : AllReadAs pieces js) : AllReadAs (piece :: pieces) (j :: js)

end

end Piece

/-- What should stand in a place. Names and numbers belong to a node of a kind. -/
inductive Place where
  | name (owner : NodeKind)
  | word (owner : NodeKind)
  | param
  | params
  | branches
  | expr
  | branch
  | definition
  | program
  deriving DecidableEq, Repr

/-- A place in a node or in a list, and the steps that lead to it. -/
structure Field where
  place : Place
  path : List DecodeStep := []
  deriving DecidableEq, Repr

/-- The same failure seen from the node or list that the field is in. -/
def Field.locate (field : Field) (f : DecodeFailure) : DecodeFailure :=
  ⟨field.path ++ f.path, f.cause⟩

/-- The fields of a node. `name` is the name that it has, if it has one. -/
def NodeKind.fields (name : String) : NodeKind → List Field
  | .definition => [{ place := .name .definition }, { place := .expr, path := [.body name] }]
  | .branch =>
    [{ place := .name .branch }, { place := .params }, { place := .expr, path := [.body name] }]
  | .expr .var => [{ place := .name (.expr .var) }]
  | .expr .ctor => [{ place := .name (.expr .ctor) }]
  | .expr .num => [{ place := .word (.expr .num) }]
  | .expr .char => [{ place := .word (.expr .char) }]
  | .expr .caseOf => [{ place := .expr, path := [.scrutinee] }, { place := .branches }]
  | .expr .letIn =>
    [{ place := .name (.expr .letIn) }, { place := .expr, path := [.letValue name] },
      { place := .expr, path := [.letBody name] }]
  | .expr .lam =>
    [{ place := .name (.expr .lam) }, { place := .expr, path := [.lambda name] }]
  | .expr .app => [{ place := .expr, path := [.func] }, { place := .expr, path := [.arg] }]

/-- What a value has to be in a place. -/
inductive Shape where
  | text
  | number
  /-- A list, with a field for each index. -/
  | list (item : Nat → Field)
  /-- A node of one of the given kinds. -/
  | node (kinds : List NodeKind)

namespace Place

def shape : Place → Shape
  | .name _ | .param => .text
  | .word _ => .number
  | .params => .list fun _ => { place := .param }
  | .branches => .list fun i => { place := .branch, path := [.branch i] }
  | .program => .list fun i => { place := .definition, path := [.definition i] }
  | .expr => .node (ExprKind.all.map .expr)
  | .branch => .node [.branch]
  | .definition => .node [.definition]

/-- The pieces that may stand in a place. -/
def Holds : Place → Piece → Prop
  | .name _, .name _ | .param, .name _ | .word _, .word _ | .params, .params _ => True
  | .branches, .branches _ | .expr, .expr _ | .branch, .branch _ => True
  | .definition, .definition _ | .program, .program _ => True
  | _, _ => False

/-- The value is read as something that may stand in the place. -/
def Accepts (place : Place) (j : Json) : Prop := ∃ piece, place.Holds piece ∧ piece.ReadAs j

/-- The fault of a value that has another shape than the place. -/
def mismatch (place : Place) (j : Json) : DecodeFailure :=
  match place with
  | .name owner => .here (.malformed owner (.notString j.raw))
  | .word owner => .here (.malformed owner (.notInteger j.raw))
  | .param => .here (.malformed (some .branch) (.paramNotString j.kind))
  | .params => .here (.malformed (some .branch) (.paramsNotArray j.kind))
  | .branches => .here (.malformed (some (.expr .caseOf)) (.branchesNotArray j.kind))
  | .program => ⟨[.program], .notProgram j.kind⟩
  | _ => .here (.malformed none (.notArray j.kind))

/-- The faults of a value without items. -/
def faultsWithoutItems (place : Place) (j : Json) : List DecodeFailure :=
  match place.shape, j with
  | .text, j => if j.string?.isSome then [] else [place.mismatch j]
  | .number, j => if j.int64?.isSome then [] else [place.mismatch j]
  | .list _, .null | .list _, .emptyArray _ => []
  | .node _, .null | .node _, .emptyArray _ => [.here (.malformed none .empty)]
  | _, j => [place.mismatch j]

end Place

/-- The kind that a node starts with, out of the given ones, or what is wrong with it. -/
def Json.kindAmong (kinds : List NodeKind) (k : Json) : Except DecodeFailure NodeKind :=
  match k.string? with
  | none => .error (.here (.malformed none (.kindNotString k.raw)))
  | some word =>
    match kinds.find? (·.name == word) with
    | none => .error (.here (.unsupported word))
    | some kind => .ok kind

/-- The name that the fields of a node start with. -/
def JsonItems.name : JsonItems → String
  | .last _ x _ | .more _ x _ _ => x.string?.getD ""

mutual

/-- The faults of a value in a place, in the order in which they are met. -/
def Json.faults (place : Place) : Json → List DecodeFailure
  | .array items =>
    match place.shape with
    | .list item => items.faults ((List.range items.length).map item)
    | .node kinds => items.nodeFaults kinds
    | _ => [place.mismatch (.array items)]
  | j => place.faultsWithoutItems j

/-- The faults of an array of a kind and fields. The fields only count if the kind is known and
their number is right. -/
def JsonItems.nodeFaults (kinds : List NodeKind) : JsonItems → List DecodeFailure
  | .last _ k _ =>
    match k.kindAmong kinds with
    | .error f => [f]
    | .ok kind => [.here (.malformed kind (.fieldCount kind.arity 0))]
  | .more _ k _ fields =>
    match k.kindAmong kinds with
    | .error f => [f]
    | .ok kind =>
      if fields.length = kind.arity then fields.faults (kind.fields fields.name)
      else [.here (.malformed kind (.fieldCount kind.arity fields.length))]

/-- The faults of values in their places. -/
def JsonItems.faults : List Field → JsonItems → List DecodeFailure
  | [], _ => []
  | field :: _, .last _ j _ => (j.faults field.place).map field.locate
  | field :: fields, .more _ j _ rest =>
    (j.faults field.place).map field.locate ++ rest.faults fields

end

end Lowering
