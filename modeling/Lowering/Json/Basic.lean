import Lowering.Text.Utf8

/-!
# JSON as it is spelled

A `Json` value keeps everything that its text shows: the blanks between tokens, the
lexemes of numbers and the escapes in strings. `spell` gives the text back, so a
message can quote a value exactly as it was written. What the value means is read
off by `StringPart.content` and `integer?`, which do not depend on the spelling.
-/

namespace Lowering

@[simp] abbrev openBrace : Char := '\x7b'

@[simp] abbrev closeBrace : Char := '\x7d'

/-- Blanks between tokens. -/
abbrev Blank := List Char

def isBlank (c : Char) : Bool := c == ' ' || c == '\t' || c == '\n' || c == '\r'

/-- A part of a string between its quotes. -/
inductive StringPart where
  /-- A character that stands for itself. -/
  | plain (c : Char)
  /-- A backslash and a letter. -/
  | escape (letter : Char)
  /-- A backslash, `u` and four hexadecimal digits, which name a UTF-16 unit. -/
  | unit (digits : List Char)
  deriving DecidableEq, Repr

namespace StringPart

def spell : StringPart → List Char
  | .plain c => [c]
  | .escape letter => ['\\', letter]
  | .unit digits => '\\' :: 'u' :: digits

/-- The character that an escape letter stands for. -/
def unescape? : Char → Option Char
  | '"' => some '"'
  | '\\' => some '\\'
  | '/' => some '/'
  | 'b' => some '\x08'
  | 'f' => some '\x0c'
  | 'n' => some '\n'
  | 'r' => some '\r'
  | 't' => some '\t'
  | _ => none

/-- The value of a hexadecimal digit. -/
def hexDigit? (c : Char) : Option Nat :=
  if '0' ≤ c ∧ c ≤ '9' then some (c.toNat - '0'.toNat)
  else if 'a' ≤ c ∧ c ≤ 'f' then some (c.toNat - 'a'.toNat + 10)
  else if 'A' ≤ c ∧ c ≤ 'F' then some (c.toNat - 'A'.toNat + 10)
  else none

def isHexDigit (c : Char) : Bool := (hexDigit? c).isSome

/-- The number that hexadecimal digits name. -/
def unitValue (digits : List Char) : Nat :=
  digits.foldl (fun n c => 16 * n + (hexDigit? c).getD 0) 0

/-- The character that two UTF-16 units encode together. -/
def surrogatePair? (high low : Nat) : Option Char :=
  if 0xD800 ≤ high ∧ high < 0xDC00 ∧ 0xDC00 ≤ low ∧ low < 0xE000 then
    Utf8.scalar? 0x10000 (0x10000 + (high - 0xD800) * 0x400 + (low - 0xDC00))
  else none

/-- The character of a UTF-16 unit on its own. Half of a pair encodes nothing. -/
def loneUnit (n : Nat) : Char := (Utf8.scalar? 0 n).getD Utf8.replacement

/-- The text that the parts of a string spell. -/
def content : List StringPart → List Char
  | [] => []
  | .plain c :: rest => c :: content rest
  | .escape letter :: rest => (unescape? letter).getD letter :: content rest
  | .unit a :: .unit b :: rest =>
    match surrogatePair? (unitValue a) (unitValue b) with
    | some c => c :: content rest
    | none => loneUnit (unitValue a) :: content (.unit b :: rest)
  | .unit a :: rest => loneUnit (unitValue a) :: content rest

end StringPart

/-- A key of an object with the blanks around it and around the colon. -/
structure JsonKey where
  before : Blank
  parts : List StringPart
  beforeColon : Blank
  afterColon : Blank
  deriving DecidableEq, Repr

mutual

inductive Json where
  | null
  | bool (value : Bool)
  | number (lexeme : List Char)
  | string (parts : List StringPart)
  /-- An array without items, and what stands between its brackets. -/
  | emptyArray (blank : Blank)
  | array (items : JsonItems)
  /-- An object without members, and what stands between its braces. -/
  | emptyObject (blank : Blank)
  | object (members : JsonMembers)

/-- The items of an array, with the blanks before and after each of them. -/
inductive JsonItems where
  | last (before : Blank) (value : Json) (after : Blank)
  | more (before : Blank) (value : Json) (after : Blank) (rest : JsonItems)

/-- The members of an object, with the blanks after each of them. -/
inductive JsonMembers where
  | last (key : JsonKey) (value : Json) (after : Blank)
  | more (key : JsonKey) (value : Json) (after : Blank) (rest : JsonMembers)

end

instance : Inhabited Json := ⟨.null⟩

/-- The parts of a string between quotes. -/
def spellString (parts : List StringPart) : List Char :=
  '"' :: parts.flatMap StringPart.spell ++ ['"']

def JsonKey.spell (k : JsonKey) : List Char :=
  k.before ++ spellString k.parts ++ k.beforeColon ++ ':' :: k.afterColon

mutual

/-- The text of a value. -/
def Json.spell : Json → List Char
  | .null => "null".toList
  | .bool true => "true".toList
  | .bool false => "false".toList
  | .number lexeme => lexeme
  | .string parts => spellString parts
  | .emptyArray blank => '[' :: blank ++ [']']
  | .array items => '[' :: items.spell
  | .emptyObject blank => openBrace :: blank ++ [closeBrace]
  | .object members => openBrace :: members.spell

/-- The text of items up to the closing bracket. -/
def JsonItems.spell : JsonItems → List Char
  | .last before value after => before ++ value.spell ++ after ++ [']']
  | .more before value after rest => before ++ value.spell ++ after ++ ',' :: rest.spell

/-- The text of members up to the closing brace. -/
def JsonMembers.spell : JsonMembers → List Char
  | .last key value after => key.spell ++ value.spell ++ after ++ [closeBrace]
  | .more key value after rest => key.spell ++ value.spell ++ after ++ ',' :: rest.spell

end

/-- The kinds of values. -/
inductive JsonKind where
  | null
  | bool
  | number
  | string
  | array
  | object
  deriving DecidableEq, Repr

def JsonKind.name : JsonKind → String
  | .null => "null"
  | .bool => "bool"
  | .number => "number"
  | .string => "string"
  | .array => "array"
  | .object => "object"

namespace JsonItems

def toList : JsonItems → List Json
  | .last _ value _ => [value]
  | .more _ value _ rest => value :: rest.toList

def length : JsonItems → Nat
  | .last _ _ _ => 1
  | .more _ _ _ rest => rest.length + 1

@[simp] theorem length_toList (items : JsonItems) : items.toList.length = items.length := by
  match items with
  | .last _ _ _ => rfl
  | .more _ _ _ rest => simp [toList, length, length_toList rest]

end JsonItems

namespace Json

def kind : Json → JsonKind
  | .null => .null
  | .bool _ => .bool
  | .number _ => .number
  | .string _ => .string
  | .emptyArray _ => .array
  | .array _ => .array
  | .emptyObject _ => .object
  | .object _ => .object

/-- The text of a value as a string. -/
def raw (j : Json) : String := String.ofList j.spell

/-- The number that decimal digits name. -/
def decimal (digits : List Char) : Nat :=
  digits.foldl (fun n c => 10 * n + (c.toNat - '0'.toNat)) 0

/-- The word that a lexeme names. A lexeme with a fraction or an exponent names none,
nor does one that is out of range. -/
def integer? : List Char → Option Int64
  | '-' :: digits =>
    if digits.all Char.isDigit ∧ decimal digits ≤ 0x8000000000000000 then
      some (Int64.ofInt (-decimal digits))
    else none
  | digits =>
    if digits.all Char.isDigit ∧ decimal digits < 0x8000000000000000 then
      some (Int64.ofNat (decimal digits))
    else none

end Json

/-- A text that holds one value: the value with the blanks around it. -/
structure Document where
  before : Blank
  value : Json
  after : Blank

def Document.spell (d : Document) : List Char := d.before ++ d.value.spell ++ d.after

end Lowering
