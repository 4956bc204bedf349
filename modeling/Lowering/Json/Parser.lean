import Lowering.Json.Basic
import Lowering.Text.Quoted

/-!
# Reading JSON

The reader goes through the text from left to right and stops at the first character
that cannot be part of a JSON text. Arrays and objects may be nested up to a limit.
The values it returns spell the text that was read. A function that reads a piece of the
text returns it together with the rest.
-/

namespace Lowering

/-- Why a text is not JSON. -/
inductive JsonFault where
  | endsEarly
  | unexpected (c : Char)
  | tooDeep
  deriving DecidableEq, Repr

def JsonFault.message : JsonFault → String
  | .endsEarly => "unexpected end of JSON input"
  | .unexpected c => "invalid character " ++ Text.quote c.toString
  | .tooDeep => "exceeded max depth"

namespace Json

/-- How deep arrays and objects may be nested. -/
def maxDepth : Nat := 10000

/-- The fault of a text that goes on with something else than what is needed. -/
def faultAt : List Char → JsonFault
  | [] => .endsEarly
  | c :: _ => .unexpected c

def readBlank (s : List Char) : Blank × List Char := s.span isBlank

/-- Read the characters of a word. -/
def readWord : List Char → List Char → Except JsonFault (List Char)
  | [], s => .ok s
  | _ :: _, [] => .error .endsEarly
  | a :: word, c :: s => if a = c then readWord word s else .error (.unexpected c)

/-- Read one or more digits. -/
def readDigits (s : List Char) : Except JsonFault (List Char × List Char) :=
  match s.span Char.isDigit with
  | ([], rest) => .error (faultAt rest)
  | (digits, rest) => .ok (digits, rest)

/-- Read the digits before the point. Only a lone zero starts with a zero. -/
def readWhole : List Char → Except JsonFault (List Char × List Char)
  | '0' :: s => .ok (['0'], s)
  | s => readDigits s

def readSign : List Char → List Char × List Char
  | '-' :: s => (['-'], s)
  | s => ([], s)

def readFraction : List Char → Except JsonFault (List Char × List Char)
  | '.' :: s => do
    let (digits, rest) ← readDigits s
    return ('.' :: digits, rest)
  | s => .ok ([], s)

def readExponentSign : List Char → List Char × List Char
  | '+' :: s => (['+'], s)
  | '-' :: s => (['-'], s)
  | s => ([], s)

def readExponent : List Char → Except JsonFault (List Char × List Char)
  | [] => .ok ([], [])
  | e :: s =>
    if e = 'e' ∨ e = 'E' then do
      let (sign, s) := readExponentSign s
      let (digits, rest) ← readDigits s
      return (e :: sign ++ digits, rest)
    else .ok ([], e :: s)

/-- Read the lexeme of a number. -/
def readNumber (s : List Char) : Except JsonFault (List Char × List Char) := do
  let (sign, s) := readSign s
  let (whole, s) ← readWhole s
  let (fraction, s) ← readFraction s
  let (exponent, s) ← readExponent s
  return (sign ++ whole ++ fraction ++ exponent, s)

/-- Read the parts of a string up to and including the closing quote. -/
def readParts : List Char → Except JsonFault (List StringPart × List Char)
  | [] => .error .endsEarly
  | '"' :: s => .ok ([], s)
  | '\\' :: 'u' :: a :: b :: c :: d :: s =>
    if [a, b, c, d].all StringPart.isHexDigit then do
      let (parts, rest) ← readParts s
      return (.unit [a, b, c, d] :: parts, rest)
    else .error (faultAt ([a, b, c, d].dropWhile StringPart.isHexDigit))
  | '\\' :: 'u' :: s => .error (faultAt (s.dropWhile StringPart.isHexDigit))
  | '\\' :: letter :: s =>
    if (StringPart.unescape? letter).isSome then do
      let (parts, rest) ← readParts s
      return (.escape letter :: parts, rest)
    else .error (.unexpected letter)
  | '\\' :: [] => .error .endsEarly
  | c :: s =>
    if c.toNat < 0x20 then .error (.unexpected c)
    else do
      let (parts, rest) ← readParts s
      return (.plain c :: parts, rest)

/-- Read a string with its quotes. -/
def readString : List Char → Except JsonFault (List StringPart × List Char)
  | '"' :: s => readParts s
  | s => .error (faultAt s)

/-- Read a key of an object up to its value. -/
def readKey (s : List Char) : Except JsonFault (JsonKey × List Char) := do
  let (before, s) := readBlank s
  let (parts, s) ← readString s
  let (beforeColon, s) := readBlank s
  let s ← readWord [':'] s
  let (afterColon, s) := readBlank s
  return ({ before, parts, beforeColon, afterColon }, s)

mutual

/-- Read a value that may hold `depth` more levels of arrays and objects. `fuel` bounds
the number of calls; twice the length of the text is enough. -/
def readValue (depth : Nat) : Nat → List Char → Except JsonFault (Json × List Char)
  | 0, _ => .error .tooDeep
  | _ + 1, [] => .error .endsEarly
  | fuel + 1, c :: s =>
    if c = 'n' then do
      let rest ← readWord "ull".toList s
      return (.null, rest)
    else if c = 't' then do
      let rest ← readWord "rue".toList s
      return (.bool true, rest)
    else if c = 'f' then do
      let rest ← readWord "alse".toList s
      return (.bool false, rest)
    else if c = '"' then do
      let (parts, rest) ← readParts s
      return (.string parts, rest)
    else if c = '[' then
      match depth with
      | 0 => .error .tooDeep
      | depth + 1 =>
        let (blank, rest) := readBlank s
        match readWord [']'] rest with
        | .ok rest => .ok (.emptyArray blank, rest)
        | .error _ => do
          let (items, rest) ← readItems depth fuel s
          return (.array items, rest)
    else if c = openBrace then
      match depth with
      | 0 => .error .tooDeep
      | depth + 1 =>
        let (blank, rest) := readBlank s
        match readWord [closeBrace] rest with
        | .ok rest => .ok (.emptyObject blank, rest)
        | .error _ => do
          let (members, rest) ← readMembers depth fuel s
          return (.object members, rest)
    else if c = '-' ∨ c.isDigit then do
      let (lexeme, rest) ← readNumber (c :: s)
      return (.number lexeme, rest)
    else .error (.unexpected c)

/-- Read the items of an array that has some, up to and including its bracket. -/
def readItems (depth : Nat) : Nat → List Char → Except JsonFault (JsonItems × List Char)
  | 0, _ => .error .tooDeep
  | fuel + 1, s => do
    let (before, s) := readBlank s
    let (value, s) ← readValue depth fuel s
    let (after, s) := readBlank s
    match s with
    | ',' :: s =>
      let (others, rest) ← readItems depth fuel s
      return (.more before value after others, rest)
    | s =>
      let rest ← readWord [']'] s
      return (.last before value after, rest)

/-- Read the members of an object that has some, up to and including its brace. -/
def readMembers (depth : Nat) : Nat → List Char → Except JsonFault (JsonMembers × List Char)
  | 0, _ => .error .tooDeep
  | fuel + 1, s => do
    let (key, s) ← readKey s
    let (value, s) ← readValue depth fuel s
    let (after, s) := readBlank s
    match s with
    | ',' :: s =>
      let (others, rest) ← readMembers depth fuel s
      return (.more key value after others, rest)
    | s =>
      let rest ← readWord [closeBrace] s
      return (.last key value after, rest)

end

end Json

/-- Read a text that holds one value and nothing else. -/
def Document.parse (s : List Char) : Except JsonFault Document := do
  let (before, s) := Json.readBlank s
  let (value, s) ← Json.readValue Json.maxDepth (2 * s.length + 1) s
  let (after, s) := Json.readBlank s
  match s with
  | [] => return { before, value, after }
  | c :: _ => .error (.unexpected c)

end Lowering
