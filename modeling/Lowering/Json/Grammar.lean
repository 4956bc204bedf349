import Lowering.Json.Basic

/-!
# Legal JSON texts

A `Json` value has a text whatever it is made of. `Legal` says that it is made of what the
grammar of JSON allows: blanks between the tokens, numbers as lexemes, and in strings only
characters that need no escape, escapes that exist and units of four digits. `depth` counts
how deep arrays and objects are nested.

`StringPart.Spells` says which text the parts of a string write. Every character may be
written as itself unless it needs an escape, by the letter of its escape if it has one, and by
one UTF-16 unit or a pair of them.
-/

namespace Lowering

/-- Nothing but spaces, tabs and ends of lines. -/
def Blank.Legal (blank : Blank) : Prop := ∀ c ∈ blank, c ∈ [' ', '\t', '\n', '\r']

namespace StringPart

/-- The letters of the escapes, with the characters that they stand for. -/
def escapes : List (Char × Char) :=
  [('"', '"'), ('\\', '\\'), ('/', '/'), ('b', '\x08'), ('f', '\x0c'), ('n', '\n'),
    ('r', '\r'), ('t', '\t')]

/-- The character is the hexadecimal digit of the given value, in either case. -/
def IsHex (c : Char) (value : Nat) : Prop :=
  "0123456789abcdef".toList[value]? = some c ∨ "0123456789ABCDEF".toList[value]? = some c

/-- The characters are the four hexadecimal digits of the given number. -/
inductive IsUnit : List Char → Nat → Prop where
  | digits {a b c d : Char} {n : Nat} (ha : IsHex a (n / 4096)) (hb : IsHex b (n / 256 % 16))
      (hc : IsHex c (n / 16 % 16)) (hd : IsHex d (n % 16)) : IsUnit [a, b, c, d] n

/-- The character may stand in a string as itself. -/
def IsPlain (c : Char) : Prop := 0x20 ≤ c.toNat ∧ c ≠ '"' ∧ c ≠ '\\'

/-- The part may stand in a string. -/
def Legal : StringPart → Prop
  | .plain c => IsPlain c
  | .escape letter => ∃ c, (letter, c) ∈ escapes
  | .unit digits => ∃ n, IsUnit digits n

/-- The parts of a string write a text. -/
inductive Spells : List StringPart → List Char → Prop where
  | nil : Spells [] []
  | plain {c : Char} {parts : List StringPart} {s : List Char} (hc : IsPlain c)
      (hs : Spells parts s) : Spells (.plain c :: parts) (c :: s)
  | escape {letter c : Char} {parts : List StringPart} {s : List Char}
      (hc : (letter, c) ∈ escapes) (hs : Spells parts s) :
      Spells (.escape letter :: parts) (c :: s)
  /-- A character below U+10000 is its own unit. -/
  | unit {digits : List Char} {c : Char} {parts : List StringPart} {s : List Char}
      (hc : IsUnit digits c.toNat) (hs : Spells parts s) :
      Spells (.unit digits :: parts) (c :: s)
  /-- Any other character has two units, which hold ten bits each of what its number has above
  0x10000. -/
  | pair {high low : List Char} {c : Char} {parts : List StringPart} {s : List Char}
      (hc : 0x10000 ≤ c.toNat) (hhigh : IsUnit high (0xD800 + (c.toNat - 0x10000) / 0x400))
      (hlow : IsUnit low (0xDC00 + (c.toNat - 0x10000) % 0x400)) (hs : Spells parts s) :
      Spells (.unit high :: .unit low :: parts) (c :: s)

end StringPart

namespace Json

/-- One or more decimal digits. -/
def IsDigits (s : List Char) : Prop := s ≠ [] ∧ ∀ c ∈ s, c.isDigit = true

/-- The digits of a number before its point: only zero itself starts with a zero. -/
inductive IsWhole : List Char → Prop where
  | zero : IsWhole ['0']
  | digits {s : List Char} (hs : IsDigits s) (hzero : s.head? ≠ some '0') : IsWhole s

inductive IsFraction : List Char → Prop where
  | none : IsFraction []
  | some {s : List Char} (hs : IsDigits s) : IsFraction ('.' :: s)

inductive IsExponent : List Char → Prop where
  | none : IsExponent []
  | some {e : Char} {sign s : List Char} (he : e ∈ ['e', 'E'])
      (hsign : sign ∈ [[], ['+'], ['-']]) (hs : IsDigits s) : IsExponent (e :: sign ++ s)

/-- The lexemes of numbers. -/
inductive IsNumber : List Char → Prop where
  | parts {sign whole fraction exponent : List Char} (hsign : sign ∈ [[], ['-']])
      (hwhole : IsWhole whole) (hfraction : IsFraction fraction)
      (hexponent : IsExponent exponent) :
      IsNumber (sign ++ whole ++ fraction ++ exponent)

end Json

/-- The blanks of a key are blank, and its parts may stand in a string. -/
def JsonKey.Legal (key : JsonKey) : Prop :=
  key.before.Legal ∧ (∀ part ∈ key.parts, part.Legal) ∧ key.beforeColon.Legal ∧
    key.afterColon.Legal

mutual

/-- The text of the value is legal JSON. -/
def Json.Legal : Json → Prop
  | .null => True
  | .bool _ => True
  | .number lexeme => Json.IsNumber lexeme
  | .string parts => ∀ part ∈ parts, part.Legal
  | .emptyArray blank => blank.Legal
  | .array items => items.Legal
  | .emptyObject blank => blank.Legal
  | .object members => members.Legal

def JsonItems.Legal : JsonItems → Prop
  | .last before value after => before.Legal ∧ value.Legal ∧ after.Legal
  | .more before value after rest => before.Legal ∧ value.Legal ∧ after.Legal ∧ rest.Legal

def JsonMembers.Legal : JsonMembers → Prop
  | .last key value after => key.Legal ∧ value.Legal ∧ after.Legal
  | .more key value after rest => key.Legal ∧ value.Legal ∧ after.Legal ∧ rest.Legal

end

mutual

/-- How many arrays and objects are nested in each other, the value itself included. -/
def Json.depth : Json → Nat
  | .null | .bool _ | .number _ | .string _ => 0
  | .emptyArray _ | .emptyObject _ => 1
  | .array items => items.depth + 1
  | .object members => members.depth + 1

def JsonItems.depth : JsonItems → Nat
  | .last _ value _ => value.depth
  | .more _ value _ rest => max value.depth rest.depth

def JsonMembers.depth : JsonMembers → Nat
  | .last _ value _ => value.depth
  | .more _ value _ rest => max value.depth rest.depth

end

def Document.Legal (d : Document) : Prop := d.before.Legal ∧ d.value.Legal ∧ d.after.Legal

end Lowering
