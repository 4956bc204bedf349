/-!
# UTF-8

Text comes in as bytes. A byte that belongs to no well-formed sequence is read
as U+FFFD on its own, so reading never fails and never loses its place: the byte
after a bad one starts a new sequence.
-/

namespace Lowering.Utf8

/-- What stands for a byte or code unit that encodes no character. -/
def replacement : Char := '�'

/-- The six low bits of a continuation byte. -/
def continuation? (b : UInt8) : Option Nat :=
  if 0x80 ≤ b ∧ b < 0xC0 then some (b.toNat - 0x80) else none

/-- The character with code point `n`, if `n` is at least `least` and names one.
The lower bound rules out overlong sequences. -/
def scalar? (least n : Nat) : Option Char :=
  if h : n.isValidChar then
    if least ≤ n then some (Char.ofNatAux n h) else none
  else none

/-- The character that `a` and the first byte of `s` encode. -/
def pair? (a : UInt8) : List UInt8 → Option Char
  | b :: _ =>
    if 0xC0 ≤ a ∧ a < 0xE0 then do
      let y ← continuation? b
      scalar? 0x80 ((a.toNat - 0xC0) * 64 + y)
    else none
  | _ => none

/-- The character that `a` and the first two bytes of `s` encode. -/
def triple? (a : UInt8) : List UInt8 → Option Char
  | b :: c :: _ =>
    if 0xE0 ≤ a ∧ a < 0xF0 then do
      let y ← continuation? b
      let z ← continuation? c
      scalar? 0x800 (((a.toNat - 0xE0) * 64 + y) * 64 + z)
    else none
  | _ => none

/-- The character that `a` and the first three bytes of `s` encode. -/
def quadruple? (a : UInt8) : List UInt8 → Option Char
  | b :: c :: d :: _ =>
    if 0xF0 ≤ a ∧ a < 0xF8 then do
      let x ← continuation? b
      let y ← continuation? c
      let z ← continuation? d
      scalar? 0x10000 ((((a.toNat - 0xF0) * 64 + x) * 64 + y) * 64 + z)
    else none
  | _ => none

/-- The character that starts at the byte `a`, and how many of the bytes after
it belong to the character. -/
def first (a : UInt8) (s : List UInt8) : Char × Nat :=
  if a < 0x80 then (Char.ofUInt8 a, 0)
  else match pair? a s, triple? a s, quadruple? a s with
    | some c, _, _ => (c, 1)
    | _, some c, _ => (c, 2)
    | _, _, some c => (c, 3)
    | none, none, none => (replacement, 0)

/-- Read bytes as text after `skip` bytes that belong to an earlier character. -/
def decodeAfter : Nat → List UInt8 → List Char
  | _, [] => []
  | skip + 1, _ :: s => decodeAfter skip s
  | 0, a :: s => (first a s).1 :: decodeAfter (first a s).2 s

/-- Read bytes as text, with `replacement` for every byte that is not part of a
well-formed sequence. -/
def decode (s : List UInt8) : List Char := decodeAfter 0 s

/-- The bytes of a text. -/
def encode (s : List Char) : List UInt8 := s.flatMap String.utf8EncodeChar

end Lowering.Utf8
