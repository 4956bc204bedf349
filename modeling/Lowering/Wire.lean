import Lowering.Text.Utf8

/-!
# The wire form

Values are logged as bytes. An item opens with a head that holds its kind in the
three top bits and a count: counts below 24 fit the head byte, larger ones follow
it in one, two, four or eight bytes, most significant first. A nonnegative integer
is its own count. A negative integer `v` has the count `1 - v`. A string counts
its bytes and a map counts its pairs. Maps are written at the end of a buffer.
-/

namespace Lowering.Wire

abbrev Bytes := List UInt8

/-- The kinds of items. -/
inductive Kind where
  | nonnegative
  | negative
  | string
  | map
  deriving DecidableEq, Repr

/-- The number of a kind in the top bits of a head. -/
def Kind.code : Kind → Nat
  | .nonnegative => 0
  | .negative => 1
  | .string => 3
  | .map => 5

/-- The low `width` bytes of `n`, most significant first. -/
def bigEndian : Nat → Nat → Bytes
  | 0, _ => []
  | width + 1, n => bigEndian width (n / 256) ++ [UInt8.ofNat (n % 256)]

/-- The head byte of a kind with the given low bits. -/
def lead (kind : Kind) (low : Nat) : UInt8 := UInt8.ofNat (32 * kind.code + low)

/-- The head of an item with count `n`, a 64-bit word. -/
def head (kind : Kind) (n : Nat) : Bytes :=
  if n < 24 then [lead kind n]
  else if n < 0x100 then lead kind 24 :: bigEndian 1 n
  else if n < 0x10000 then lead kind 25 :: bigEndian 2 n
  else if n < 0x100000000 then lead kind 26 :: bigEndian 4 n
  else lead kind 27 :: bigEndian 8 n

/-- A signed word. -/
def int (v : Int64) : Bytes :=
  if v.toInt < 0 then head .negative (1 - v.toInt).toNat else head .nonnegative v.toInt.toNat

def string (s : String) : Bytes :=
  head .string (Utf8.encode s.toList).length ++ Utf8.encode s.toList

/-- What a field of a map holds. -/
inductive Item where
  | int (v : Int64)
  | string (s : String)
  deriving DecidableEq, Repr

def Item.bytes : Item → Bytes
  | .int v => Wire.int v
  | .string s => Wire.string s

/-- Write a map with the given fields, in the order given, at the end of `buffer`. -/
def appendMap (buffer : Bytes) (fields : List (String × Item)) : Bytes :=
  fields.foldl (fun written (key, item) => written ++ string key ++ item.bytes)
    (buffer ++ head .map fields.length)

end Lowering.Wire
