import StreamQuery.Value.Basic

/-!
# The canonical bytes of values

The canonical bytes are the identity of a value. A tag byte for the kind is
followed by a big-endian payload. Texts, tuples and objects carry their
length in front, so that encodings one after the other can be told apart.
Integers have their sign bit flipped, so that within one kind the order of the
bytes is the order of the numbers.
-/

namespace StreamQuery

abbrev Bytes := List UInt8

namespace Canonical

/-- The last `width` digits of `n` in base 256, the highest first. -/
def bigEndian : Nat → Nat → Bytes
  | 0, _ => []
  | width + 1, n => bigEndian width (n / 256) ++ [UInt8.ofNat n]

def length (n : Nat) : Bytes := bigEndian 8 n

/-- A signed integer of `width` bytes, moved up by half of the range. -/
def signed (width : Nat) (n : Int) : Bytes :=
  let range := Nat.pow 256 width
  bigEndian width ((n + (range / 2 : Nat)) % range).toNat

def text (s : String) : Bytes := length s.utf8ByteSize ++ s.toUTF8.data.toList

end Canonical

namespace Value

open Canonical

mutual

def canonical : Value → Bytes
  | .null => [0]
  | .bool b => [1, if b then 1 else 0]
  | .int n => 2 :: signed 8 n.toInt
  | .float x => 3 :: bigEndian 8 x.normalize.bits.toNat
  | .string s => 4 :: text s
  | .time t => 5 :: signed 16 t.nanos
  | .duration d => 6 :: signed 16 d.nanos
  | .tuple items => 7 :: (length items.length ++ canonicalItems items)
  | .object fields => 8 :: (length fields.length ++ canonicalFields fields)
termination_by structural v => v

def canonicalItems : List Value → Bytes
  | [] => []
  | v :: rest => canonical v ++ canonicalItems rest
termination_by structural items => items

def canonicalFields : List (String × Value) → Bytes
  | [] => []
  | (name, v) :: rest => text name ++ (canonical v ++ canonicalFields rest)
termination_by structural fields => fields

end

def feed {σ : Type} (write : σ → Bytes → σ) (hasher : σ) (v : Value) : σ :=
  write hasher v.canonical

end Value

end StreamQuery
