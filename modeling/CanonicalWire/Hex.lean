import CanonicalWire.Bytes

/-!
# Hexadecimal text

Byte strings as pairs of lower-case digits, and the hyphenated text of universally unique identifiers.
-/

namespace CanonicalWire
namespace Hex

def digit (n : Nat) : Char := Char.ofNat (if n < 10 then 48 + n else 87 + n)

def digit? (c : Char) : Option Nat :=
  if '0' ≤ c ∧ c ≤ '9' then some (c.toNat - 48)
  else if 'a' ≤ c ∧ c ≤ 'f' then some (c.toNat - 87)
  else if 'A' ≤ c ∧ c ≤ 'F' then some (c.toNat - 55)
  else none

/-- The two lower-case digits of a byte. -/
def ofByte (b : UInt8) : List Char := [digit (b.toNat / 16), digit (b.toNat % 16)]

def encode (bs : Bytes) : String := String.ofList (bs.flatMap ofByte)

/-- Reads two digits, of either case, for each byte. -/
def decodeChars? : List Char → Option Bytes
  | [] => some []
  | [_] => none
  | high :: low :: rest => do
      let h ← digit? high
      let l ← digit? low
      let bs ← decodeChars? rest
      return UInt8.ofNat (16 * h + l) :: bs

def decode? (s : String) : Option Bytes := decodeChars? s.toList

end Hex

/-- A universally unique identifier: sixteen bytes in the order of its text. -/
abbrev Uuid := Block 16

namespace Uuid

/-- Cuts a byte string into groups of the given sizes. -/
def groups : List Nat → Bytes → List Bytes
  | [], _ => []
  | n :: ns, bs => bs.take n :: groups ns (bs.drop n)

/-- The text: groups of 4, 2, 2, 2 and 6 bytes with hyphens between them. -/
def text (x : Uuid) : String := "-".intercalate ((groups [4, 2, 2, 2, 6] x.bytes).map Hex.encode)

def ofText? (s : String) : Option Uuid := do
  let bs ← Hex.decodeChars? (s.toList.filter (· != '-'))
  Block.ofBytes? 16 bs

end Uuid
end CanonicalWire
