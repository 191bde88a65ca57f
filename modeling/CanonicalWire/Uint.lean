import CanonicalWire.Hex
import CanonicalWire.Stream

/-!
# Big unsigned integers

The block form of a number is its base-256 digits, least significant first, filled up with zeros to a width
that belongs to the type. `Uint n` is the type of unsigned integers of exactly `n` bytes.
-/

namespace CanonicalWire

/-- Width of the 128-bit form. -/
def bigUintWidth : Nat := 16

/-- Digits, most significant first, without leading zeros. -/
def significant (magnitude : Bytes) : Bytes := magnitude.dropWhile (· == 0)

/-- The block form of digits given most significant first. Leading zeros do not count. -/
def blockOfMagnitude (magnitude : Bytes) (width : Nat) : Except CodecError (Block width) :=
  if h : (significant magnitude).length ≤ width then
    .ok ⟨(significant magnitude).reverse ++ List.replicate (width - (significant magnitude).length) 0, by
      rw [List.length_append, List.length_reverse, List.length_replicate, Nat.add_sub_cancel' h]⟩
  else .error (.bigIntegerOverflow width)

namespace Encode

/-- Writes digits given most significant first in block form. -/
def writeBigUint (magnitude : Bytes) (width : Nat) : Encode := do
  let block ← blockOfMagnitude magnitude width
  put block.bytes

end Encode

namespace Decode

/-- Reads a block form; the digits come back most significant first, all `width` of them. -/
def readBigUint (width : Nat) : Decode (Block width) := do
  let block ← take width
  return block.reverse

end Decode

/-- The 128-bit word with the given digits, most significant first; digits that overflow it are lost. -/
def word128 (magnitude : Bytes) : BitVec 128 :=
  magnitude.foldl (fun word b => (word <<< 8) ||| b.toBitVec.setWidth 128) 0

/-- An unsigned integer of `n` bytes, kept least significant byte first. -/
structure Uint (n : Nat) where
  le : Block n
deriving DecidableEq

namespace Uint

variable {n : Nat}

def zero : Uint n := ⟨Block.fill n 0⟩

/-- The greatest number of `n` bytes. -/
def max : Uint n := ⟨Block.fill n 0xFF⟩

def ofLE (b : Block n) : Uint n := ⟨b⟩

def ofBE (b : Block n) : Uint n := ⟨b.reverse⟩

def toLE (x : Uint n) : Block n := x.le

def toBE (x : Uint n) : Block n := x.le.reverse

/-- The number with the given digits, most significant first, if it fits. -/
def ofMagnitude (magnitude : Bytes) : Except CodecError (Uint n) := (blockOfMagnitude magnitude n).map ofLE

def isZero (x : Uint n) : Bool := x.le.bytes.all (· == 0)

/-- Compares byte by byte from the most significant one. -/
def compare (x y : Uint n) : Ordering := Ord.compare x.toBE.bytes y.toBE.bytes

/-- Lower-case hexadecimal digits without leading zeros; zero has one. -/
def hexText (x : Uint n) : String :=
  match significant x.toBE.bytes with
  | [] => "0"
  | b :: bs =>
      let lead := if b.toNat < 16 then [Hex.digit b.toNat] else Hex.ofByte b
      String.ofList (lead ++ bs.flatMap Hex.ofByte)

/-- The hexadecimal digits after `0x`. -/
def prefixedHexText (x : Uint n) : String := "0x" ++ x.hexText

/-- The width and the number. -/
def debugText (x : Uint n) : String := "Uint<" ++ toString n ++ ">(" ++ x.prefixedHexText ++ ")"

def ofU128 (w : BitVec 128) : Except CodecError (Uint n) := ofMagnitude (digitsLE bigUintWidth w.toNat).reverse

/-- The number as a 128-bit word, if it fits. -/
def toU128 (x : Uint n) : Except CodecError (BitVec 128) :=
  let digits := significant x.toBE.bytes
  if bigUintWidth < digits.length then .error (.bigIntegerOverflow bigUintWidth) else .ok (word128 digits)

def ofNat (m : Nat) : Except CodecError (Uint n) := ofMagnitude (digitsBE m)

def ofInt (m : Int) : Except CodecError (Uint n) :=
  if m < 0 then .error .negativeBigInteger else ofMagnitude (digitsBE m.natAbs)

def toNat (x : Uint n) : Nat := valueLE x.le.bytes

end Uint
end CanonicalWire
