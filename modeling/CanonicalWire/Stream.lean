import CanonicalWire.Context

/-!
# Writers and readers

Encoding appends to the bytes written so far; decoding takes bytes from the front of those that remain.
Here are the pieces that all types are written and read with: little-endian prefixes of four bytes, byte
runs and presence bytes.
-/

namespace CanonicalWire

/-- An action that appends to the bytes written so far, or fails. -/
abbrev Encode : Type := StateT Bytes (Except CodecError) Unit

/-- An action that takes bytes from the front of those that remain, or fails. -/
abbrev Decode (α : Type) : Type := StateT Bytes (Except CodecError) α

namespace Encode

def put (bs : Bytes) : Encode := fun written => .ok ((), written ++ bs)

/-- The bytes that an action appends to an empty writer. -/
def bytes (action : Encode) : Except CodecError Bytes := (action []).map (·.2)

end Encode

/-- Width of every length, count and discriminant. -/
def prefixWidth : Nat := 4

/-- The greatest length that a prefix can hold. -/
def maxPrefix : Nat := UInt32.size - 1

/-- Holds a length to the ceiling of the limits. -/
def checkLength (len : Nat) (ctx : Context) : Except CodecError PUnit :=
  if ctx.limits.maxBytesLen < len then .error (.oversizedLength len ctx.limits.maxBytesLen) else .ok ()

namespace Encode

def writeLen (len : Nat) : Encode :=
  if maxPrefix < len then throw (.oversizedLength len maxPrefix) else put (digitsLE prefixWidth len)

/-- What stands before `len` items: nothing if the context fixes their number, which must then be `len`,
and otherwise their number. -/
def writeCount (len : Nat) (ctx : Context) : Encode :=
  match ctx.fixedLen with
  | some expected => if len = expected then pure () else throw (.lengthMismatch expected len)
  | none => writeLen len

/-- Byte strings: the bytes, after their number unless the context fixes it. -/
def writeByteRun (bs : Bytes) (ctx : Context) : Encode := do
  checkLength bs.length ctx
  writeCount bs.length ctx
  put bs

/-- A presence byte or truth value. -/
def writeBool (b : Bool) : Encode := put [if b then 1 else 0]

def writeDiscriminant (d : Int32) : Encode := put (digitsLE prefixWidth d.toBitVec.toNat)

end Encode

namespace Decode

/-- Fails unless the given number of bytes remains. -/
def ensure (needed : Nat) : Decode PUnit := fun input =>
  if needed ≤ input.length then .ok ((), input)
  else .error (.unexpectedEndOfStream needed input.length)

/-- Takes the next `n` bytes. -/
def take (n : Nat) : Decode (Block n) := fun input =>
  if h : n ≤ input.length then .ok (⟨input.take n, List.length_take_of_le h⟩, input.drop n)
  else .error (.unexpectedEndOfStream n input.length)

/-- The number that the next `width` bytes denote, least significant first. -/
def number (width : Nat) : Decode Nat := do
  let block ← take width
  return valueLE block.bytes

def readLen : Decode Nat := number prefixWidth

/-- The number of items to come: the one that the context fixes, or the one written. -/
def readCount (ctx : Context) : Decode Nat :=
  match ctx.fixedLen with
  | some len => pure len
  | none => readLen

/-- Byte strings. A length above the ceiling fails before any byte of the string is asked for. -/
def readByteRun (ctx : Context) : Decode Bytes := do
  let len ← readCount ctx
  checkLength len ctx
  let block ← take len
  return block.bytes

/-- A presence byte or truth value. -/
def readBool : Decode Bool := do
  let n ← number 1
  match n with
  | 0 => return false
  | 1 => return true
  | n => throw (.invalidBooleanEncoding (UInt8.ofNat n))

def readDiscriminant : Decode Int32 := do
  let n ← number prefixWidth
  return Int32.ofBitVec (BitVec.ofNat 32 n)

/-- Nothing is left to read. -/
def atEnd (input : Bytes) : Bool := input.isEmpty

end Decode
end CanonicalWire
