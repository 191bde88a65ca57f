import CanonicalWire.Value

/-!
# Types without parts on the wire

Truth values are one byte, fixed-width integers their width, little-endian. The 128-bit and the unbounded
integers share one form of sixteen bytes. Texts and byte strings are byte runs.
-/

namespace CanonicalWire

namespace Encode

def writeInt (k : IntKind) (x : BitVec (8 * k.width)) : Encode := put (digitsLE k.width x.toNat)

def writeU128 (x : BitVec 128) : Encode := writeBigUint (digitsLE bigUintWidth x.toNat).reverse bigUintWidth

/-- Numbers below zero have no form. -/
def writeI128 (x : BitVec 128) : Encode := if x.toInt < 0 then throw .negativeBigInteger else writeU128 x

def writeNatural (x : Nat) : Encode := writeBigUint (digitsBE x) bigUintWidth

/-- Numbers below zero have no form. -/
def writeInteger (x : Int) : Encode :=
  if x < 0 then throw .negativeBigInteger else writeBigUint (digitsBE x.natAbs) bigUintWidth

/-- Only whole numbers have a form, whatever their scale. -/
def writeDecimal (d : Decimal) : Encode :=
  if d.isInteger then writeInteger d.truncate else throw (.unsupportedShape (.fractional d))

/-- The sixteen bytes in the order of the text. They are held to the ceiling of byte runs. -/
def writeUuid (x : Uuid) (ctx : Context) : Encode := do
  checkLength 16 ctx
  put x.bytes

end Encode

namespace Decode

def readInt (k : IntKind) : Decode (BitVec (8 * k.width)) := do
  let n ← number k.width
  return BitVec.ofNat _ n

def readU128 : Decode (BitVec 128) := do
  let block ← readBigUint bigUintWidth
  return word128 block.bytes

/-- The upper half of the unsigned range does not fit. -/
def readI128 : Decode (BitVec 128) := do
  let x ← readU128
  if x.msb then throw (.bigIntegerOverflow bigUintWidth) else return x

def readNatural : Decode Nat := do
  let block ← readBigUint bigUintWidth
  return valueBE block.bytes

def readText (ctx : Context) : Decode String := do
  let bs ← readByteRun ctx
  match Utf8.decode bs with
  | .ok s => return s
  | .error e => throw (.invalidUtf8 e)

def readUuid (ctx : Context) : Decode Uuid := do
  checkLength 16 ctx
  take 16

end Decode

namespace Scalar

def encode : (s : Scalar) → s.Carrier → Context → Encode
  | .bool, b, _ => Encode.writeBool b
  | .int k, x, _ => Encode.writeInt k x
  | .u128, x, _ => Encode.writeU128 x
  | .i128, x, _ => Encode.writeI128 x
  | .uint _, x, _ => Encode.put (Uint.toLE x).bytes
  | .natural, x, _ => Encode.writeNatural x
  | .integer, x, _ => Encode.writeInteger x
  | .decimal, d, _ => Encode.writeDecimal d
  | .text _, s, ctx => Encode.writeByteRun (Utf8.encode s) ctx
  | .bytes, bs, ctx => Encode.writeByteRun bs ctx
  | .uuid, x, ctx => Encode.writeUuid x ctx

def decode : (s : Scalar) → Context → Decode s.Carrier
  | .bool, _ => Decode.readBool
  | .int k, _ => Decode.readInt k
  | .u128, _ => Decode.readU128
  | .i128, _ => Decode.readI128
  | .uint n, _ => do
      let block ← Decode.take n
      return Uint.ofLE block
  | .natural, _ => Decode.readNatural
  | .integer, _ => do
      let n ← Decode.readNatural
      return Int.ofNat n
  | .decimal, _ => do
      let n ← Decode.readNatural
      return Decimal.ofInt n
  | .text _, ctx => Decode.readText ctx
  | .bytes, ctx => Decode.readByteRun ctx
  | .uuid, ctx => Decode.readUuid ctx

end Scalar
end CanonicalWire
