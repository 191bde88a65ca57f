import CanonicalWire.Decode

/-!
# The codec

A registry and limits, with which whole values are written and read.
-/

namespace CanonicalWire

structure Codec where
  registry : Registry := .empty
  limits : Limits := {}

namespace Codec

/-- The context of a whole value. -/
def context (c : Codec) : Context := (Context.start c.registry).withLimits c.limits

variable [Declarations]

/-- The bytes of a value. -/
def encode (c : Codec) {t : Ty} (x : Value t) : Except CodecError Bytes := (x.encode c.context).bytes

/-- A value from the front of the input, and what remains of the input. -/
def decodeFrom (c : Codec) (t : Ty) (input : Bytes) : Except CodecError (Value t × Bytes) :=
  t.decode c.context input

/-- The value that the input is; nothing may follow it. -/
def decode (c : Codec) (t : Ty) (input : Bytes) : Except CodecError (Value t) := do
  let (x, rest) ← c.decodeFrom t input
  if rest.isEmpty then return x else throw (.trailingData rest.length)

end Codec
end CanonicalWire
