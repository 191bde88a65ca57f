import CanonicalWire.Decimal
import CanonicalWire.Registry
import CanonicalWire.Utf8

/-!
# Errors of encoding and decoding

Every cause has its constructor, and `CodecError.message` is the one place where causes become text.
-/

namespace CanonicalWire

/-- A value that has no written form where it stands. -/
inductive ShapeError where
  /-- An option that must hold something is empty. -/
  | absent (type : String)
  /-- The registered payload type is none of the union's. -/
  | notAPayload (payload union : String)
  /-- A decimal with a fractional part. -/
  | fractional (d : Decimal)
  /-- A type that contains itself was reached again although no byte was read since. -/
  | endless (type : String)
deriving DecidableEq, Repr

namespace ShapeError

def message : ShapeError → String
  | .absent type => s!"absent {type} outside an optional field"
  | .notAPayload payload union => s!"{payload} is not a payload of {union}"
  | .fractional d => "fractional decimal " ++ d.text
  | .endless type => s!"{type} contains itself without taking bytes"

end ShapeError

inductive CodecError where
  | unsupportedShape (e : ShapeError)
  /-- A union was reached where no enum group is active, or an option in a group is empty. -/
  | enumNotDefined (type : String)
  | unregisteredVariant (payload group : String)
  | unknownEnumVariant (discriminant : Int32) (group : String)
  | lengthMismatch (expected actual : Nat)
  | oversizedLength (declared limit : Nat)
  | unexpectedEndOfStream (needed remaining : Nat)
  | trailingData (remaining : Nat)
  | invalidBooleanEncoding (byte : UInt8)
  | directive (e : DirectiveError)
  | negativeBigInteger
  | bigIntegerOverflow (width : Nat)
  | invalidUtf8 (e : Utf8Error)
  | nonCanonicalMap (index : Nat)
  | registry (e : RegistryError)
deriving DecidableEq, Repr

namespace CodecError

def message : CodecError → String
  | .unsupportedShape e => "Unsupported shape: " ++ e.message
  | .enumNotDefined type =>
      s!"Enum not defined for {type}: the field needs an `enum` directive and a present payload"
  | .unregisteredVariant payload group =>
      s!"Payload type {payload} is not registered in enum group '{group}'"
  | .unknownEnumVariant discriminant group =>
      s!"Unknown variant discriminant {discriminant} in enum group '{group}'"
  | .lengthMismatch expected actual => s!"Length mismatch: expected {expected}, got {actual}"
  | .oversizedLength declared limit => s!"Declared length {declared} exceeds the limit of {limit} bytes"
  | .unexpectedEndOfStream needed remaining =>
      s!"Unexpected end of stream: needed {needed} bytes, {remaining} remaining"
  | .trailingData remaining => s!"{remaining} trailing bytes after decoded value"
  | .invalidBooleanEncoding byte => s!"Invalid boolean encoding: expected 0 or 1, got {byte}"
  | .directive e => e.message
  | .negativeBigInteger => "Negative value cannot be encoded as an unsigned big integer"
  | .bigIntegerOverflow width => s!"Big integer does not fit in {width} bytes"
  | .invalidUtf8 e => "Invalid UTF-8 in text: " ++ e.message
  | .nonCanonicalMap index =>
      s!"Map keys are not in strictly ascending canonical order at entry {index}"
  | .registry e => e.message

end CodecError
end CanonicalWire
