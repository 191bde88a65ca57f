import CanonicalWire.Bytes

/-!
# UTF-8

Text and its bytes, and where a byte string stops being text. A failure names the length of the longest
valid beginning and, unless the bytes end inside a character, how many bytes were tried in vain.
-/

namespace CanonicalWire

/-- Where and how bytes fail to be UTF-8. -/
structure Utf8Error where
  /-- Length of the longest valid beginning. -/
  index : Nat
  /-- Bytes of the ill-formed sequence there; nothing if the bytes end inside a character. -/
  length : Option Nat
deriving DecidableEq, Repr

namespace Utf8Error

def message (e : Utf8Error) : String :=
  match e.length with
  | some n => s!"invalid utf-8 sequence of {n} bytes from index {e.index}"
  | none => s!"incomplete utf-8 byte sequence from index {e.index}"

end Utf8Error

namespace Utf8

/-- A closed range of byte values. -/
structure Range where
  low : UInt8
  high : UInt8
deriving DecidableEq

def Range.contains (r : Range) (b : UInt8) : Bool := r.low ≤ b && b ≤ r.high

/-- The range of an ordinary continuation byte. -/
def continuation : Range := ⟨0x80, 0xBF⟩

/-- The ranges of the bytes that follow a first byte; nothing if no character starts with it. The second
byte after `E0`, `ED`, `F0` and `F4` is narrower: it keeps out overlong forms, surrogates and numbers
beyond the last code point. -/
def follow? (b : UInt8) : Option (List Range) :=
  if b < 0x80 then some []
  else if b < 0xC2 then none
  else if b < 0xE0 then some [continuation]
  else if b = 0xE0 then some [⟨0xA0, 0xBF⟩, continuation]
  else if b = 0xED then some [⟨0x80, 0x9F⟩, continuation]
  else if b < 0xF0 then some [continuation, continuation]
  else if b = 0xF0 then some [⟨0x90, 0xBF⟩, continuation, continuation]
  else if b < 0xF4 then some [continuation, continuation, continuation]
  else if b = 0xF4 then some [⟨0x80, 0x8F⟩, continuation, continuation]
  else none

/-- Reads byte after byte: `start` is where the present character began, `seen` how many of its bytes have
been read, `pending` the ranges of those still to come. -/
def scan (start seen : Nat) (pending : List Range) : Bytes → Option Utf8Error
  | [] => if pending.isEmpty then none else some ⟨start, none⟩
  | b :: bs =>
      match pending with
      | [] =>
          match follow? b with
          | none => some ⟨start, some 1⟩
          | some [] => scan (start + 1) 0 [] bs
          | some ranges => scan start 1 ranges bs
      | range :: ranges =>
          if range.contains b then
            if ranges.isEmpty then scan (start + seen + 1) 0 [] bs else scan start (seen + 1) ranges bs
          else some ⟨start, some seen⟩

/-- The first failure of a byte string, if it is not text. -/
def failure? (bs : Bytes) : Option Utf8Error := scan 0 0 [] bs

/-- The bytes of a text. -/
def encode (s : String) : Bytes := s.toByteArray.data.toList

/-- The text with the given bytes, if there is one. -/
def decode? (bs : Bytes) : Option String := String.fromUTF8? ⟨bs.toArray⟩

/-- The text with the given bytes, or how they fail. -/
def decode (bs : Bytes) : Except Utf8Error String :=
  match decode? bs with
  | some s => .ok s
  | none => .error ((failure? bs).getD ⟨bs.length, none⟩)

end Utf8
end CanonicalWire
