/-!
# Bytes

Byte strings, blocks of a fixed number of bytes, and base-256 digits in both orders.
Byte strings are compared lexicographically with `<` of `List`: a proper beginning comes first.
-/

namespace CanonicalWire

/-- A byte string. -/
abbrev Bytes := List UInt8

/-- A byte string of exactly `n` bytes. -/
@[ext] structure Block (n : Nat) where
  bytes : Bytes
  length_eq : bytes.length = n
deriving DecidableEq

namespace Block

/-- The block of `n` equal bytes. -/
def fill (n : Nat) (b : UInt8) : Block n := ⟨List.replicate n b, List.length_replicate⟩

def reverse {n : Nat} (x : Block n) : Block n := ⟨x.bytes.reverse, by rw [List.length_reverse, x.length_eq]⟩

/-- A byte string as a block, if it has the right length. -/
def ofBytes? (n : Nat) (bs : Bytes) : Option (Block n) :=
  if h : bs.length = n then some ⟨bs, h⟩ else none

end Block

/-- The `width` lowest base-256 digits of `x`, least significant first. -/
def digitsLE : (width : Nat) → (x : Nat) → Bytes
  | 0, _ => []
  | width + 1, x => UInt8.ofNat x :: digitsLE width (x / 256)

/-- The number that base-256 digits denote, least significant first. -/
def valueLE : Bytes → Nat
  | [] => 0
  | b :: bs => b.toNat + 256 * valueLE bs

/-- The number that base-256 digits denote, most significant first. -/
def valueBE (bs : Bytes) : Nat := valueLE bs.reverse

/-- The base-256 digits of `x`, most significant first, without leading zeros; zero has one digit. -/
def digitsBE (x : Nat) : Bytes := (digitsLE (x.log2 / 8 + 1) x).reverse

@[simp] theorem length_digitsLE (width x : Nat) : (digitsLE width x).length = width := by
  induction width generalizing x with
  | zero => rfl
  | succ width ih => simp [digitsLE, ih]

/-- The lowest digits of `x` as a block. -/
def Block.ofNatLE (width x : Nat) : Block width := ⟨digitsLE width x, length_digitsLE width x⟩

end CanonicalWire
