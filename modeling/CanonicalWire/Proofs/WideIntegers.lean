import CanonicalWire.Proofs.BlockForm
import CanonicalWire.Proofs.Recursion

/-!
The integers of sixteen bytes. Five types reach block form in different ways, and all write and read the same
bytes for the same number. The 128-bit word is filled by shifts, and these lose no bit.
-/

namespace CanonicalWire

/-- The integer types whose block form has sixteen bytes. -/
inductive WideInteger where
  | u128
  | i128
  | uint
  | natural
  | integer
deriving DecidableEq

namespace WideInteger

def scalar : WideInteger → Scalar
  | .u128 => .u128
  | .i128 => .i128
  | .uint => .uint 16
  | .natural => .natural
  | .integer => .integer

/-- The number that a value denotes. -/
def number : (w : WideInteger) → w.scalar.Carrier → Int
  | .u128, x => (BitVec.toNat x : Int)
  | .i128, x => BitVec.toInt x
  | .uint, x => (Uint.toNat x : Int)
  | .natural, n => Int.ofNat n
  | .integer, n => n

/-- The type can hold the number. -/
def Holds : WideInteger → Int → Prop
  | .u128, n => 0 ≤ n ∧ n < 2 ^ 128
  | .i128, n => -2 ^ 127 ≤ n ∧ n < 2 ^ 127
  | .uint, n => 0 ≤ n ∧ n < 2 ^ 128
  | .natural, n => 0 ≤ n
  | .integer, _ => True

end WideInteger

theorem Uint.toNat_lt {n : Nat} (x : Uint n) : x.toNat < 256 ^ n := x.le.valueLE_lt

theorem Uint.digitsLE_toNat {n : Nat} (x : Uint n) : digitsLE n x.toNat = x.le.bytes := x.le.digitsLE_valueLE

theorem Uint.toNat_injective {n : Nat} : Function.Injective (toNat : Uint n → Nat) := by
  intro x y h
  have hbytes : x.le.bytes = y.le.bytes := by rw [← digitsLE_toNat, ← digitsLE_toNat, h]
  exact congrArg Uint.mk (Block.ext hbytes)

theorem Uint.toNat_ofNatLE {n m : Nat} (hm : m < 256 ^ n) : (Uint.ofLE (.ofNatLE n m)).toNat = m := by
  rw [toNat, ofLE, Block.ofNatLE, valueLE_digitsLE, Nat.mod_eq_of_lt hm]

/-! ### The range of each type -/

namespace WideInteger

theorem holds_number (w : WideInteger) (x : w.scalar.Carrier) : w.Holds (w.number x) := by
  cases w with
  | u128 =>
      have hlt : BitVec.toNat x < 2 ^ 128 := BitVec.isLt x
      exact ⟨Int.natCast_nonneg _, Int.ofNat_lt.mpr hlt⟩
  | i128 => exact ⟨BitVec.le_toInt x, BitVec.toInt_lt⟩
  | uint =>
      have hlt : Uint.toNat x < 256 ^ 16 := Uint.toNat_lt x
      exact ⟨Int.natCast_nonneg _, Int.ofNat_lt.mpr hlt⟩
  | natural => exact Int.natCast_nonneg _
  | integer => trivial

theorem number_injective (w : WideInteger) : Function.Injective w.number := by
  intro x y h
  cases w with
  | u128 => exact BitVec.eq_of_toNat_eq (Int.ofNat.inj h)
  | i128 => exact BitVec.eq_of_toInt_eq h
  | uint => exact Uint.toNat_injective (Int.ofNat.inj h)
  | natural => exact Int.ofNat.inj h
  | integer => exact h

theorem exists_number_eq {w : WideInteger} {n : Int} (h : w.Holds n) : ∃ x, w.number x = n := by
  cases w with
  | u128 =>
      obtain ⟨hpos, hlt⟩ := h
      obtain ⟨m, rfl⟩ := Int.eq_ofNat_of_zero_le hpos
      exact ⟨BitVec.ofNat 128 m, congrArg Nat.cast (Nat.mod_eq_of_lt (by exact_mod_cast hlt))⟩
  | i128 => exact ⟨BitVec.ofInt 128 n, BitVec.toInt_ofInt_eq_self (by decide) h.1 h.2⟩
  | uint =>
      obtain ⟨hpos, hlt⟩ := h
      obtain ⟨m, rfl⟩ := Int.eq_ofNat_of_zero_le hpos
      exact ⟨Uint.ofLE (.ofNatLE 16 m), congrArg Nat.cast (Uint.toNat_ofNatLE (by exact_mod_cast hlt))⟩
  | natural =>
      obtain ⟨m, rfl⟩ := Int.eq_ofNat_of_zero_le h
      exact ⟨m, rfl⟩
  | integer => exact ⟨n, rfl⟩

/-- Exactly the numbers in its range are values of a type, and of no two. -/
theorem existsUnique_number_iff {w : WideInteger} {n : Int} : (∃! x, w.number x = n) ↔ w.Holds n := by
  constructor
  · intro h
    obtain ⟨x, rfl, -⟩ := h
    exact w.holds_number x
  · intro h
    obtain ⟨x, rfl⟩ := exists_number_eq h
    exact ⟨x, rfl, fun y hy => w.number_injective hy⟩

end WideInteger

/-! ### Writing -/

namespace Encode

/-- What every type writes of a number: its sixteen digits, least significant first, if it has no more. -/
def writeNumber (n : Int) : Encode := fun written =>
  if n < 0 then .error .negativeBigInteger
  else if n < 2 ^ 128 then .ok ((), written ++ digitsLE 16 n.toNat)
  else .error (.bigIntegerOverflow 16)

theorem writeNumber_natCast (m : Nat) (written : Bytes) :
    writeNumber m written =
      if m < 256 ^ bigUintWidth then .ok ((), written ++ digitsLE bigUintWidth m)
      else .error (.bigIntegerOverflow bigUintWidth) := by
  have hbound : (m : Int) < 2 ^ 128 ↔ m < 256 ^ bigUintWidth := by
    show (m : Int) < 2 ^ 128 ↔ m < 256 ^ 16
    omega
  rw [writeNumber, if_neg (Int.not_lt.mpr (Int.natCast_nonneg m)), Int.toNat_natCast]
  simp only [hbound]
  rfl

theorem writeBigUint_eq (magnitude : Bytes) :
    writeBigUint magnitude bigUintWidth = writeNumber (valueBE magnitude) := by
  funext written
  rw [writeBigUint_apply, writeNumber_natCast]

theorem writeU128_eq (x : BitVec 128) : writeU128 x = writeNumber x.toNat := by
  have hlt : x.toNat < 256 ^ bigUintWidth := x.isLt
  rw [writeU128, writeBigUint_eq, valueBE_reverse, valueLE_digitsLE, Nat.mod_eq_of_lt hlt]

theorem writeNumber_of_neg {n : Int} (hneg : n < 0) : writeNumber n = throw .negativeBigInteger :=
  funext fun _ => if_pos hneg

theorem writeI128_eq (x : BitVec 128) : writeI128 x = writeNumber x.toInt := by
  rw [writeI128]
  by_cases hneg : x.toInt < 0
  · rw [if_pos hneg, writeNumber_of_neg hneg]
  · have hmsb : x.msb = false := by simpa [BitVec.msb_eq_toInt] using hneg
    rw [if_neg hneg, writeU128_eq, BitVec.toInt_eq_toNat_of_msb hmsb]

theorem writeNatural_eq (n : Nat) : writeNatural n = writeNumber n := by
  rw [writeNatural, writeBigUint_eq, valueBE_digitsBE]

theorem writeInteger_eq (n : Int) : writeInteger n = writeNumber n := by
  rw [writeInteger]
  by_cases hneg : n < 0
  · rw [if_pos hneg, writeNumber_of_neg hneg]
  · rw [if_neg hneg, writeBigUint_eq, valueBE_digitsBE, Int.natAbs_of_nonneg (Int.not_lt.mp hneg)]

theorem put_toLE (x : Uint 16) : put x.toLE.bytes = writeNumber x.toNat := by
  have hlt : x.toNat < 256 ^ bigUintWidth := x.toNat_lt
  funext written
  rw [writeNumber_natCast, if_pos hlt, bigUintWidth, x.digitsLE_toNat]
  rfl

end Encode

theorem WideInteger.encode_eq [Definitions] (w : WideInteger) (x : w.scalar.Carrier) (ctx : Context) :
    (Value.scalar x).encode ctx = Encode.writeNumber (w.number x) := by
  cases w with
  | u128 => exact Encode.writeU128_eq x
  | i128 => exact Encode.writeI128_eq x
  | uint => exact Encode.put_toLE x
  | natural => exact Encode.writeNatural_eq x
  | integer => exact Encode.writeInteger_eq x

/-! ### Shifts -/

theorem toNat_word128 {digits : Bytes} (hlength : digits.length ≤ 16) : (word128 digits).toNat = valueBE digits := by
  have hlt : valueBE digits < 2 ^ 128 := by
    calc valueBE digits < 256 ^ digits.reverse.length := valueLE_lt digits.reverse
      _ ≤ 256 ^ 16 := Nat.pow_le_pow_right (by decide) (by rwa [List.length_reverse])
  rw [word128_eq, BitVec.toNat_ofNat, Nat.mod_eq_of_lt hlt]

/-- One more digit is one shift. Up to the sixteenth digit nothing is shifted out. -/
theorem toNat_word128_shift {before : Bytes} (hlength : before.length < 16) (b : UInt8) :
    (word128 before <<< 8 ||| b.toBitVec.setWidth 128).toNat = 256 * (word128 before).toNat + b.toNat := by
  have hstep : word128 (before ++ [b]) = word128 before <<< 8 ||| b.toBitVec.setWidth 128 := by
    rw [word128, List.foldl_append]
    rfl
  have hnext : (before ++ [b]).length ≤ 16 := by
    rw [List.length_append, List.length_singleton]
    omega
  rw [← hstep, toNat_word128 hnext, toNat_word128 (Nat.le_of_lt hlength), valueBE_concat, Nat.add_comm]

theorem Uint.toU128_eq {n : Nat} (x : Uint n) :
    x.toU128 = if x.toNat < 2 ^ 128 then .ok (BitVec.ofNat 128 x.toNat) else .error (.bigIntegerOverflow 16) := by
  have hvalue : valueBE x.toBE.bytes = x.toNat := valueBE_reverse x.le.bytes
  have hfits : (significant x.toBE.bytes).length ≤ bigUintWidth ↔ x.toNat < 2 ^ 128 := by
    rw [length_significant_le, hvalue]
    rfl
  rw [toU128]
  by_cases hlt : x.toNat < 2 ^ 128
  · rw [if_pos hlt, if_neg (Nat.not_lt.mpr (hfits.mpr hlt)), word128_eq, valueBE_significant, hvalue]
  · rw [if_neg hlt, if_pos (Nat.not_le.mp (mt hfits.mp hlt))]
    rfl

/-! ### Reading -/

namespace Decode

variable {input : Bytes}

theorem readNatural_of_le (hle : 16 ≤ input.length) :
    readNatural input = .ok (valueLE (input.take 16), input.drop 16) := by
  obtain ⟨block, hblock, hvalue, -⟩ := exists_readBigUint hle
  rw [← hvalue]
  exact bind_of_ok hblock _

theorem exists_readU128 (hle : 16 ≤ input.length) :
    ∃ x, readU128 input = .ok (x, input.drop 16) ∧ x.toNat = valueLE (input.take 16) := by
  obtain ⟨block, hblock, hvalue, -⟩ := exists_readBigUint hle
  exact ⟨word128 block.bytes, bind_of_ok hblock _, (toNat_word128 block.length_eq.le).trans hvalue⟩

theorem readI128_of_le (hle : 16 ≤ input.length) (hbig : 2 ^ 127 ≤ valueLE (input.take 16)) :
    readI128 input = .error (.bigIntegerOverflow 16) := by
  obtain ⟨x, hread, hx⟩ := exists_readU128 hle
  have hmsb : x.msb = true := by simpa [BitVec.msb_eq_decide, hx] using hbig
  rw [readI128, bind_of_ok hread, if_pos hmsb]
  rfl

theorem exists_readI128 (hle : 16 ≤ input.length) (hsmall : valueLE (input.take 16) < 2 ^ 127) :
    ∃ x, readI128 input = .ok (x, input.drop 16) ∧ x.toInt = valueLE (input.take 16) := by
  obtain ⟨x, hread, hx⟩ := exists_readU128 hle
  have hmsb : x.msb = false := by simpa [BitVec.msb_eq_decide, hx] using hsmall
  refine ⟨x, ?_, by rw [BitVec.toInt_eq_toNat_of_msb hmsb, hx]⟩
  rw [readI128, bind_of_ok hread, hmsb]
  rfl

end Decode

namespace WideInteger

variable (w : WideInteger) (ctx : Context) {input : Bytes}

theorem exists_scalar_decode (hle : 16 ≤ input.length) (hsmall : w = .i128 → valueLE (input.take 16) < 2 ^ 127) :
    ∃ x, w.scalar.decode ctx input = .ok (x, input.drop 16) ∧ w.number x = valueLE (input.take 16) := by
  cases w with
  | u128 =>
      obtain ⟨x, hread, hx⟩ := Decode.exists_readU128 hle
      exact ⟨x, hread, congrArg Nat.cast hx⟩
  | i128 => exact Decode.exists_readI128 hle (hsmall rfl)
  | uint => exact ⟨_, Decode.bind_of_ok (Decode.take_of_le hle) _, rfl⟩
  | natural => exact ⟨_, Decode.readNatural_of_le hle, rfl⟩
  | integer => exact ⟨_, Decode.bind_of_ok (Decode.readNatural_of_le hle) _, rfl⟩

variable [Declarations]

theorem decode_of_lt (hlt : input.length < 16) :
    (Ty.scalar w.scalar).decode ctx input = .error (.unexpectedEndOfStream 16 input.length) := by
  have hblock : Decode.readBigUint 16 input = .error _ := Decode.readBigUint_of_lt hlt
  have hnatural : Decode.readNatural input = .error _ := Decode.bind_of_error hblock _
  have hu128 : Decode.readU128 input = .error _ := Decode.bind_of_error hblock _
  rw [Ty.decode_eq]
  apply Decode.bind_of_error
  cases w with
  | u128 => exact hu128
  | i128 => exact Decode.bind_of_error hu128 _
  | uint => exact Decode.bind_of_error (Decode.take_of_lt hlt) _
  | natural => exact hnatural
  | integer => exact Decode.bind_of_error hnatural _

theorem exists_decode (hle : 16 ≤ input.length) (hsmall : w = .i128 → valueLE (input.take 16) < 2 ^ 127) :
    ∃ x, (Ty.scalar w.scalar).decode ctx input = .ok (.scalar x, input.drop 16) ∧
      w.number x = valueLE (input.take 16) := by
  obtain ⟨x, hread, hx⟩ := w.exists_scalar_decode ctx hle hsmall
  rw [Ty.decode_eq]
  exact ⟨x, Decode.bind_of_ok hread _, hx⟩

theorem decode_i128_of_le (hle : 16 ≤ input.length) (hbig : 2 ^ 127 ≤ valueLE (input.take 16)) :
    (Ty.scalar .i128).decode ctx input = .error (.bigIntegerOverflow 16) := by
  rw [Ty.decode_eq]
  exact Decode.bind_of_error (Decode.readI128_of_le hle hbig) _

end WideInteger

/-- The integer types of sixteen bytes share one wire form, and no digit is lost in a word of 128 bits. -/
theorem WideInteger.shared_form [Declarations] (w : WideInteger) (ctx : Context) :
    (∀ n, w.Holds n ↔ ∃! x, w.number x = n) ∧
    (∀ x written, (Value.scalar x).encode ctx written =
      if w.number x < 0 then .error .negativeBigInteger
      else if w.number x < 2 ^ 128 then .ok ((), written ++ digitsLE 16 (w.number x).toNat)
      else .error (.bigIntegerOverflow 16)) ∧
    (∀ input, input.length < 16 →
      (Ty.scalar w.scalar).decode ctx input = .error (.unexpectedEndOfStream 16 input.length)) ∧
    (∀ input, 16 ≤ input.length → w = .i128 → 2 ^ 127 ≤ valueLE (input.take 16) →
      (Ty.scalar w.scalar).decode ctx input = .error (.bigIntegerOverflow 16)) ∧
    (∀ input, 16 ≤ input.length → (w = .i128 → valueLE (input.take 16) < 2 ^ 127) →
      ∃ x, (Ty.scalar w.scalar).decode ctx input = .ok (.scalar x, input.drop 16) ∧
        w.number x = valueLE (input.take 16)) ∧
    (∀ (before : Bytes) (b : UInt8), before.length < 16 →
      (word128 before <<< 8 ||| b.toBitVec.setWidth 128).toNat = 256 * (word128 before).toNat + b.toNat) ∧
    ∀ (n : Nat) (x : Uint n),
      (x.toNat < 2 ^ 128 → ∃ word, x.toU128 = .ok word ∧ word.toNat = x.toNat) ∧
      (2 ^ 128 ≤ x.toNat → x.toU128 = .error (.bigIntegerOverflow 16)) := by
  refine ⟨fun n => existsUnique_number_iff.symm, fun x written => congrFun (w.encode_eq x ctx) written,
    fun input hlt => w.decode_of_lt ctx hlt, ?overflow, fun input hle hsmall => w.exists_decode ctx hle hsmall,
    fun before b hlength => toNat_word128_shift hlength b, fun n x => ⟨?word, ?wide⟩⟩
  case overflow =>
    intro input hle hw hbig
    subst hw
    exact decode_i128_of_le ctx hle hbig
  case word =>
    intro hlt
    rw [x.toU128_eq, if_pos hlt]
    exact ⟨_, rfl, Nat.mod_eq_of_lt hlt⟩
  case wide =>
    intro hge
    rw [x.toU128_eq, if_neg (Nat.not_lt.mpr hge)]

/-- The least number that is too great for a signed word, and one byte more. -/
def halfway : Bytes := List.replicate 15 0 ++ [0x80, 9]

theorem WideInteger.shared_form_halfway :
    (∃! x, number .i128 x = -5) ∧
    (Value.scalar (s := .integer) (-5 : Int)).encode (.start .empty) [9] = .error .negativeBigInteger ∧
    (Ty.scalar .natural).decode (.start .empty) [1, 2] = .error (.unexpectedEndOfStream 16 2) ∧
    (Ty.scalar .i128).decode (.start .empty) halfway = .error (.bigIntegerOverflow 16) ∧
    (∃ x, (Ty.scalar .u128).decode (.start .empty) halfway = .ok (.scalar x, [9]) ∧ number .u128 x = 2 ^ 127) ∧
    (word128 [1] <<< 8 ||| (2 : UInt8).toBitVec.setWidth 128).toNat = 258 ∧
    (∃ word, (Uint.ofLE (.ofNatLE 20 7)).toU128 = .ok word ∧ word.toNat = 7) ∧
    (Uint.max : Uint 17).toU128 = .error (.bigIntegerOverflow 16) := by
  obtain ⟨hrange, -, -, hoverflow, -, hshift, huint⟩ := shared_form .i128 (.start .empty)
  obtain ⟨-, -, -, -, hread, -, -⟩ := shared_form .u128 (.start .empty)
  obtain ⟨-, -, hshort, -, -, -, -⟩ := shared_form .natural (.start .empty)
  obtain ⟨-, hwrite, -, -, -, -, -⟩ := shared_form .integer (.start .empty)
  exact ⟨(hrange (-5)).mp ⟨by decide, by decide⟩, hwrite (-5 : Int) [9], hshort [1, 2] (by decide),
    hoverflow halfway (by decide) rfl (by decide), hread halfway (by decide) nofun, hshift [1] 2 (by decide),
    (huint 20 _).1 (by decide), (huint 17 _).2 (by decide)⟩

end CanonicalWire
