import CanonicalWire.Uint
import Mathlib.Data.List.Induction
import Mathlib.Tactic.Ring

/-!
Base-256 digits denote numbers: both orders of digits, padding with zeros, and the block form. A number
has a block form exactly if it is small enough, and then it is its digits.
-/

namespace CanonicalWire

theorem valueLE_digitsLE (width x : Nat) : valueLE (digitsLE width x) = x % 256 ^ width := by
  induction width generalizing x with
  | zero => rw [digitsLE, valueLE, Nat.pow_zero, Nat.mod_one]
  | succ width ih =>
      have hmod : x % 256 ^ (width + 1) = x % 256 + 256 * (x / 256 % 256 ^ width) := by
        rw [Nat.pow_succ', Nat.mod_mul]
      rw [digitsLE, valueLE, ih, UInt8.toNat_ofNat', hmod]

theorem valueLE_lt (bs : Bytes) : valueLE bs < 256 ^ bs.length := by
  induction bs with
  | nil => exact Nat.one_pos
  | cons b bs ih =>
      have hb : b.toNat < 256 := b.toNat_lt
      rw [valueLE, List.length_cons, Nat.pow_succ]
      omega

theorem digitsLE_valueLE (bs : Bytes) : digitsLE bs.length (valueLE bs) = bs := by
  induction bs with
  | nil => rfl
  | cons b bs ih =>
      have hb : b.toNat < 256 := b.toNat_lt
      have hhead : UInt8.ofNat (b.toNat + 256 * valueLE bs) = b := by
        apply UInt8.toNat_inj.mp
        rw [UInt8.toNat_ofNat']
        omega
      have htail : (b.toNat + 256 * valueLE bs) / 256 = valueLE bs := by omega
      rw [List.length_cons, valueLE, digitsLE, hhead, htail, ih]

theorem valueLE_append (bs cs : Bytes) : valueLE (bs ++ cs) = valueLE bs + 256 ^ bs.length * valueLE cs := by
  induction bs with
  | nil => simp [valueLE]
  | cons b bs ih =>
      rw [List.cons_append, valueLE, valueLE, ih, List.length_cons]
      ring

theorem valueLE_zeros (n : Nat) : valueLE (List.replicate n 0) = 0 := by
  induction n with
  | zero => rfl
  | succ n ih => rw [List.replicate_succ, valueLE, ih]; rfl

theorem valueBE_reverse (bs : Bytes) : valueBE bs.reverse = valueLE bs := by
  rw [valueBE, List.reverse_reverse]

theorem valueBE_cons (b : UInt8) (bs : Bytes) : valueBE (b :: bs) = valueBE bs + 256 ^ bs.length * b.toNat := by
  rw [valueBE, List.reverse_cons, valueLE_append, List.length_reverse]
  simp [valueBE, valueLE]

theorem valueBE_concat (bs : Bytes) (b : UInt8) : valueBE (bs ++ [b]) = b.toNat + 256 * valueBE bs := by
  rw [valueBE, List.reverse_append]
  rfl

theorem valueBE_significant (magnitude : Bytes) : valueBE (significant magnitude) = valueBE magnitude := by
  induction magnitude with
  | nil => rfl
  | cons b bs ih =>
      rw [significant, List.dropWhile_cons]
      split
      · next h =>
          have hb : b = 0 := by simpa using h
          rw [← significant, ih, valueBE_cons, hb]
          simp
      · rfl

theorem pos_of_significant_eq_cons {magnitude bs : Bytes} {b : UInt8} (h : significant magnitude = b :: bs) :
    0 < b.toNat := by
  have hhead := List.head?_dropWhile_not (· == (0 : UInt8)) magnitude
  rw [← significant, h] at hhead
  have hne : b ≠ 0 := by simpa using hhead
  exact Nat.pos_of_ne_zero fun hzero => hne (UInt8.toNat_inj.mp hzero)

/-- The first significant digit is not zero, so their number is what the value needs. -/
theorem length_significant_le {magnitude : Bytes} {width : Nat} :
    (significant magnitude).length ≤ width ↔ valueBE magnitude < 256 ^ width := by
  rw [← valueBE_significant]
  constructor
  · intro h
    have hlt := valueLE_lt (significant magnitude).reverse
    rw [List.length_reverse] at hlt
    exact Nat.lt_of_lt_of_le hlt (Nat.pow_le_pow_right (by decide) h)
  · intro hlt
    cases hsig : significant magnitude with
    | nil => exact Nat.zero_le _
    | cons b bs =>
        have hb : 0 < b.toNat := pos_of_significant_eq_cons hsig
        rw [hsig, valueBE_cons] at hlt
        by_contra hlong
        have hlong : width ≤ bs.length := by
          rw [List.length_cons] at hlong
          omega
        have hpow : 256 ^ width ≤ 256 ^ bs.length := Nat.pow_le_pow_right (by decide) hlong
        have hmul : 256 ^ bs.length ≤ 256 ^ bs.length * b.toNat := Nat.le_mul_of_pos_right _ hb
        omega

/-- A number has a block form exactly if the width suffices, and then it is its digits. -/
theorem blockOfMagnitude_eq_ok {magnitude : Bytes} {width : Nat} {block : Block width} :
    blockOfMagnitude magnitude width = .ok block ↔
      valueBE magnitude < 256 ^ width ∧ block.bytes = digitsLE width (valueBE magnitude) := by
  rw [blockOfMagnitude]
  split
  · next h =>
      have hvalue : valueLE ((significant magnitude).reverse ++
          List.replicate (width - (significant magnitude).length) 0) = valueBE magnitude := by
        rw [valueLE_append, valueLE_zeros, Nat.mul_zero, Nat.add_zero, ← valueBE, valueBE_significant]
      have hdigits := digitsLE_valueLE ((significant magnitude).reverse ++
        List.replicate (width - (significant magnitude).length) 0)
      rw [hvalue, List.length_append, List.length_reverse, List.length_replicate, Nat.add_sub_cancel' h]
        at hdigits
      obtain ⟨bytes, hlength⟩ := block
      simp only [Except.ok.injEq, Block.mk.injEq, length_significant_le.mp h, true_and, hdigits, eq_comm]
  · next h =>
      simp [mt length_significant_le.mpr h]

theorem word128_eq (magnitude : Bytes) : word128 magnitude = BitVec.ofNat 128 (valueBE magnitude) := by
  induction magnitude using List.reverseRecOn with
  | nil => rfl
  | append_singleton bs b ih =>
      have hb : b.toNat < 2 ^ 8 := b.toNat_lt
      rw [valueBE_concat]
      rw [word128] at ih ⊢
      rw [List.foldl_append, List.foldl_cons, List.foldl_nil, ih]
      apply BitVec.eq_of_toNat_eq
      have hshift : (valueBE bs % 2 ^ 128) <<< 8 % 2 ^ 128 = valueBE bs <<< 8 % 2 ^ 128 := by
        rw [Nat.shiftLeft_eq, Nat.shiftLeft_eq, Nat.mod_mul_mod]
      rw [BitVec.toNat_or, BitVec.toNat_shiftLeft, BitVec.toNat_setWidth, BitVec.toNat_ofNat,
        BitVec.toNat_ofNat, hshift, ← Nat.or_mod_two_pow, UInt8.toNat_toBitVec,
        ← Nat.shiftLeft_add_eq_or_of_lt hb, Nat.shiftLeft_eq, Nat.add_comm, Nat.mul_comm]

end CanonicalWire
