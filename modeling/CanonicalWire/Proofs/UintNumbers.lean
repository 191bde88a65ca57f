import CanonicalWire.Proofs.WideIntegers

/-!
Unsigned integers of any width as numbers. Each operation takes the digits apart anew: comparison goes from the
most significant digit down, the text leaves leading zeros out, and the conversions look for the first digit that is
not zero. All of them do what the numbers say.
-/

namespace CanonicalWire

/-! ### Order -/

/-- The high parts decide before the low parts, which stay below `p`. -/
theorem compare_add_mul {p r s : Nat} (hr : r < p) (hs : s < p) (x y : Nat) :
    Ord.compare (r + p * x) (s + p * y) = (Ord.compare x y).then (Ord.compare r s) := by
  rcases Nat.lt_trichotomy x y with hlt | rfl | hgt
  · have hmul : p * x + p ≤ p * y := Nat.mul_le_mul_left p hlt
    rw [Nat.compare_eq_lt.mpr hlt]
    exact Nat.compare_eq_lt.mpr (by omega)
  · rw [Nat.compare_eq_eq.mpr rfl]
    simp [Nat.compare_eq_ite_lt]
  · have hmul : p * y + p ≤ p * x := Nat.mul_le_mul_left p hgt
    rw [Nat.compare_eq_gt.mpr hgt]
    exact Nat.compare_eq_gt.mpr (by omega)

theorem compare_toNat (a b : UInt8) : Ord.compare a b = Ord.compare a.toNat b.toNat :=
  (compare_of_injective_eq_compareOfLessAndEq a b UInt8.toNat fun _ _ => UInt8.toNat_inj.mp).symm

theorem valueBE_lt (bs : Bytes) : valueBE bs < 256 ^ bs.length := by
  have hlt := valueLE_lt bs.reverse
  rwa [List.length_reverse] at hlt

/-- Equally many digits compare from the first to the last as the numbers that they denote. -/
theorem compare_valueBE {a b : Bytes} (hlength : a.length = b.length) :
    Ord.compare a b = Ord.compare (valueBE a) (valueBE b) := by
  induction a generalizing b with
  | nil =>
      obtain rfl := List.eq_nil_of_length_eq_zero hlength.symm
      rfl
  | cons x xs ih =>
      obtain ⟨y, ys, rfl⟩ := List.exists_cons_of_length_eq_add_one hlength.symm
      have hrest : xs.length = ys.length := Nat.succ.inj hlength
      have hxs : valueBE xs < 256 ^ ys.length := hrest ▸ valueBE_lt xs
      rw [List.compare_cons_cons, valueBE_cons, valueBE_cons, hrest, compare_add_mul hxs (valueBE_lt ys),
        compare_toNat, ih hrest]

theorem Uint.valueBE_toBE {n : Nat} (x : Uint n) : valueBE x.toBE.bytes = x.toNat := valueBE_reverse x.le.bytes

theorem Uint.compare_eq {n : Nat} (x y : Uint n) : x.compare y = Ord.compare x.toNat y.toNat := by
  rw [compare, compare_valueBE (x.toBE.length_eq.trans y.toBE.length_eq.symm), valueBE_toBE, valueBE_toBE]

/-! ### Hexadecimal text -/

theorem Hex.digit_eq {d : Nat} (hd : d < 16) : digit d = Nat.digitChar d := by
  interval_cases d <;> rfl

/-- One more byte is two more digits, also where the byte is below sixteen. -/
theorem toDigits_byte {v : Nat} (hv : 0 < v) (b : UInt8) :
    Nat.toDigits 16 (256 * v + b.toNat) = Nat.toDigits 16 v ++ Hex.ofByte b := by
  have hb : b.toNat < 256 := b.toNat_lt
  have hhigh : b.toNat / 16 < 16 := by omega
  have hlow : b.toNat % 16 < 16 := by omega
  have hsplit : 256 * v + b.toNat = 16 * (16 * v + b.toNat / 16) + b.toNat % 16 := by omega
  calc Nat.toDigits 16 (256 * v + b.toNat)
      = Nat.toDigits 16 v ++ Nat.toDigits 16 (b.toNat / 16) ++ Nat.toDigits 16 (b.toNat % 16) := by
        rw [hsplit, Nat.toDigits_append_toDigits (by decide) hv hhigh,
          Nat.toDigits_append_toDigits (by decide) (by omega) hlow]
    _ = Nat.toDigits 16 v ++ Hex.ofByte b := by
        rw [Nat.toDigits_of_lt_base hhigh, Nat.toDigits_of_lt_base hlow, List.append_assoc, Hex.ofByte,
          Hex.digit_eq hhigh, Hex.digit_eq hlow]
        rfl

theorem toDigits_bytes {v : Nat} (hv : 0 < v) (bs : Bytes) :
    Nat.toDigits 16 (valueBE bs + 256 ^ bs.length * v) = Nat.toDigits 16 v ++ bs.flatMap Hex.ofByte := by
  induction bs generalizing v with
  | nil => simp [valueBE, valueLE]
  | cons b bs ih =>
      have hnext : valueBE (b :: bs) + 256 ^ (b :: bs).length * v =
          valueBE bs + 256 ^ bs.length * (256 * v + b.toNat) := by
        rw [valueBE_cons, List.length_cons]
        ring
      rw [hnext, ih (by omega), toDigits_byte hv, List.flatMap_cons, List.append_assoc]

/-- The first byte that is not zero is written without a zero in front. -/
theorem toDigits_lead (b : UInt8) :
    Nat.toDigits 16 b.toNat = if b.toNat < 16 then [Hex.digit b.toNat] else Hex.ofByte b := by
  split
  · next hlt => rw [Nat.toDigits_of_lt_base hlt, Hex.digit_eq hlt]
  · next hge =>
      have hb : b.toNat < 256 := b.toNat_lt
      have hhigh : b.toNat / 16 < 16 := by omega
      have hlow : b.toNat % 16 < 16 := by omega
      rw [Nat.toDigits_of_base_le (by decide) (Nat.not_lt.mp hge), Nat.toDigits_of_lt_base hhigh, Hex.ofByte,
        Hex.digit_eq hhigh, Hex.digit_eq hlow]
      rfl

theorem Uint.hexText_eq {n : Nat} (x : Uint n) : x.hexText = String.ofList (Nat.toDigits 16 x.toNat) := by
  rw [← x.valueBE_toBE, ← valueBE_significant, hexText]
  split
  · next hsig =>
      rw [hsig]
      rfl
  · next b bs hsig =>
      rw [hsig, valueBE_cons, toDigits_bytes (pos_of_significant_eq_cons hsig), toDigits_lead]

example : (Uint.ofLE (.ofNatLE 20 0x1020003) : Uint 20).hexText = "1020003" := by cbv

theorem digitChar_mem {d : Nat} (hd : d < 16) : Nat.digitChar d ∈ "0123456789abcdef".toList := by
  interval_cases d <;> decide

theorem toDigits_subset (m : Nat) : Nat.toDigits 16 m ⊆ "0123456789abcdef".toList := by
  induction m using Nat.strongRecOn with
  | ind m ih =>
      by_cases hlt : m < 16
      · rw [Nat.toDigits_of_lt_base hlt]
        exact List.cons_subset.mpr ⟨digitChar_mem hlt, List.nil_subset _⟩
      · rw [Nat.toDigits_of_base_le (by decide) (Nat.not_lt.mp hlt)]
        refine List.append_subset.mpr ⟨ih (m / 16) (by omega), ?_⟩
        exact List.cons_subset.mpr ⟨digitChar_mem (Nat.mod_lt m (by decide)), List.nil_subset _⟩

/-- Only zero is written with a zero in front. -/
theorem head?_toDigits (m : Nat) : (Nat.toDigits 16 m).head? = some '0' ↔ m = 0 := by
  induction m using Nat.strongRecOn with
  | ind m ih =>
      by_cases hlt : m < 16
      · rw [Nat.toDigits_of_lt_base hlt, List.head?_cons, Option.some_inj, Nat.digitChar_eq_zero]
      · rw [Nat.toDigits_of_base_le (by decide) (Nat.not_lt.mp hlt),
          List.head?_append_of_ne_nil _ Nat.toDigits_ne_nil, ih (m / 16) (by omega)]
        omega

/-! ### Conversions -/

namespace Uint

variable {n : Nat}

theorem exists_toNat_iff {m : Nat} : (∃ x : Uint n, x.toNat = m) ↔ m < 256 ^ n := by
  constructor
  · rintro ⟨x, rfl⟩
    exact x.toNat_lt
  · exact fun hlt => ⟨ofLE (.ofNatLE n m), toNat_ofNatLE hlt⟩

theorem existsUnique_toNat_iff {m : Nat} : (∃! x : Uint n, x.toNat = m) ↔ m < 256 ^ n := by
  rw [← exists_toNat_iff (n := n)]
  refine ⟨ExistsUnique.exists, ?_⟩
  rintro ⟨x, rfl⟩
  exact ⟨x, rfl, fun y hy => toNat_injective hy⟩

theorem ofMagnitude_eq (magnitude : Bytes) :
    (ofMagnitude magnitude : Except CodecError (Uint n)) =
      if valueBE magnitude < 256 ^ n then .ok (ofLE (.ofNatLE n (valueBE magnitude)))
      else .error (.bigIntegerOverflow n) := by
  rw [ofMagnitude, blockOfMagnitude_eq]
  split <;> rfl

theorem ofMagnitude_eq_ok {magnitude : Bytes} {x : Uint n} :
    ofMagnitude magnitude = .ok x ↔ x.toNat = valueBE magnitude := by
  rw [ofMagnitude_eq]
  by_cases hlt : valueBE magnitude < 256 ^ n
  · rw [if_pos hlt, Except.ok.injEq, eq_comm, ← toNat_injective.eq_iff, toNat_ofNatLE hlt]
  · rw [if_neg hlt]
    exact ⟨nofun, fun hx => absurd (hx ▸ x.toNat_lt) hlt⟩

theorem ofMagnitude_eq_error {magnitude : Bytes} :
    (ofMagnitude magnitude : Except CodecError (Uint n)) = .error (.bigIntegerOverflow n) ↔
      256 ^ n ≤ valueBE magnitude := by
  rw [ofMagnitude_eq, ← Nat.not_lt]
  split
  · next hlt => exact ⟨nofun, fun hge => absurd hlt hge⟩
  · next hge => exact ⟨fun _ => hge, fun _ => rfl⟩

theorem ofU128_eq_ok {word : BitVec 128} {x : Uint n} : ofU128 word = .ok x ↔ x.toNat = word.toNat := by
  have hlt : word.toNat < 256 ^ bigUintWidth := word.isLt
  rw [ofU128, ofMagnitude_eq_ok, valueBE_reverse, valueLE_digitsLE, Nat.mod_eq_of_lt hlt]

theorem toU128_eq_ok {word : BitVec 128} {x : Uint n} : x.toU128 = .ok word ↔ x.toNat = word.toNat := by
  rw [toU128_eq]
  by_cases hlt : x.toNat < 2 ^ 128
  · rw [if_pos hlt, Except.ok.injEq, ← BitVec.toNat_inj, BitVec.toNat_ofNat, Nat.mod_eq_of_lt hlt]
  · rw [if_neg hlt]
    exact ⟨nofun, fun hx => absurd (hx ▸ word.isLt) hlt⟩

theorem exists_toU128_iff {x : Uint n} : (∃ word, x.toU128 = .ok word) ↔ x.toNat < 2 ^ 128 := by
  simp only [toU128_eq_ok]
  constructor
  · rintro ⟨word, hx⟩
    exact hx ▸ word.isLt
  · exact fun hlt => ⟨BitVec.ofNat 128 x.toNat, (Nat.mod_eq_of_lt hlt).symm⟩

theorem toNat_ofBE (b : Block n) : (ofBE b).toNat = valueBE b.bytes := rfl

theorem toBE_ofBE (b : Block n) : (ofBE b).toBE = b := Block.ext (List.reverse_reverse b.bytes)

theorem ofBE_toBE (x : Uint n) : ofBE x.toBE = x := congrArg mk (Block.ext (List.reverse_reverse x.le.bytes))

/-- The unsigned integers of `n` bytes are the numbers below `256 ^ n`: order, text and conversions are those of
the numbers. -/
theorem faithful (n : Nat) :
    (∀ m, (∃! x : Uint n, x.toNat = m) ↔ m < 256 ^ n) ∧
    (∀ x y : Uint n, x.compare y = Ord.compare x.toNat y.toNat) ∧
    (∀ x : Uint n, x.hexText = String.ofList (Nat.toDigits 16 x.toNat) ∧
      x.hexText.toList ⊆ "0123456789abcdef".toList ∧ (x.hexText.toList.head? = some '0' ↔ x.toNat = 0)) ∧
    (∀ magnitude, ((∃ x : Uint n, ofMagnitude magnitude = .ok x) ↔ valueBE magnitude < 256 ^ n) ∧
      ((ofMagnitude magnitude : Except _ (Uint n)) = .error (.bigIntegerOverflow n) ↔ 256 ^ n ≤ valueBE magnitude) ∧
      ∀ x : Uint n, ofMagnitude magnitude = .ok x ↔ x.toNat = valueBE magnitude) ∧
    (∀ x : Uint n, ofBE x.toBE = x ∧ valueBE x.toBE.bytes = x.toNat) ∧
    (∀ b : Block n, (ofBE b).toBE = b ∧ (ofBE b).toNat = valueBE b.bytes) ∧
    (∀ word, (∃ x : Uint n, ofU128 word = .ok x) ↔ word.toNat < 256 ^ n) ∧
    (∀ x : Uint n, (∃ word, x.toU128 = .ok word) ↔ x.toNat < 2 ^ 128) ∧
    ∀ (word : BitVec 128) (x : Uint n),
      (ofU128 word = .ok x ↔ x.toU128 = .ok word) ∧ (x.toU128 = .ok word ↔ x.toNat = word.toNat) := by
  refine ⟨fun m => existsUnique_toNat_iff, compare_eq, ?text, ?magnitude, fun x => ⟨ofBE_toBE x, valueBE_toBE x⟩,
    fun b => ⟨toBE_ofBE b, toNat_ofBE b⟩, ?word, fun x => exists_toU128_iff,
    fun word x => ⟨ofU128_eq_ok.trans toU128_eq_ok.symm, toU128_eq_ok⟩⟩
  case text =>
    intro x
    rw [hexText_eq, String.toList_ofList]
    exact ⟨rfl, toDigits_subset x.toNat, head?_toDigits x.toNat⟩
  case magnitude =>
    intro magnitude
    refine ⟨?_, ofMagnitude_eq_error, fun x => ofMagnitude_eq_ok⟩
    simp only [ofMagnitude_eq_ok]
    exact exists_toNat_iff
  case word =>
    intro word
    simp only [ofU128_eq_ok]
    exact exists_toNat_iff

end Uint
end CanonicalWire
