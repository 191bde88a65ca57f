import CanonicalWire.Derive.Literal
import CanonicalWire.Proofs.Digits
import CanonicalWire.Proofs.Paths
import CanonicalWire.Proofs.Tokens
import Mathlib

/-!
Parts that other libraries provide. Big integers give their bytes, decimals their numbers, and attributes are written
with literals and types. What is taken to be exact of these parts is gathered here: it holds of the definitions that
stand in their place, and a part of which it holds may take such a place. Which types are paths is said in a module of
its own.
-/

namespace CanonicalWire

/-! ### The bytes of a big integer -/

theorem valueBE_digitsBE (x : Nat) : valueBE (digitsBE x) = x := by
  rw [digitsBE, valueBE_reverse, valueLE_digitsLE]
  apply Nat.mod_eq_of_lt
  calc x < 2 ^ (x.log2 + 1) := Nat.lt_log2_self
    _ ≤ 2 ^ (8 * (x.log2 / 8 + 1)) := Nat.pow_le_pow_right (by decide) (by omega)
    _ = 256 ^ (x.log2 / 8 + 1) := by rw [Nat.pow_mul]

theorem digitsBE_zero : digitsBE 0 = [0] := rfl

/-- A number is at least the power of 256 that its number of bytes takes up to its first digit. -/
theorem pow_log2_div_le {x : Nat} (hx : x ≠ 0) : 256 ^ (x.log2 / 8) ≤ x :=
  calc 256 ^ (x.log2 / 8) = 2 ^ (8 * (x.log2 / 8)) := by rw [Nat.pow_mul]
    _ ≤ 2 ^ x.log2 := Nat.pow_le_pow_right (by decide) (Nat.mul_div_le _ _)
    _ ≤ x := Nat.log2_self_le hx

/-- The bytes of a number that is not zero begin with one that is not. -/
theorem significant_digitsBE {x : Nat} (hx : x ≠ 0) : significant (digitsBE x) = digitsBE x := by
  refine List.IsSuffix.eq_of_length_le (List.dropWhile_suffix _) ?_
  by_contra hshort
  have hlength : (significant (digitsBE x)).length ≤ x.log2 / 8 := by
    rw [digitsBE, List.length_reverse, length_digitsLE] at hshort
    exact Nat.lt_succ_iff.mp (Nat.not_le.mp hshort)
  rw [length_significant_le, valueBE_digitsBE] at hlength
  exact absurd (pow_log2_div_le hx) (Nat.not_le.mpr hlength)

/-! ### The number of a decimal -/

namespace Decimal

/-- The number that a decimal denotes. -/
def toRat (d : Decimal) : ℚ := d.mantissa * (10 : ℚ) ^ (-d.scale)

theorem tenTo_of_nonpos {e : Int} (he : e ≤ 0) : tenTo e = 1 := by
  rw [tenTo, Int.toNat_of_nonpos he]

theorem tenTo_ne_zero (e : Int) : tenTo e ≠ 0 := (Nat.pow_pos (by decide)).ne'

theorem zpow_eq_tenTo {e : Int} (he : 0 ≤ e) : (10 : ℚ) ^ e = tenTo e := by
  obtain ⟨k, rfl⟩ := Int.eq_ofNat_of_zero_le he
  simp [tenTo]

/-- One of the two powers is one, whatever the sign of the exponent. -/
theorem zpow_eq_div (e : Int) : (10 : ℚ) ^ e = tenTo e / tenTo (-e) := by
  rcases Int.le_total 0 e with he | he
  · rw [tenTo_of_nonpos (e := -e) (by omega), Nat.cast_one, div_one, zpow_eq_tenTo he]
  · rw [tenTo_of_nonpos he, Nat.cast_one, one_div, ← zpow_eq_tenTo (by omega), zpow_neg, inv_inv]

theorem toRat_eq_intCast_iff {d : Decimal} {n : Int} :
    d.toRat = n ↔ d.mantissa * tenTo (-d.scale) = n * tenTo d.scale := by
  have hne : (tenTo d.scale : ℚ) ≠ 0 := Nat.cast_ne_zero.mpr (tenTo_ne_zero d.scale)
  rw [toRat, zpow_eq_div, neg_neg, ← mul_div_assoc, div_eq_iff hne]
  exact_mod_cast Iff.rfl

theorem toRat_ofInt (n : Int) : (ofInt n).toRat = n := by
  rw [toRat_eq_intCast_iff]
  rfl

theorem isInteger_of_toRat {d : Decimal} {n : Int} (h : d.toRat = n) : d.isInteger = true := by
  rw [isInteger, Bool.or_eq_true, decide_eq_true_eq, beq_iff_eq]
  by_cases hscale : d.scale ≤ 0
  · exact .inl hscale
  · rw [toRat_eq_intCast_iff, tenTo_of_nonpos (e := -d.scale) (by omega), Nat.cast_one, Int.mul_one] at h
    exact .inr (h ▸ Int.mul_emod_left _ _)

theorem toRat_eq_truncate {d : Decimal} (h : d.isInteger = true) : d.toRat = d.truncate := by
  rw [toRat_eq_intCast_iff, truncate]
  split
  · next hscale => rw [tenTo_of_nonpos hscale, Nat.cast_one, Int.mul_one]
  · next hscale =>
      have hdvd : (tenTo d.scale : Int) ∣ d.mantissa := by
        rw [isInteger, Bool.or_eq_true, decide_eq_true_eq, beq_iff_eq] at h
        exact Int.dvd_of_emod_eq_zero (h.resolve_left hscale)
      rw [tenTo_of_nonpos (e := -d.scale) (by omega), Nat.cast_one, Int.mul_one, Int.tdiv_mul_cancel hdvd]

/-- A decimal counts as whole exactly if its number is. -/
theorem isInteger_iff {d : Decimal} : d.isInteger = true ↔ ∃ n : Int, d.toRat = n := by
  constructor
  · intro h
    exact ⟨_, toRat_eq_truncate h⟩
  · rintro ⟨_, h⟩
    exact isInteger_of_toRat h

theorem truncate_ofInt (m : Int) : (ofInt m).truncate = m := Int.mul_one m

/-- The number over a power of ten that suffices. -/
theorem toRat_mul_zpow {d : Decimal} {scale : Int} (hle : d.scale ≤ scale) :
    d.toRat * (10 : ℚ) ^ scale = (d.mantissa * tenTo (scale - d.scale) : Int) := by
  rw [toRat, mul_assoc, ← zpow_add₀ (by norm_num), neg_add_eq_sub, zpow_eq_tenTo (by omega)]
  push_cast
  rfl

/-- Decimals are ordered by their numbers. -/
theorem compare_eq (a b : Decimal) : a.compare b = Ord.compare a.toRat b.toRat := by
  have hmono : StrictMono fun q : ℚ => q * (10 : ℚ) ^ max a.scale b.scale :=
    fun _ _ h => mul_lt_mul_of_pos_right h (zpow_pos (by norm_num) _)
  rw [Decimal.compare, ← cmp_eq_compare, ← cmp_eq_compare, ← hmono.cmp_map_eq, toRat_mul_zpow (le_max_left _ _),
    toRat_mul_zpow (le_max_right _ _)]
  exact (Int.cast_strictMono.cmp_map_eq _ _).symm

theorem compare_truncate {d : Decimal} (h : d.isInteger = true) : d.compare (ofInt d.truncate) = .eq := by
  rw [compare_eq, toRat_ofInt, toRat_eq_truncate h, compare_eq_iff_eq]

end Decimal

/-! ### Literals of decimal digits -/

namespace Derive.Literal

theorem magnitude?_digits {cs : List Char} (h : ∀ c ∈ cs, isDigit c = true) (value : Nat) {seen : Bool}
    (hseen : seen = true ∨ cs ≠ []) :
    magnitude? 10 value seen cs = some (cs.foldl (fun n c => 10 * n + (c.toNat - 48)) value) := by
  induction cs generalizing value seen with
  | nil => simp_all [magnitude?]
  | cons c cs ih =>
      obtain ⟨hc, hcs⟩ := List.forall_mem_cons.mp h
      have hlt : c.toNat - 48 < 10 := by have := isDigit_iff.mp hc; omega
      have hne : c ≠ '_' := by rintro rfl; cases hc
      rw [magnitude?, if_neg hne, digit?, if_pos hc]
      simp only [hlt, if_true]
      exact ih hcs _ (.inl rfl)

theorem unsigned?_digits {cs : List Char} (hne : cs ≠ []) (h : ∀ c ∈ cs, isDigit c = true) :
    unsigned? cs = some (decimalValue cs) := by
  unfold unsigned?
  split
  · exact absurd (h 'x' (by simp)) (by decide)
  · exact absurd (h 'o' (by simp)) (by decide)
  · exact absurd (h 'b' (by simp)) (by decide)
  · next c cs _ _ _ =>
      rw [if_pos (h c (List.mem_cons_self ..))]
      exact magnitude?_digits h 0 (.inr hne)
  · exact absurd rfl hne

theorem ofSpelling_digits {s : String} (hne : s ≠ "") (h : ∀ c ∈ s.toList, isDigit c = true) :
    ofSpelling s = .integer false s (decimalValue s.toList) := by
  have hcs : s.toList ≠ [] := by simpa using hne
  have hsign : splitSign s.toList = (false, s.toList) := by
    rw [splitSign, trim_of_all fun c hc => isWhiteSpace_of_isDigit (h c hc)]
    split
    · next heq => exact absurd (h '-' (by simp [heq])) (by decide)
    · rfl
  rw [ofSpelling, hsign]
  simp only [unsigned?_digits hcs h, String.ofList_toList]

end Derive.Literal
end CanonicalWire
