import CanonicalWire.Proofs.WideIntegers

/-!
Decimals by number. Mantissa and scale may denote one number in many ways, and only the number decides what is
written: a fraction is refused first, then a number below zero, then one that needs more than sixteen bytes.
-/

namespace CanonicalWire
/-! ### Writing -/

namespace Encode

theorem exists_bytes_writeNumber_iff {n : Int} : (∃ b, (writeNumber n).bytes = .ok b) ↔ 0 ≤ n ∧ n < 2 ^ 128 := by
  rw [bytes, exists_map_eq_ok, writeNumber]
  split
  · next hneg =>
      refine ⟨?_, fun h => absurd hneg (Int.not_lt.mpr h.1)⟩
      rintro ⟨_, ⟨⟩⟩
  · next hpos =>
      split
      · next hlt => exact ⟨fun _ => ⟨Int.not_lt.mp hpos, hlt⟩, fun _ => ⟨_, rfl⟩⟩
      · next hbig =>
          refine ⟨?_, fun h => absurd h.2 hbig⟩
          rintro ⟨_, ⟨⟩⟩

variable {d : Decimal}

theorem writeDecimal_of_toRat {n : Int} (h : d.toRat = n) : writeDecimal d = writeNumber n := by
  have hinteger := Decimal.isInteger_of_toRat h
  rw [Decimal.toRat_eq_truncate hinteger] at h
  rw [writeDecimal, if_pos hinteger, writeInteger_eq, Int.cast_injective h]

theorem writeDecimal_of_fraction (h : ¬∃ n : Int, d.toRat = n) :
    writeDecimal d = throw (.unsupportedShape (.fractional d)) := by
  rw [writeDecimal, if_neg fun hinteger => h ⟨_, Decimal.toRat_eq_truncate hinteger⟩]

theorem exists_bytes_writeDecimal_iff :
    (∃ b, (writeDecimal d).bytes = .ok b) ↔ ∃ n : Int, d.toRat = n ∧ 0 ≤ n ∧ n < 2 ^ 128 := by
  by_cases hinteger : ∃ n : Int, d.toRat = n
  · obtain ⟨n, hn⟩ := hinteger
    rw [writeDecimal_of_toRat hn, exists_bytes_writeNumber_iff, hn]
    simp
  · rw [writeDecimal_of_fraction hinteger]
    exact ⟨nofun, fun ⟨n, hn, _⟩ => absurd ⟨n, hn⟩ hinteger⟩

/-- Two decimals of one number are written alike, or both are refused as fractions. -/
theorem writeDecimal_congr {e : Decimal} (h : e.toRat = d.toRat) :
    writeDecimal e = writeDecimal d ∨ (writeDecimal d = throw (.unsupportedShape (.fractional d)) ∧
      writeDecimal e = throw (.unsupportedShape (.fractional e))) := by
  by_cases hinteger : ∃ n : Int, d.toRat = n
  · obtain ⟨n, hn⟩ := hinteger
    exact .inl (by rw [writeDecimal_of_toRat (h.trans hn), writeDecimal_of_toRat hn])
  · exact .inr ⟨writeDecimal_of_fraction hinteger, writeDecimal_of_fraction (h ▸ hinteger)⟩

end Encode

/-! ### Reading -/

namespace Decimal

variable (ctx : Context) {input : Bytes}

theorem decode_of_lt [Declarations] (hlt : input.length < 16) :
    (Ty.scalar .decimal).decode ctx input = .error (.unexpectedEndOfStream 16 input.length) := by
  have hnatural : Decode.readNatural input = .error (.unexpectedEndOfStream 16 input.length) :=
    Decode.bind_of_error (Decode.readBigUint_of_lt hlt) _
  rw [Ty.decode_eq]
  exact Decode.bind_of_error (Decode.bind_of_error hnatural _) _

theorem decode_of_le [Declarations] (hle : 16 ≤ input.length) : (Ty.scalar .decimal).decode ctx input =
    .ok (.scalar (s := .decimal) (ofInt (valueLE (input.take 16))), input.drop 16) := by
  rw [Ty.decode_eq]
  exact Decode.bind_of_ok (Decode.bind_of_ok (Decode.readNatural_of_le hle) _) _

theorem writeDecimal_of_taken (hle : 16 ≤ input.length) (written : Bytes) :
    Encode.writeDecimal (ofInt (valueLE (input.take 16))) written = .ok ((), written ++ input.take 16) := by
  let taken : Block bigUintWidth := Decode.firstBlock hle
  have hlt : valueLE (input.take 16) < 256 ^ bigUintWidth := taken.valueLE_lt
  have hdigits : digitsLE bigUintWidth (valueLE (input.take 16)) = input.take 16 := taken.digitsLE_valueLE
  rw [Encode.writeDecimal_of_toRat (toRat_ofInt _), Encode.writeNumber_natCast, if_pos hlt, hdigits]

/-- The written form of a decimal, and whether it has one, is a matter of the number that it denotes. What is read
has scale zero, and is written as the bytes that it was read from. -/
theorem written_by_number [Declarations] (ctx : Context) :
    (∀ (d : Decimal) (n : Int), d.toRat = n → ∀ written, (Value.scalar (s := .decimal) d).encode ctx written =
      if n < 0 then .error .negativeBigInteger
      else if n < 2 ^ 128 then .ok ((), written ++ digitsLE 16 n.toNat)
      else .error (.bigIntegerOverflow 16)) ∧
    (∀ d : Decimal, (¬∃ n : Int, d.toRat = n) → ∀ written,
      (Value.scalar (s := .decimal) d).encode ctx written = .error (.unsupportedShape (.fractional d))) ∧
    (∀ d : Decimal, (∃ b, ((Value.scalar (s := .decimal) d).encode ctx).bytes = .ok b) ↔
      ∃ n : Int, d.toRat = n ∧ 0 ≤ n ∧ n < 2 ^ 128) ∧
    (∀ (d : Decimal) (word : BitVec 128), d.toRat = word.toNat →
      (Value.scalar (s := .decimal) d).encode ctx = (Value.scalar (s := .u128) word).encode ctx) ∧
    (∀ d e : Decimal, e.toRat = d.toRat →
      (Value.scalar (s := .decimal) e).encode ctx = (Value.scalar (s := .decimal) d).encode ctx ∨
      ∀ written, (Value.scalar (s := .decimal) d).encode ctx written = .error (.unsupportedShape (.fractional d)) ∧
        (Value.scalar (s := .decimal) e).encode ctx written = .error (.unsupportedShape (.fractional e))) ∧
    (∀ input, input.length < 16 →
      (Ty.scalar .decimal).decode ctx input = .error (.unexpectedEndOfStream 16 input.length)) ∧
    ∀ input, 16 ≤ input.length → ∃ d : Decimal,
      (Ty.scalar .decimal).decode ctx input = .ok (.scalar (s := .decimal) d, input.drop 16) ∧ d.scale = 0 ∧
        d.toRat = valueLE (input.take 16) ∧
        ∀ written, (Value.scalar (s := .decimal) d).encode ctx written = .ok ((), written ++ input.take 16) := by
  refine ⟨fun d n hn => congrFun (Encode.writeDecimal_of_toRat hn),
    fun d hfraction => congrFun (Encode.writeDecimal_of_fraction hfraction),
    fun d => Encode.exists_bytes_writeDecimal_iff, ?word, ?same, fun input hlt => decode_of_lt ctx hlt, ?read⟩
  case word =>
    intro d word hword
    exact (Encode.writeDecimal_of_toRat (n := word.toNat) hword).trans (Encode.writeU128_eq word).symm
  case same =>
    intro d e hsame
    refine (Encode.writeDecimal_congr hsame).imp id fun h written => ?_
    exact ⟨congrFun h.1 written, congrFun h.2 written⟩
  case read =>
    intro input hle
    exact ⟨_, decode_of_le ctx hle, rfl, toRat_ofInt _, writeDecimal_of_taken hle⟩

/-- A hundred hundredths, a thousand thousandths and one are one, half a unit below zero is a fraction before it is
anything else, and a one with thirty-nine zeros is too great. -/
theorem written_by_number_one :
    (Value.scalar (s := .decimal) ⟨100, 2⟩).encode (.start .empty) [9] = .ok ((), 9 :: 1 :: List.replicate 15 0) ∧
    (Value.scalar (s := .decimal) ⟨-5, 1⟩).encode (.start .empty) [9] =
      .error (.unsupportedShape (.fractional ⟨-5, 1⟩)) ∧
    (Value.scalar (s := .decimal) ⟨-50, 1⟩).encode (.start .empty) [9] = .error .negativeBigInteger ∧
    (Value.scalar (s := .decimal) ⟨1, -39⟩).encode (.start .empty) [9] = .error (.bigIntegerOverflow 16) ∧
    (Value.scalar (s := .decimal) ⟨100, 2⟩).encode (.start .empty) =
      (Value.scalar (s := .u128) (1 : BitVec 128)).encode (.start .empty) ∧
    ((Value.scalar (s := .decimal) ⟨1000, 3⟩).encode (.start .empty) =
      (Value.scalar (s := .decimal) ⟨100, 2⟩).encode (.start .empty)) ∧
    (Ty.scalar .decimal).decode (.start .empty) [1, 2] = .error (.unexpectedEndOfStream 16 2) ∧
    ∃ d : Decimal, (Ty.scalar .decimal).decode (.start .empty) halfway = .ok (.scalar (s := .decimal) d, [9]) ∧
      d.scale = 0 ∧ d.toRat = 2 ^ 127 := by
  obtain ⟨hwrite, hfraction, -, hword, hsame, hshort, hread⟩ := written_by_number (.start .empty)
  have hone : (⟨100, 2⟩ : Decimal).toRat = (1 : Int) := by norm_num [toRat]
  have hhalf : ¬∃ n : Int, (⟨-5, 1⟩ : Decimal).toRat = n := mt isInteger_iff.mpr (by decide)
  have hneg : (⟨-50, 1⟩ : Decimal).toRat = (-5 : Int) := by norm_num [toRat]
  have hbig : (⟨1, -39⟩ : Decimal).toRat = (10 ^ 39 : Int) := by norm_num [toRat]
  have hthousand : (⟨1000, 3⟩ : Decimal).toRat = (⟨100, 2⟩ : Decimal).toRat := by norm_num [toRat]
  refine ⟨hwrite _ 1 hone [9], hfraction _ hhalf [9], hwrite _ (-5) hneg [9], hwrite _ _ hbig [9],
    hword _ 1 (by exact_mod_cast hone), (hsame _ _ hthousand).resolve_right ?_, hshort [1, 2] (by decide), ?_⟩
  · intro hfail
    cases (hwrite _ 1 hone []).symm.trans (hfail []).1
  · obtain ⟨d, hd, hscale, hnumber, -⟩ := hread halfway (by decide)
    have hvalue : valueLE (halfway.take 16) = 2 ^ 127 := by decide
    exact ⟨d, hd, hscale, by exact_mod_cast hvalue ▸ hnumber⟩

end Decimal
end CanonicalWire
