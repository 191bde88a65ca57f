import CanonicalWire.Proofs.Libraries
import CanonicalWire.Proofs.Reading

/-!
The types without parts. What is read from bytes is written as these bytes, and what is written is read
back, but for decimals: these come back as the same number with scale zero.
-/

namespace CanonicalWire

theorem Utf8.decode?_eq_some {bs : Bytes} {s : String} : decode? bs = some s ↔ encode s = bs := by
  rw [decode?, String.fromUTF8?, encode]
  constructor
  · intro h
    split at h
    · cases h
      rfl
    · cases h
  · rintro rfl
    have hvalid : ByteArray.IsValidUTF8 ⟨s.toByteArray.data.toList.toArray⟩ := s.isValidUTF8
    rw [dif_pos hvalid]
    rfl

theorem Utf8.decode_eq_ok {bs : Bytes} {s : String} : decode bs = .ok s ↔ encode s = bs := by
  rw [← decode?_eq_some, decode]
  split
  · next h => simp [h]
  · next h => simp [h]

namespace Encode

theorem bytes_writeBigUint_eq_ok {magnitude : Bytes} {width : Nat} {b : Bytes} :
    (writeBigUint magnitude width).bytes = .ok b ↔
      valueBE magnitude < 256 ^ width ∧ b = digitsLE width (valueBE magnitude) := by
  rw [writeBigUint, bytes_lift_bind, bind_eq_ok]
  simp only [blockOfMagnitude_eq_ok, bytes_put, Except.ok.injEq]
  constructor
  · intro h
    obtain ⟨block, ⟨hlt, hblock⟩, rfl⟩ := h
    exact ⟨hlt, hblock⟩
  · intro h
    obtain ⟨hlt, rfl⟩ := h
    exact ⟨.ofNatLE width (valueBE magnitude), ⟨hlt, rfl⟩, rfl⟩

theorem bytes_writeU128 (x : BitVec 128) : (writeU128 x).bytes = .ok (digitsLE bigUintWidth x.toNat) := by
  have hlt : x.toNat < 256 ^ bigUintWidth := x.isLt
  rw [writeU128, bytes_writeBigUint_eq_ok, valueBE_reverse, valueLE_digitsLE, Nat.mod_eq_of_lt hlt]
  exact ⟨hlt, rfl⟩

theorem bytes_writeNatural_eq_ok {n : Nat} {b : Bytes} :
    (writeNatural n).bytes = .ok b ↔ n < 256 ^ bigUintWidth ∧ b = digitsLE bigUintWidth n := by
  rw [writeNatural, bytes_writeBigUint_eq_ok, valueBE_digitsBE]

theorem bytes_writeInteger_eq_ok {x : Int} {b : Bytes} :
    (writeInteger x).bytes = .ok b ↔ ∃ n : Nat, x = n ∧ (writeNatural n).bytes = .ok b := by
  rw [writeInteger]
  split
  · next hneg =>
      constructor
      · intro h
        cases h
      · intro h
        obtain ⟨n, rfl, -⟩ := h
        omega
  · next hpos =>
      obtain ⟨n, rfl⟩ := Int.eq_ofNat_of_zero_le (Int.not_lt.mp hpos)
      simp [writeNatural]

theorem bytes_writeDecimal_eq_ok {d : Decimal} {b : Bytes} :
    (writeDecimal d).bytes = .ok b ↔ d.isInteger = true ∧ (writeInteger d.truncate).bytes = .ok b := by
  rw [writeDecimal]
  split
  · next h => simp [h]
  · next h => simp [h]

theorem bytes_writeUuid_eq_ok {x : Uuid} {ctx : Context} {b : Bytes} :
    (writeUuid x ctx).bytes = .ok b ↔ 16 ≤ ctx.limits.maxBytesLen ∧ x.bytes = b := by
  rw [writeUuid, bytes_lift_bind, bind_eq_ok]
  constructor
  · intro h
    obtain ⟨_, hcheck, hput⟩ := h
    cases hput
    exact ⟨checkLength_eq_ok.mp hcheck, rfl⟩
  · intro h
    obtain ⟨hle, rfl⟩ := h
    exact ⟨⟨⟩, checkLength_eq_ok.mpr hle, rfl⟩

end Encode

namespace Decode

theorem accepts_readBigUint (width : Nat) :
    (readBigUint width).Accepts fun block taken =>
      valueBE block.bytes < 256 ^ width ∧ digitsLE width (valueBE block.bytes) = taken := by
  refine .map ((accepts_take width).mono ?_)
  rintro ⟨bytes, rfl⟩ _ rfl
  simp only [Block.reverse, valueBE_reverse]
  exact ⟨valueLE_lt bytes, digitsLE_valueLE bytes⟩

theorem reads_readBigUint {width n : Nat} (hn : n < 256 ^ width) :
    ∃ block : Block width, (readBigUint width).Reads (digitsLE width n) block ∧ valueBE block.bytes = n := by
  refine ⟨(Block.ofNatLE width n).reverse, (reads_take (Block.ofNatLE width n)).map _, ?_⟩
  simp only [Block.reverse, Block.ofNatLE, valueBE_reverse, valueLE_digitsLE]
  exact Nat.mod_eq_of_lt hn

theorem accepts_readNatural :
    readNatural.Accepts fun n taken => n < 256 ^ bigUintWidth ∧ digitsLE bigUintWidth n = taken :=
  .map (accepts_readBigUint bigUintWidth)

theorem reads_readNatural {n : Nat} (hn : n < 256 ^ bigUintWidth) :
    readNatural.Reads (digitsLE bigUintWidth n) n := by
  obtain ⟨block, hread, rfl⟩ := reads_readBigUint hn
  exact hread.map _

theorem accepts_readInt (k : IntKind) :
    (readInt k).Accepts fun x taken => (Encode.writeInt k x).bytes = .ok taken := by
  refine .map ((accepts_number k.width).mono ?_)
  rintro n _ ⟨hn, rfl⟩
  have hlt : n < 2 ^ (8 * k.width) := by rwa [Nat.pow_mul]
  rw [Encode.writeInt, Encode.bytes_put, BitVec.toNat_ofNat, Nat.mod_eq_of_lt hlt]

theorem reads_readInt {k : IntKind} (x : BitVec (8 * k.width)) :
    (readInt k).Reads (digitsLE k.width x.toNat) x := by
  have hlt : x.toNat < 256 ^ k.width := by
    have h := x.isLt
    rwa [Nat.pow_mul] at h
  have hread : (readInt k).Reads _ (BitVec.ofNat _ x.toNat) := (reads_number hlt).map _
  rwa [BitVec.ofNat_toNat, BitVec.setWidth_eq] at hread

theorem accepts_readU128 : readU128.Accepts fun x taken => digitsLE bigUintWidth x.toNat = taken := by
  refine .map ((accepts_readBigUint bigUintWidth).mono fun block taken h => ?_)
  have hlt : valueBE block.bytes < 2 ^ 128 := h.1
  rw [word128_eq, BitVec.toNat_ofNat, Nat.mod_eq_of_lt hlt]
  exact h.2

theorem reads_readU128 (x : BitVec 128) : readU128.Reads (digitsLE bigUintWidth x.toNat) x := by
  have hlt : x.toNat < 256 ^ bigUintWidth := x.isLt
  obtain ⟨block, hread, hblock⟩ := reads_readBigUint hlt
  have h : readU128.Reads _ (word128 block.bytes) := hread.map _
  rwa [word128_eq, hblock, BitVec.ofNat_toNat, BitVec.setWidth_eq] at h

theorem accepts_readI128 : readI128.Accepts fun x taken => (Encode.writeI128 x).bytes = .ok taken := by
  refine accepts_readU128.bind ?_
  rintro x _ rfl
  split
  · exact .throw _
  · next hmsb =>
      refine .pure ?_
      have hpos : ¬x.toInt < 0 := by simpa [BitVec.msb_eq_toInt] using hmsb
      rw [List.append_nil, Encode.writeI128, if_neg hpos, Encode.bytes_writeU128]

theorem reads_readI128 {x : BitVec 128} {b : Bytes} (h : (Encode.writeI128 x).bytes = .ok b) :
    readI128.Reads b x := by
  rw [Encode.writeI128] at h
  split at h
  · cases h
  · next hpos =>
      rw [Encode.bytes_writeU128] at h
      cases h
      have hmsb : x.msb = false := by simpa [BitVec.msb_eq_toInt] using hpos
      intro rest
      rw [readI128, bind_of_ok (reads_readU128 x rest), hmsb]
      rfl

theorem accepts_readInteger :
    Accepts (readNatural >>= fun n => pure (Int.ofNat n))
      fun x taken => (Encode.writeInteger x).bytes = .ok taken :=
  .map (accepts_readNatural.mono fun n _ h =>
    Encode.bytes_writeInteger_eq_ok.mpr ⟨n, rfl, Encode.bytes_writeNatural_eq_ok.mpr ⟨h.1, h.2.symm⟩⟩)

theorem reads_readInteger {x : Int} {b : Bytes} (h : (Encode.writeInteger x).bytes = .ok b) :
    Reads (readNatural >>= fun n => pure (Int.ofNat n)) b x := by
  obtain ⟨n, rfl, hn⟩ := Encode.bytes_writeInteger_eq_ok.mp h
  obtain ⟨hlt, rfl⟩ := Encode.bytes_writeNatural_eq_ok.mp hn
  exact (reads_readNatural hlt).map _

theorem accepts_readText (ctx : Context) :
    (readText ctx).Accepts fun s taken => (Encode.writeByteRun (Utf8.encode s) ctx).bytes = .ok taken := by
  refine (accepts_readByteRun ctx).bind fun bs taken h => ?_
  split
  · next s hs => exact .pure (by rwa [List.append_nil, Utf8.decode_eq_ok.mp hs])
  · exact .throw _

theorem reads_readText {s : String} {ctx : Context} {b : Bytes}
    (h : (Encode.writeByteRun (Utf8.encode s) ctx).bytes = .ok b) : (readText ctx).Reads b s := by
  intro rest
  have hdecode : Utf8.decode (Utf8.encode s) = .ok s := Utf8.decode_eq_ok.mpr rfl
  rw [readText, bind_of_ok (reads_readByteRun h rest), hdecode]
  rfl

theorem accepts_readUuid (ctx : Context) :
    (readUuid ctx).Accepts fun x taken => (Encode.writeUuid x ctx).bytes = .ok taken := by
  refine .lift_bind fun _ hcheck => (accepts_take 16).mono ?_
  exact fun block taken htaken => Encode.bytes_writeUuid_eq_ok.mpr ⟨checkLength_eq_ok.mp hcheck, htaken⟩

theorem reads_readUuid {x : Uuid} {ctx : Context} {b : Bytes} (h : (Encode.writeUuid x ctx).bytes = .ok b) :
    (readUuid ctx).Reads b x := by
  obtain ⟨hle, rfl⟩ := Encode.bytes_writeUuid_eq_ok.mp h
  intro rest
  rw [readUuid, checkLength_of_le hle]
  exact reads_take x rest

end Decode

theorem Decode.accepts_readDecimal :
    Accepts (readNatural >>= fun n => pure (Decimal.ofInt n))
      fun d taken => (Encode.writeDecimal d).bytes = .ok taken := by
  refine .map (accepts_readNatural.mono fun n taken h => ?_)
  have htruncate : (Decimal.ofInt n).truncate = n := Decimal.truncate_ofInt n
  refine Encode.bytes_writeDecimal_eq_ok.mpr ⟨rfl, Encode.bytes_writeInteger_eq_ok.mpr ⟨n, htruncate, ?_⟩⟩
  exact Encode.bytes_writeNatural_eq_ok.mpr ⟨h.1, h.2.symm⟩

theorem Decode.reads_readDecimal {d : Decimal} {b : Bytes} (h : (Encode.writeDecimal d).bytes = .ok b) :
    ∃ e, Reads (readNatural >>= fun n => pure (Decimal.ofInt n)) b e ∧ e.scale = 0 ∧ d.compare e = .eq := by
  obtain ⟨hinteger, htruncate⟩ := Encode.bytes_writeDecimal_eq_ok.mp h
  obtain ⟨n, hvalue, hn⟩ := Encode.bytes_writeInteger_eq_ok.mp htruncate
  obtain ⟨hlt, rfl⟩ := Encode.bytes_writeNatural_eq_ok.mp hn
  refine ⟨_, (reads_readNatural hlt).map _, rfl, ?_⟩
  rw [← hvalue]
  exact Decimal.compare_truncate hinteger

namespace Scalar

/-- What comes back of a value: a decimal is the same number with scale zero, all else is unchanged. -/
def RestoredAs : (s : Scalar) → s.Carrier → s.Carrier → Prop
  | .decimal, d, e => Decimal.scale e = 0 ∧ Decimal.compare d e = .eq
  | _, x, y => y = x

theorem accepts_decode (s : Scalar) (ctx : Context) :
    (s.decode ctx).Accepts fun x taken => (s.encode x ctx).bytes = .ok taken := by
  cases s with
  | bool => exact Decode.accepts_readBool.mono fun _ _ h => congrArg Except.ok h
  | int k => exact Decode.accepts_readInt k
  | u128 => exact Decode.accepts_readU128.mono fun x _ h => h ▸ Encode.bytes_writeU128 x
  | i128 => exact Decode.accepts_readI128
  | uint n => exact .map ((Decode.accepts_take n).mono fun _ _ h => congrArg Except.ok h)
  | natural =>
      exact Decode.accepts_readNatural.mono fun _ _ h => Encode.bytes_writeNatural_eq_ok.mpr ⟨h.1, h.2.symm⟩
  | integer => exact Decode.accepts_readInteger
  | decimal => exact Decode.accepts_readDecimal
  | text => exact Decode.accepts_readText ctx
  | bytes => exact Decode.accepts_readByteRun ctx
  | uuid => exact Decode.accepts_readUuid ctx

theorem reads_decode {s : Scalar} {x : s.Carrier} {ctx : Context} {b : Bytes}
    (h : (s.encode x ctx).bytes = .ok b) : ∃ y, (s.decode ctx).Reads b y ∧ s.RestoredAs x y := by
  cases s with
  | bool =>
      cases h
      exact ⟨x, Decode.reads_readBool x, rfl⟩
  | int k =>
      cases h
      exact ⟨x, Decode.reads_readInt _, rfl⟩
  | u128 =>
      cases (Encode.bytes_writeU128 _).symm.trans h
      exact ⟨x, Decode.reads_readU128 _, rfl⟩
  | i128 => exact ⟨x, Decode.reads_readI128 h, rfl⟩
  | uint n =>
      cases h
      exact ⟨x, (Decode.reads_take (Uint.toLE x)).map _, rfl⟩
  | natural =>
      obtain ⟨hlt, rfl⟩ := Encode.bytes_writeNatural_eq_ok.mp h
      exact ⟨x, Decode.reads_readNatural hlt, rfl⟩
  | integer => exact ⟨x, Decode.reads_readInteger h, rfl⟩
  | decimal => exact Decode.reads_readDecimal h
  | text => exact ⟨x, Decode.reads_readText h, rfl⟩
  | bytes => exact ⟨x, Decode.reads_readByteRun h, rfl⟩
  | uuid => exact ⟨x, Decode.reads_readUuid h, rfl⟩

end Scalar
end CanonicalWire
