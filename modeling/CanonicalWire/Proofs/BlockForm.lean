import CanonicalWire.Proofs.Scalars

/-!
Block form is positional notation. A magnitude has a block form exactly if the number that it denotes is below
`256 ^ width`; this is then its digits, and reading them gives the magnitude back up to leading zeros. A number
that is too great is noticed before the first byte is written.
-/

namespace CanonicalWire

theorem getElem?_digitsLE {width i : Nat} (hi : i < width) (x : Nat) :
    (digitsLE width x)[i]? = some (UInt8.ofNat (x / 256 ^ i % 256)) := by
  induction width generalizing x i with
  | zero => omega
  | succ width ih =>
      rw [digitsLE]
      cases i with
      | zero =>
          have hmod : UInt8.ofNat x = UInt8.ofNat (x % 256) := by
            apply UInt8.toNat_inj.mp
            simp
          rw [List.getElem?_cons_zero, hmod, Nat.pow_zero, Nat.div_one]
      | succ i =>
          rw [List.getElem?_cons_succ, ih (by omega), Nat.div_div_eq_div_mul, ← Nat.pow_succ']

theorem Block.valueLE_lt {n : Nat} (block : Block n) : valueLE block.bytes < 256 ^ n := by
  obtain ⟨bytes, rfl⟩ := block
  exact CanonicalWire.valueLE_lt bytes

theorem Block.digitsLE_valueLE {n : Nat} (block : Block n) : digitsLE n (valueLE block.bytes) = block.bytes := by
  obtain ⟨bytes, rfl⟩ := block
  exact CanonicalWire.digitsLE_valueLE bytes

/-- Both outcomes of block form, by the number that the magnitude denotes. -/
theorem blockOfMagnitude_eq (magnitude : Bytes) (width : Nat) :
    blockOfMagnitude magnitude width =
      if valueBE magnitude < 256 ^ width then .ok (.ofNatLE width (valueBE magnitude))
      else .error (.bigIntegerOverflow width) := by
  split
  · next hlt => exact blockOfMagnitude_eq_ok.mpr ⟨hlt, rfl⟩
  · next hge => rw [blockOfMagnitude, dif_neg (mt length_significant_le.mp hge)]

/-! ### Leading zeros -/

theorem significant_zeros_append (k : Nat) (bs : Bytes) : significant (List.replicate k 0 ++ bs) = significant bs := by
  induction k with
  | zero => rfl
  | succ k ih =>
      rw [List.replicate_succ, List.cons_append, significant, List.dropWhile_cons_of_pos rfl, ← ih, significant]

theorem significant_significant (bs : Bytes) : significant (significant bs) = significant bs :=
  List.dropWhile_idempotent (· == 0) bs

/-- The significant digits from the last to the first, filled up with zeros, are the digits of the number. -/
theorem reverse_significant_append_zeros {magnitude : Bytes} {width : Nat}
    (hle : (significant magnitude).length ≤ width) :
    (significant magnitude).reverse ++ List.replicate (width - (significant magnitude).length) 0 =
      digitsLE width (valueBE magnitude) := by
  have hblock : blockOfMagnitude magnitude width = .ok _ := dif_pos hle
  exact (blockOfMagnitude_eq_ok.mp hblock).2

theorem significant_reverse_digitsLE {magnitude : Bytes} {width : Nat} (hlt : valueBE magnitude < 256 ^ width) :
    significant (digitsLE width (valueBE magnitude)).reverse = significant magnitude := by
  rw [← reverse_significant_append_zeros (length_significant_le.mpr hlt), List.reverse_append, List.reverse_reverse,
    List.reverse_replicate, significant_zeros_append, significant_significant]

/-! ### Byte by byte -/

namespace Encode

theorem writeBigUint_apply (magnitude : Bytes) (width : Nat) (written : Bytes) :
    writeBigUint magnitude width written =
      if valueBE magnitude < 256 ^ width then .ok ((), written ++ digitsLE width (valueBE magnitude))
      else .error (.bigIntegerOverflow width) := by
  rw [writeBigUint, blockOfMagnitude_eq]
  split <;> rfl

/-- An action on a writer whose content can be seen after a failure, too. -/
abbrev Visibly : Type := EStateM CodecError Bytes Unit

/-- The outcome of an action, without what a failure leaves behind. -/
def Visibly.outcome (action : Visibly) : Encode := fun written =>
  match action.run written with
  | .ok u after => .ok (u, after)
  | .error e _ => .error e

/-- Appends bytes one after the other. -/
def pushEach (bs : Bytes) : Visibly := bs.forM fun b => modify (· ++ [b])

/-- Writes block form byte by byte: after a look at the number of significant digits these are written from the last
to the first, and then zeros up to the width. -/
def pushBigUint (magnitude : Bytes) (width : Nat) : Visibly := do
  if width < (significant magnitude).length then throw (.bigIntegerOverflow width)
  pushEach (significant magnitude).reverse
  pushEach (List.replicate (width - (significant magnitude).length) 0)

theorem run_pushEach_bind (bs : Bytes) (next : Unit → Visibly) (written : Bytes) :
    (pushEach bs >>= next).run written = (next ()).run (written ++ bs) := by
  induction bs generalizing written with
  | nil => rw [List.append_nil]; rfl
  | cons b bs ih =>
      calc (pushEach (b :: bs) >>= next).run written = (pushEach bs >>= next).run (written ++ [b]) := rfl
        _ = (next ()).run (written ++ [b] ++ bs) := ih _
        _ = (next ()).run (written ++ b :: bs) := by rw [List.append_assoc]; rfl

theorem run_pushEach (bs written : Bytes) : (pushEach bs).run written = .ok () (written ++ bs) := by
  have hrun := run_pushEach_bind bs pure written
  rwa [bind_pure] at hrun

theorem run_pushBigUint (magnitude : Bytes) (width : Nat) (written : Bytes) :
    (pushBigUint magnitude width).run written =
      if valueBE magnitude < 256 ^ width then .ok () (written ++ digitsLE width (valueBE magnitude))
      else .error (.bigIntegerOverflow width) written := by
  by_cases hle : (significant magnitude).length ≤ width
  · rw [if_pos (length_significant_le.mp hle), pushBigUint, if_neg (Nat.not_lt.mpr hle)]
    calc (pushEach (significant magnitude).reverse >>= fun _ => pushEach _).run written =
        .ok () (written ++ (significant magnitude).reverse ++
          List.replicate (width - (significant magnitude).length) 0) := by
          rw [run_pushEach_bind, run_pushEach]
      _ = .ok () (written ++ digitsLE width (valueBE magnitude)) := by
          rw [List.append_assoc, reverse_significant_append_zeros hle]
  · rw [if_neg (mt length_significant_le.mpr hle), pushBigUint, if_pos (Nat.not_le.mp hle)]
    rfl

theorem outcome_pushBigUint (magnitude : Bytes) (width : Nat) :
    (pushBigUint magnitude width).outcome = writeBigUint magnitude width := by
  funext written
  rw [Visibly.outcome, run_pushBigUint, writeBigUint_apply]
  by_cases hlt : valueBE magnitude < 256 ^ width
  · rw [if_pos hlt, if_pos hlt]
  · rw [if_neg hlt, if_neg hlt]

end Encode

/-! ### Reading -/

theorem Decode.readBigUint_of_lt {width : Nat} {input : Bytes} (hlt : input.length < width) :
    readBigUint width input = .error (.unexpectedEndOfStream width input.length) :=
  bind_of_error (take_of_lt hlt) _

/-- What is read denotes the number that the bytes taken denote, and is written as these bytes. -/
theorem Decode.exists_readBigUint {width : Nat} {input : Bytes} (hle : width ≤ input.length) :
    ∃ block, readBigUint width input = .ok (block, input.drop width) ∧
      valueBE block.bytes = valueLE (input.take width) ∧
      ∀ written, (Encode.pushBigUint block.bytes width).run written = .ok () (written ++ input.take width) := by
  let taken : Block width := firstBlock hle
  have hvalue : valueBE taken.reverse.bytes = valueLE taken.bytes := valueBE_reverse taken.bytes
  refine ⟨taken.reverse, bind_of_ok (take_of_le hle) _, hvalue, fun written => ?_⟩
  rw [Encode.run_pushBigUint, hvalue, if_pos taken.valueLE_lt, taken.digitsLE_valueLE]
  rfl

/-- What has been written is read back, up to leading zeros. -/
theorem Decode.readBigUint_digitsLE {magnitude : Bytes} {width : Nat} (hlt : valueBE magnitude < 256 ^ width)
    (rest : Bytes) :
    ∃ block, readBigUint width (digitsLE width (valueBE magnitude) ++ rest) = .ok (block, rest) ∧
      significant block.bytes = significant magnitude := by
  have hread : (readBigUint width).Reads (digitsLE width (valueBE magnitude)) _ :=
    (reads_take (Block.ofNatLE width (valueBE magnitude))).map Block.reverse
  exact ⟨_, hread rest, significant_reverse_digitsLE hlt⟩

/-- Block form of any width is exact arithmetic to base 256, and writing and reading are inverse to each other up
to leading zeros. -/
theorem bigUint_positional (magnitude : Bytes) (width : Nat) :
    (∀ written, (Encode.pushBigUint magnitude width).run written =
      if valueBE magnitude < 256 ^ width then .ok () (written ++ digitsLE width (valueBE magnitude))
      else .error (.bigIntegerOverflow width) written) ∧
    (Encode.pushBigUint magnitude width).outcome = Encode.writeBigUint magnitude width ∧
    (∀ i < width, (digitsLE width (valueBE magnitude))[i]? =
      some (UInt8.ofNat (valueBE magnitude / 256 ^ i % 256))) ∧
    (digitsLE width (valueBE magnitude)).length = width ∧
    (valueBE magnitude < 256 ^ width → valueLE (digitsLE width (valueBE magnitude)) = valueBE magnitude) ∧
    (∀ input, width ≤ input.length → ∃ block, Decode.readBigUint width input = .ok (block, input.drop width) ∧
      valueBE block.bytes = valueLE (input.take width) ∧
      ∀ written, (Encode.pushBigUint block.bytes width).run written = .ok () (written ++ input.take width)) ∧
    (∀ input, input.length < width →
      Decode.readBigUint width input = .error (.unexpectedEndOfStream width input.length)) ∧
    (valueBE magnitude < 256 ^ width → ∀ rest, ∃ block,
      Decode.readBigUint width (digitsLE width (valueBE magnitude) ++ rest) = .ok (block, rest) ∧
        significant block.bytes = significant magnitude) := by
  refine ⟨Encode.run_pushBigUint magnitude width, Encode.outcome_pushBigUint magnitude width, ?digit,
    length_digitsLE width _, ?value, ?read, ?short, ?back⟩
  case digit => exact fun i hi => getElem?_digitsLE hi (valueBE magnitude)
  case value =>
    intro hlt
    rw [valueLE_digitsLE, Nat.mod_eq_of_lt hlt]
  case read => exact fun input hle => Decode.exists_readBigUint hle
  case short => exact fun input hlt => Decode.readBigUint_of_lt hlt
  case back => exact fun hlt rest => Decode.readBigUint_digitsLE hlt rest

/-- Leading zeros do not count, three digits are too many for two places, and what is behind the block remains. -/
theorem bigUint_positional_258 :
    (Encode.pushBigUint [0, 0, 1, 2] 4).run [9] = .ok () [9, 2, 1, 0, 0] ∧
    (Encode.pushBigUint [1, 0, 0] 2).run [9] = .error (.bigIntegerOverflow 2) [9] ∧
    Decode.readBigUint 4 [1, 2] = .error (.unexpectedEndOfStream 4 2) ∧
    (digitsLE 4 258)[1]? = some 1 ∧ valueLE (digitsLE 4 258) = 258 ∧
    (∃ block, Decode.readBigUint 4 [2, 1, 0, 0, 0xAA] = .ok (block, [0xAA]) ∧ valueBE block.bytes = 258) ∧
    ∃ block, Decode.readBigUint 4 [2, 1, 0, 0, 0xAA] = .ok (block, [0xAA]) ∧ significant block.bytes = [1, 2] := by
  obtain ⟨hwrite, -, hdigit, -, hvalue, hread, hshort, hback⟩ := bigUint_positional [0, 0, 1, 2] 4
  have hover := (bigUint_positional [1, 0, 0] 2).1
  refine ⟨hwrite [9], hover [9], hshort [1, 2] (by decide), hdigit 1 (by decide), hvalue (by decide), ?_,
    hback (by decide) [0xAA]⟩
  obtain ⟨block, hblock, hnumber, -⟩ := hread [2, 1, 0, 0, 0xAA] (by decide)
  exact ⟨block, hblock, hnumber⟩

end CanonicalWire
