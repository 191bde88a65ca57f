import CanonicalWire.Proofs.Order
import CanonicalWire.Proofs.Writing

/-!
Where a deque is cut. A deque is written as the sequence that it holds, but for one thing: of items of type
`u8` each of the two runs is held to the ceiling by itself, while a sequence is held to it as a whole.
-/

namespace CanonicalWire

namespace Encode

theorem put_append (a b : Bytes) : put (a ++ b) = put a >>= fun _ => put b := by
  funext written
  show Except.ok ((), written ++ (a ++ b)) = Except.ok ((), written ++ a ++ b)
  rw [List.append_assoc]

theorem put_nil : put [] = pure () := by
  funext written
  show Except.ok ((), written ++ []) = Except.ok ((), written)
  rw [List.append_nil]

/-- An action that fails on the empty writer fails alike on every writer. -/
theorem Appends.eq_throw {a : Encode} (ha : a.Appends) {e : CodecError} (h : a.bytes = .error e) : a = throw e := by
  funext written
  rw [ha, h]
  rfl

end Encode

section Values

variable [Definitions]

theorem Items.encodeEach_append {t : Ty} {n : Nat} (ys : Items t n) (ctx : Context) : {m : Nat} → (xs : Items t m) →
    (xs.append ys).encodeEach ctx = xs.encodeEach ctx >>= fun _ => ys.encodeEach ctx
  | 0, .nil => rfl
  | _ + 1, .cons x xs => by
      rw [append, encodeEach, encodeEach, encodeEach_append ys ctx xs, bind_assoc]

theorem Items.bytes_append {t : Ty} {n : Nat} (ys : Items t n) : {m : Nat} → (xs : Items t m) →
    (xs.append ys).bytes = xs.bytes ++ ys.bytes
  | 0, .nil => rfl
  | _ + 1, .cons x xs => by rw [append, bytes, bytes, bytes_append ys xs, List.append_assoc]

theorem Items.eq_of_toList {t : Ty} : {n : Nat} → (xs ys : Items t n) → xs.toList = ys.toList → xs = ys
  | 0, .nil, .nil, _ => rfl
  | _ + 1, .cons x xs, .cons y ys, h => by
      obtain ⟨rfl, htail⟩ := List.cons.inj h
      rw [eq_of_toList xs ys htail]

/-- What is made of items depends on their list only. -/
theorem Items.apply_eq_of_toList {t : Ty} {m n : Nat} {γ : Type} (f : {n : Nat} → Items t n → γ) {xs : Items t m}
    {ys : Items t n} (h : xs.toList = ys.toList) : f xs = f ys := by
  obtain rfl : m = n := by rw [← xs.length_toList, h, ys.length_toList]
  rw [Items.eq_of_toList xs ys h]

namespace Encode

theorem bytes_writeRun_byte {n : Nat} (xs : Items .byte n) (oneByOne : Encode) (ctx : Context) :
    (writeRun xs oneByOne ctx).bytes = (checkLength n ctx).map fun _ => xs.bytes := by
  rw [writeRun, if_pos rfl, bytes_lift_bind]
  cases checkLength n ctx <;> rfl

variable {t : Ty} {m n : Nat}

/-- Two runs one after the other are written as one run if one of them is empty or both together keep within
the ceiling. -/
theorem writeRun_append (front : Items t m) (back : Items t n) (ctx : Context)
    (h : t = .byte → m = 0 ∨ n = 0 ∨ m + n ≤ ctx.limits.maxBytesLen) :
    writeRun (front.append back) ((front.append back).encodeEach ctx) ctx =
      writeRun front (front.encodeEach ctx) ctx >>= fun _ => writeRun back (back.encodeEach ctx) ctx := by
  by_cases ht : t = .byte
  · simp only [writeRun, if_pos ht, Items.bytes_append]
    obtain rfl | rfl | hle := h ht
    · cases front
      rw [checkLength_of_le (Nat.zero_le _), Items.bytes, List.nil_append, put_nil]
      rfl
    · cases back
      have h0 : checkLength 0 ctx = .ok () := checkLength_of_le (Nat.zero_le _)
      rw [h0, Items.bytes, List.append_nil, put_nil, Nat.zero_add]
      cases checkLength m ctx <;> rfl
    · have hm : checkLength m ctx = .ok () := checkLength_of_le (by omega)
      have hn : checkLength n ctx = .ok () := checkLength_of_le (by omega)
      have hboth : checkLength (n + m) ctx = .ok () := checkLength_of_le (by omega)
      rw [hm, hn, hboth]
      exact put_append _ _
  · simp only [writeRun, if_neg ht, Items.encodeEach_append]

end Encode

namespace Value

variable {k : SequenceKind} {t : Ty} {m n : Nat} {ctx : Context}

theorem sequence_eq_of_toList {xs : Items t m} {ys : Items t n} (h : xs.toList = ys.toList) :
    (sequence xs : Value (.sequence k t)) = sequence ys := Items.apply_eq_of_toList sequence h

theorem encode_deque_of_fits (front : Items t m) (back : Items t n)
    (h : t = .byte → m = 0 ∨ n = 0 ∨ m + n ≤ ctx.limits.maxBytesLen) :
    (deque front back).encode ctx = (sequence (front.append back) : Value (.sequence k t)).encode ctx := by
  rw [encode_deque, encode_sequence, Encode.writeRun_append front back ctx.element h, Nat.add_comm]

theorem encode_deque_of_error (front : Items t m) (back : Items t n) {e : CodecError}
    (h : (Encode.writeCount (m + n) ctx).bytes = .error e) :
    (deque front back).encode ctx = (sequence (front.append back) : Value (.sequence k t)).encode ctx := by
  rw [Nat.add_comm] at h
  rw [encode_deque, encode_sequence, Nat.add_comm m n, (Encode.appends_writeCount _ _).eq_throw h]
  rfl

/-- Each run is held to the ceiling by itself, so the length of both together is never what is reported. -/
theorem bytes_deque_ne {front : Items .byte m} {back : Items .byte n} {u : Bytes}
    (hu : (Encode.writeCount (m + n) ctx).bytes = .ok u) (hm : 0 < m) (hn : 0 < n) :
    ((deque front back).encode ctx).bytes ≠ .error (.oversizedLength (n + m) ctx.limits.maxBytesLen) := by
  have hback := back.appends_run ctx.element
  have hfront := front.appends_run ctx.element
  rw [encode_deque, Encode.bytes_bind (hfront.bind hback), Encode.bytes_bind hback, hu,
    Encode.bytes_writeRun_byte, Encode.bytes_writeRun_byte, checkLength, checkLength]
  intro h
  split at h
  · have hsum : m = n + m := (CodecError.oversizedLength.inj (Except.error.inj h)).1
    omega
  · split at h
    · have hsum : n = n + m := (CodecError.oversizedLength.inj (Except.error.inj h)).1
      omega
    · cases h

theorem bytes_sequence_of_lt (xs : Items .byte n) {u : Bytes} (hu : (Encode.writeCount n ctx).bytes = .ok u)
    (hlt : ctx.limits.maxBytesLen < n) : ((sequence xs : Value (.sequence k .byte)).encode ctx).bytes =
      .error (.oversizedLength n ctx.limits.maxBytesLen) := by
  have hcheck : checkLength n ctx.element = .error (.oversizedLength n ctx.limits.maxBytesLen) :=
    checkLength_of_lt hlt
  rw [encode_sequence, Encode.bytes_bind (xs.appends_run ctx.element), hu, Encode.bytes_writeRun_byte, hcheck]
  rfl

/-- Two runs of bytes, neither of them empty, that exceed the ceiling together. -/
def CutShows (t : Ty) (m n : Nat) (ctx : Context) : Prop :=
  t = .byte ∧ 0 < m ∧ 0 < n ∧ ctx.limits.maxBytesLen < m + n ∧
    ∃ u, (Encode.writeCount (m + n) ctx).bytes = .ok u

theorem encode_deque_of_not_cutShows (front : Items t m) (back : Items t n) (h : ¬CutShows t m n ctx) :
    (deque front back).encode ctx = (sequence (front.append back) : Value (.sequence k t)).encode ctx := by
  cases hu : (Encode.writeCount (m + n) ctx).bytes with
  | error e => exact encode_deque_of_error front back hu
  | ok u =>
      refine encode_deque_of_fits front back fun ht => ?_
      by_contra hfits
      exact h ⟨ht, by omega, by omega, by omega, u, hu⟩

theorem encode_deque_ne_of_cutShows (front : Items t m) (back : Items t n) (h : CutShows t m n ctx) :
    (deque front back).encode ctx ≠ (sequence (front.append back) : Value (.sequence k t)).encode ctx := by
  obtain ⟨rfl, hm, hn, hlt, u, hu⟩ := h
  intro heq
  have hsequence := bytes_sequence_of_lt (k := k) (front.append back) (Nat.add_comm m n ▸ hu) (by omega)
  exact bytes_deque_ne hu hm hn (heq ▸ hsequence)

/-- A deque is written as the sequence that it holds, wherever it is cut, except where two runs of bytes
exceed the ceiling together. -/
theorem encode_deque_eq_iff (front : Items t m) (back : Items t n) (ctx : Context) (k : SequenceKind) :
    ((deque front back).encode ctx = (sequence (front.append back) : Value (.sequence k t)).encode ctx ↔
      ¬CutShows t m n ctx) ∧
    ∀ (m' n' : Nat) (front' : Items t m') (back' : Items t n'),
      front'.toList ++ back'.toList = front.toList ++ back.toList → ¬CutShows t m n ctx →
        ¬CutShows t m' n' ctx → (deque front' back').encode ctx = (deque front back).encode ctx := by
  refine ⟨⟨fun heq hcut => encode_deque_ne_of_cutShows front back hcut heq,
    encode_deque_of_not_cutShows front back⟩, ?_⟩
  intro m' n' front' back' hlist hcut hcut'
  have hsame : (front'.append back').toList = (front.append back).toList := by
    rwa [Items.toList_append, Items.toList_append]
  calc (deque front' back').encode ctx
      = (sequence (front'.append back') : Value (.sequence k t)).encode ctx :=
        encode_deque_of_not_cutShows front' back' hcut'
    _ = (sequence (front.append back) : Value (.sequence k t)).encode ctx := by
        rw [sequence_eq_of_toList hsame]
    _ = (deque front back).encode ctx := (encode_deque_of_not_cutShows front back hcut).symm

end Value
end Values

namespace Value

section FourBytes

def bytePair (a b : UInt8) : Items .byte 2 := .cons (.ofByte a) (.cons (.ofByte b) .nil)

/-- Four bytes in two halves pass a ceiling of three. -/
theorem encode_deque_eq_iff_four :
    ((deque (bytePair 1 2) (bytePair 3 4)).encode ((Context.start .empty).withLimits { maxBytesLen := 3 })).bytes =
        .ok [4, 0, 0, 0, 1, 2, 3, 4] ∧
      (deque (bytePair 1 2) (bytePair 3 4)).encode ((Context.start .empty).withLimits { maxBytesLen := 3 }) ≠
        (sequence ((bytePair 1 2).append (bytePair 3 4)) : Value (.vector .byte)).encode
          ((Context.start .empty).withLimits { maxBytesLen := 3 }) ∧
      (deque (bytePair 1 2) (bytePair 3 4)).encode (.start .empty) =
        (sequence ((bytePair 1 2).append (bytePair 3 4)) : Value (.vector .byte)).encode (.start .empty) := by
  refine ⟨by cbv, fun heq => ?_, (encode_deque_eq_iff (bytePair 1 2) (bytePair 3 4) _ .vector).1.mpr ?_⟩
  · refine (encode_deque_eq_iff (bytePair 1 2) (bytePair 3 4) _ .vector).1.mp heq ?_
    exact ⟨rfl, by decide, by decide, by decide, [4, 0, 0, 0], rfl⟩
  · intro hcut
    obtain ⟨-, -, -, hlt, -⟩ := hcut
    exact absurd hlt (by decide)

end FourBytes

end Value
end CanonicalWire
