import CanonicalWire.Proofs.Digits
import CanonicalWire.Proofs.Writing

/-!
Two ways to speak about a decoding action, each closed under sequencing. `Accepts` says what every
success means: the bytes taken are related to the result. `Judges` says what happens on an input with a
given beginning, whatever follows it: under a condition exactly this beginning is taken, and without it
the action fails.
-/

namespace CanonicalWire
namespace Decode

variable {α β : Type}

/-- Each result is related to the bytes that were taken for it. -/
def Accepts (d : Decode α) (Q : α → Bytes → Prop) : Prop :=
  ∀ input a rest, d input = .ok (a, rest) → ∃ taken, input = taken ++ rest ∧ Q a taken

/-- On every input that begins with `b` the action takes `b` and returns `a`. -/
def Reads (d : Decode α) (b : Bytes) (a : α) : Prop := ∀ rest, d (b ++ rest) = .ok (a, rest)

/-- The action fails on every input that begins with `b`. -/
def Refuses (d : Decode α) (b : Bytes) : Prop := ∀ rest, ∃ e, d (b ++ rest) = .error e

/-- On inputs that begin with `b`: if `p` holds, then `b` is taken and the result satisfies `Q`, and
otherwise the action fails. -/
def Judges (d : Decode α) (b : Bytes) (p : Prop) (Q : α → Prop) : Prop :=
  (p → ∃ a, d.Reads b a ∧ Q a) ∧ (¬p → d.Refuses b)

theorem bind_apply (d : Decode α) (f : α → Decode β) (input : Bytes) :
    (d >>= f) input = d input >>= fun r => f r.1 r.2 := rfl

theorem bind_of_ok {d : Decode α} {input rest : Bytes} {a : α} (h : d input = .ok (a, rest)) (f : α → Decode β) :
    (d >>= f) input = f a rest := by
  rw [bind_apply, h]
  rfl

theorem bind_of_error {d : Decode α} {input : Bytes} {e : CodecError} (h : d input = .error e) (f : α → Decode β) :
    (d >>= f) input = .error e := by
  rw [bind_apply, h]
  rfl

theorem bind_pure_eq_ok {d : Decode α} {g : α → β} (hg : Function.Injective g) {a : α} {input rest : Bytes} :
    (d >>= fun x => pure (g x)) input = .ok (g a, rest) ↔ d input = .ok (a, rest) := by
  rw [bind_apply]
  cases d input with
  | error e => exact ⟨nofun, nofun⟩
  | ok r =>
      obtain ⟨b, left⟩ := r
      show Except.ok (g b, left) = Except.ok (g a, rest) ↔ _
      simp only [Except.ok.injEq, Prod.mk.injEq, hg.eq_iff]

theorem bind_pure_eq_error {d : Decode α} {g : α → β} {input : Bytes} {e : CodecError} :
    (d >>= fun x => pure (g x)) input = .error e ↔ d input = .error e := by
  rw [bind_apply, bind_eq_error]
  refine or_iff_left ?_
  rintro ⟨_, -, ⟨⟩⟩

namespace Accepts

theorem pure {a : α} {Q : α → Bytes → Prop} (h : Q a []) : Accepts (pure a) Q := by
  rintro input _ _ ⟨⟩
  exact ⟨[], rfl, h⟩

theorem throw (e : CodecError) {Q : α → Bytes → Prop} : Accepts (throw e) Q := nofun

theorem bind {d : Decode α} {f : α → Decode β} {P : α → Bytes → Prop} {Q : β → Bytes → Prop}
    (hd : d.Accepts P) (hf : ∀ a taken, P a taken → Accepts (f a) fun b more => Q b (taken ++ more)) :
    Accepts (d >>= f) Q := by
  intro input b rest h
  rw [bind_apply, bind_eq_ok] at h
  obtain ⟨⟨a, middle⟩, ha, hb⟩ := h
  obtain ⟨taken, rfl, hP⟩ := hd input a middle ha
  obtain ⟨more, rfl, hQ⟩ := hf a taken hP middle b rest hb
  exact ⟨taken ++ more, (List.append_assoc ..).symm, hQ⟩

theorem lift_bind {e : Except CodecError α} {f : α → Decode β} {Q : β → Bytes → Prop}
    (hf : ∀ a, e = .ok a → (f a).Accepts Q) :
    Accepts ((liftM e : StateT Bytes (Except CodecError) α) >>= f) Q := by
  intro input b rest h
  cases e with
  | error e => cases h
  | ok a => exact hf a rfl input b rest h

theorem mono {d : Decode α} {P Q : α → Bytes → Prop} (hd : d.Accepts P)
    (h : ∀ a taken, P a taken → Q a taken) : d.Accepts Q := by
  intro input a rest hrun
  obtain ⟨taken, hinput, hP⟩ := hd input a rest hrun
  exact ⟨taken, hinput, h a taken hP⟩

/-- Wraps the result of an action. -/
theorem map {d : Decode α} {g : α → β} {Q : β → Bytes → Prop}
    (hd : d.Accepts fun a taken => Q (g a) taken) : Accepts (d >>= fun a => Pure.pure (g a)) Q :=
  hd.bind fun a taken hQ => pure (by rwa [List.append_nil])

end Accepts

namespace Reads

theorem pure (a : α) : Reads (pure a) [] a := fun _ => rfl

theorem bind {d : Decode α} {f : α → Decode β} {b c : Bytes} {a : α} {x : β} (hd : d.Reads b a)
    (hf : (f a).Reads c x) : Reads (d >>= f) (b ++ c) x := by
  intro rest
  rw [List.append_assoc, bind_of_ok (hd _)]
  exact hf rest

theorem map {d : Decode α} {b : Bytes} {a : α} (hd : d.Reads b a) (g : α → β) :
    Reads (d >>= fun a => Pure.pure (g a)) b (g a) :=
  fun rest => bind_of_ok (hd rest) _

end Reads

namespace Judges

theorem of_reads {d : Decode α} {b : Bytes} {a : α} {Q : α → Prop} (hd : d.Reads b a) (hQ : Q a) :
    d.Judges b True Q :=
  ⟨fun _ => ⟨a, hd, hQ⟩, fun h => absurd trivial h⟩

theorem congr {d : Decode α} {b : Bytes} {p q : Prop} {Q : α → Prop} (h : d.Judges b p Q) (hpq : p ↔ q) :
    d.Judges b q Q :=
  ⟨fun hq => h.1 (hpq.mpr hq), fun hq => h.2 (mt hpq.mp hq)⟩

theorem imp {d : Decode α} {b : Bytes} {p : Prop} {Q R : α → Prop} (h : d.Judges b p Q)
    (hQR : p → ∀ a, Q a → R a) : d.Judges b p R := by
  refine ⟨fun hp => ?_, h.2⟩
  obtain ⟨a, hread, hQ⟩ := h.1 hp
  exact ⟨a, hread, hQR hp a hQ⟩

theorem bind {d : Decode α} {f : α → Decode β} {b c : Bytes} {p q : Prop} {Q : α → Prop} {R : β → Prop}
    (hd : d.Judges b p Q) (hf : ∀ a, Q a → (f a).Judges c q R) : Judges (d >>= f) (b ++ c) (p ∧ q) R := by
  constructor
  · intro h
    obtain ⟨hp, hq⟩ := h
    obtain ⟨a, hread, hQ⟩ := hd.1 hp
    obtain ⟨x, hread', hR⟩ := (hf a hQ).1 hq
    exact ⟨x, hread.bind hread', hR⟩
  · intro hnot rest
    by_cases hp : p
    · obtain ⟨a, hread, hQ⟩ := hd.1 hp
      obtain ⟨e, he⟩ := (hf a hQ).2 (fun hq => hnot ⟨hp, hq⟩) rest
      exact ⟨e, by rw [List.append_assoc, bind_of_ok (hread _), he]⟩
    · obtain ⟨e, he⟩ := hd.2 hp (c ++ rest)
      exact ⟨e, by rw [List.append_assoc, bind_of_error he]⟩

theorem map {d : Decode α} {b : Bytes} {p : Prop} {g : α → β} {Q : β → Prop}
    (hd : d.Judges b p fun a => Q (g a)) : Judges (d >>= fun a => Pure.pure (g a)) b p Q := by
  constructor
  · intro hp
    obtain ⟨a, hread, hQ⟩ := hd.1 hp
    exact ⟨g a, hread.map g, hQ⟩
  · intro hp rest
    obtain ⟨e, he⟩ := hd.2 hp rest
    exact ⟨e, bind_of_error he _⟩

theorem lift_bind {e : Except CodecError α} {f : α → Decode β} {a : α} {b : Bytes} {p : Prop} {Q : β → Prop}
    (he : e = .ok a) (h : (f a).Judges b p Q) :
    Judges ((liftM e : StateT Bytes (Except CodecError) α) >>= f) b p Q := by
  subst he
  exact h

/-- After an action that is known to succeed, the rest decides. -/
theorem bind_of_reads {d : Decode α} {f : α → Decode β} {b c : Bytes} {a : α} {p : Prop} {Q : β → Prop}
    (hd : d.Reads b a) (hf : (f a).Judges c p Q) : Judges (d >>= f) (b ++ c) p Q := by
  refine congr (bind (of_reads hd rfl) fun a' ha => ?_) (iff_of_eq (true_and p))
  subst ha
  exact hf

end Judges

/-! ### Numbers, lengths and byte runs -/

/-- The first bytes of an input that has enough of them. -/
def firstBlock {n : Nat} {input : Bytes} (h : n ≤ input.length) : Block n :=
  ⟨input.take n, List.length_take_of_le h⟩

theorem take_of_le {n : Nat} {input : Bytes} (h : n ≤ input.length) :
    take n input = .ok (firstBlock h, input.drop n) := dif_pos h

theorem take_of_lt {n : Nat} {input : Bytes} (h : input.length < n) :
    take n input = .error (.unexpectedEndOfStream n input.length) := dif_neg (Nat.not_le.mpr h)

theorem accepts_take (n : Nat) : (take n).Accepts fun block taken => block.bytes = taken := by
  intro input block rest h
  rw [take] at h
  split at h
  · cases h
    exact ⟨input.take n, (List.take_append_drop ..).symm, rfl⟩
  · cases h

theorem reads_take {n : Nat} (block : Block n) : (take n).Reads block.bytes block := by
  obtain ⟨bytes, rfl⟩ := block
  intro rest
  have hle : bytes.length ≤ (bytes ++ rest).length := by simp
  rw [take, dif_pos hle]
  simp

theorem accepts_number (width : Nat) :
    (number width).Accepts fun n taken => n < 256 ^ width ∧ digitsLE width n = taken := by
  refine Accepts.map ((accepts_take width).mono ?_)
  rintro ⟨bytes, rfl⟩ _ rfl
  exact ⟨valueLE_lt bytes, digitsLE_valueLE bytes⟩

theorem reads_number {width n : Nat} (hn : n < 256 ^ width) : (number width).Reads (digitsLE width n) n := by
  have h : (number width).Reads (digitsLE width n) (valueLE (digitsLE width n)) :=
    (reads_take (Block.ofNatLE width n)).map _
  rwa [valueLE_digitsLE, Nat.mod_eq_of_lt hn] at h

theorem accepts_readLen : readLen.Accepts fun len taken => (Encode.writeLen len).bytes = .ok taken := by
  refine (accepts_number prefixWidth).mono fun len taken h => ?_
  exact Encode.bytes_writeLen_eq_ok.mpr ⟨Nat.le_pred_of_lt h.1, h.2.symm⟩

theorem length_readLen : readLen.Accepts fun _ taken => taken.length = 4 := by
  refine accepts_readLen.mono fun len taken h => ?_
  obtain ⟨-, rfl⟩ := Encode.bytes_writeLen_eq_ok.mp h
  exact length_digitsLE 4 len

theorem reads_readLen {len : Nat} {u : Bytes} (h : (Encode.writeLen len).bytes = .ok u) :
    readLen.Reads u len := by
  obtain ⟨hlen, rfl⟩ := Encode.bytes_writeLen_eq_ok.mp h
  exact reads_number (Nat.lt_succ_of_le hlen)

theorem accepts_readCount (ctx : Context) :
    (readCount ctx).Accepts fun len taken => (Encode.writeCount len ctx).bytes = .ok taken := by
  rw [readCount]
  split
  · next len h => exact .pure (by simp [Encode.writeCount, h])
  · next h => exact accepts_readLen.mono fun len taken hlen => by rw [Encode.writeCount, h]; exact hlen

theorem reads_readCount {len : Nat} {ctx : Context} {u : Bytes}
    (h : (Encode.writeCount len ctx).bytes = .ok u) : (readCount ctx).Reads u len := by
  cases hfixed : ctx.fixedLen with
  | none =>
      simp only [Encode.writeCount, readCount, hfixed] at h ⊢
      exact reads_readLen h
  | some expected =>
      simp only [Encode.writeCount, readCount, hfixed] at h ⊢
      split at h
      · next heq =>
          cases h
          rw [heq]
          exact .pure expected
      · cases h

theorem accepts_readByteRun (ctx : Context) :
    (readByteRun ctx).Accepts fun bs taken => (Encode.writeByteRun bs ctx).bytes = .ok taken := by
  refine (accepts_readCount ctx).bind fun len u hu => .lift_bind fun _ hcheck => .map ?_
  refine (accepts_take len).mono ?_
  rintro ⟨bytes, rfl⟩ _ rfl
  exact Encode.bytes_writeByteRun_eq_ok.mpr ⟨checkLength_eq_ok.mp hcheck, u, hu, rfl⟩

theorem reads_readByteRun {bs b : Bytes} {ctx : Context} (h : (Encode.writeByteRun bs ctx).bytes = .ok b) :
    (readByteRun ctx).Reads b bs := by
  obtain ⟨hlen, u, hu, rfl⟩ := Encode.bytes_writeByteRun_eq_ok.mp h
  refine (reads_readCount hu).bind fun rest => ?_
  rw [checkLength_of_le hlen]
  exact (reads_take (⟨bs, rfl⟩ : Block bs.length)).map _ rest

theorem accepts_readBool : readBool.Accepts fun b taken => [if b then 1 else 0] = taken := by
  refine (accepts_number 1).bind fun n taken h => ?_
  obtain ⟨-, rfl⟩ := h
  match n with
  | 0 | 1 => exact .pure rfl
  | n + 2 => exact .throw _

theorem reads_readBool (b : Bool) : readBool.Reads [if b then 1 else 0] b := by
  cases b <;> exact fun _ => rfl

theorem accepts_readDiscriminant :
    readDiscriminant.Accepts fun d taken => digitsLE prefixWidth d.toBitVec.toNat = taken := by
  refine .map ((accepts_number prefixWidth).mono fun n taken h => ?_)
  have hn : n < 2 ^ 32 := h.1
  rw [Int32.toBitVec_ofBitVec, BitVec.toNat_ofNat, Nat.mod_eq_of_lt hn]
  exact h.2

theorem reads_readDiscriminant (d : Int32) :
    readDiscriminant.Reads (digitsLE prefixWidth d.toBitVec.toNat) d := by
  have hlt : d.toBitVec.toNat < 256 ^ prefixWidth := d.toBitVec.isLt
  have h : readDiscriminant.Reads _ (Int32.ofBitVec (BitVec.ofNat 32 d.toBitVec.toNat)) := (reads_number hlt).map _
  rwa [BitVec.ofNat_toNat, BitVec.setWidth_eq, Int32.ofBitVec_toBitVec] at h

end Decode
end CanonicalWire
