import CanonicalWire.Proofs.RoundTrip
import CanonicalWire.Proofs.SortedSequence

/-!
The form that texts, byte strings and sequences of bytes share. A byte string is held to the ceiling before its
number is looked at, a sequence of bytes after that; so what is refused is the same, if not always for the same
reason. On the way back the two do the same, and a text differs only in what is not UTF-8.
-/

namespace CanonicalWire

namespace Decode

variable {ctx : Context} {input rest x : Bytes}

theorem readText_of_ok (h : readByteRun ctx input = .ok (x, rest)) :
    readText ctx input = ((Utf8.decode x).mapError .invalidUtf8).map fun s => (s, rest) := by
  rw [readText, bind_of_ok h]
  cases Utf8.decode x <;> rfl

theorem readText_eq_ok {s : String} :
    readText ctx input = .ok (s, rest) ↔ readByteRun ctx input = .ok (Utf8.encode s, rest) := by
  constructor
  · intro h
    obtain ⟨⟨x, left⟩, hrun, -⟩ := bind_eq_ok.mp h
    rw [readText_of_ok hrun] at h
    cases hx : Utf8.decode x with
    | error e =>
        rw [hx] at h
        cases h
    | ok s' =>
        rw [hx] at h
        obtain ⟨⟩ := h
        rw [hrun, Utf8.decode_eq_ok.mp hx]
  · intro hrun
    rw [readText_of_ok hrun, Utf8.decode_eq_ok.mpr rfl]
    rfl

end Decode

section Values

variable [Declarations]

theorem Items.wire_ofBlock_eq_ok {n : Nat} {block : Block n} {ctx : Context} {v : Bytes} :
    (ofBlock block).wire ctx = .ok v ↔ n ≤ ctx.limits.maxBytesLen ∧ block.bytes = v := by
  rw [wire, Encode.bytes_writeRun_byte, map_eq_ok, bytes_ofBlock, exists_and_right]
  refine and_congr_left' ⟨?_, fun hle => ⟨⟨⟩, checkLength_of_le hle⟩⟩
  rintro ⟨_, hcheck⟩
  exact checkLength_eq_ok.mp hcheck

namespace Value

/-- A byte string. -/
def byteRun (x : Bytes) : Value (.scalar .bytes) := .scalar (s := .bytes) x

/-- The sequence of the bytes of a byte string. -/
def byteSequence (k : SequenceKind) (x : Bytes) : Value (.sequence k .byte) := .sequence (.ofBlock ⟨x, rfl⟩)

def text (k : TextKind) (s : String) : Value (.scalar (.text k)) := .scalar (s := .text k) s

variable {k : SequenceKind} {ctx : Context} {x b : Bytes}

/-- The bytes of a sequence of bytes. -/
def bytes : Value (.sequence k .byte) → Bytes
  | .sequence xs => xs.bytes

theorem byteRun_injective : Function.Injective byteRun := by
  rintro x _ ⟨⟩
  rfl

theorem text_injective (k : TextKind) : Function.Injective (text k) := by
  rintro s _ ⟨⟩
  rfl

theorem byteSequence_injective (k : SequenceKind) : Function.Injective (byteSequence k) :=
  Function.LeftInverse.injective (g := bytes) fun x => Items.bytes_ofBlock ⟨x, rfl⟩

theorem wire_byteRun : (byteRun x).wire ctx = .ok b ↔
    x.length ≤ ctx.limits.maxBytesLen ∧ ∃ u, (Encode.writeCount x.length ctx).bytes = .ok u ∧ b = u ++ x :=
  Encode.bytes_writeByteRun_eq_ok

theorem wire_byteSequence : (byteSequence k x).wire ctx = .ok b ↔
    x.length ≤ ctx.limits.maxBytesLen ∧ ∃ u, (Encode.writeCount x.length ctx).bytes = .ok u ∧ b = u ++ x := by
  rw [byteSequence, wire_sequence]
  constructor
  · rintro ⟨u, v, hu, hv, rfl⟩
    obtain ⟨hle, rfl⟩ := Items.wire_ofBlock_eq_ok.mp hv
    exact ⟨hle, u, hu, rfl⟩
  · rintro ⟨hle, u, hu, rfl⟩
    exact ⟨u, x, hu, Items.wire_ofBlock_eq_ok.mpr ⟨hle, rfl⟩, rfl⟩

/-- A sequence of bytes is written where the byte string is, and as the same bytes. -/
theorem encode_byteSequence_eq_ok {written r : Bytes} :
    (byteSequence k x).encode ctx written = .ok ((), r) ↔ (byteRun x).encode ctx written = .ok ((), r) := by
  rw [((byteSequence k x).appends_encode ctx).apply_eq_ok, ((byteRun x).appends_encode ctx).apply_eq_ok]
  apply exists_congr
  intro b
  exact and_congr_left' (wire_byteSequence.trans wire_byteRun.symm)

end Value

/-! ### Reading -/

theorem Ty.decode_bytes (ctx : Context) :
    Ty.decode (.scalar .bytes) ctx = Decode.readByteRun ctx >>= fun x => pure (.byteRun x) := by
  rw [Ty.decode_eq]
  rfl

theorem Ty.decode_byteSequence (k : SequenceKind) (ctx : Context) :
    Ty.decode (.sequence k .byte) ctx = Decode.readByteRun ctx >>= fun x => pure (.byteSequence k x) := by
  have hblock {n : Nat} (block : Block n) :
      (Value.sequence (.ofBlock block) : Value (.sequence k .byte)) = .byteSequence k block.bytes := by
    obtain ⟨bytes, rfl⟩ := block
    rfl
  rw [Ty.decode_sequence]
  simp only [Decode.readByteRun, Decode.readRun, Decode.readBlock, bind_assoc, pure_bind, hblock]
  rfl

theorem Ty.decode_text (k : TextKind) (ctx : Context) :
    Ty.decode (.scalar (.text k)) ctx = Decode.readText ctx >>= fun s => pure (.text k s) := by
  rw [Ty.decode_eq]
  rfl

/-- A text is read as the byte string is, and fails if this is not UTF-8. -/
structure TextForm (k : TextKind) (ctx : Context) (input : Bytes) : Prop where
  ok : ∀ s rest, Ty.decode (.scalar (.text k)) ctx input = .ok (.text k s, rest) ↔
    Ty.decode (.scalar .bytes) ctx input = .ok (.byteRun (Utf8.encode s), rest)
  error : ∀ e, Ty.decode (.scalar .bytes) ctx input = .error e →
    Ty.decode (.scalar (.text k)) ctx input = .error e
  invalid : ∀ x rest, Ty.decode (.scalar .bytes) ctx input = .ok (.byteRun x, rest) → (¬∃ s, Utf8.encode s = x) →
    ∃ e, Utf8.decode x = .error e ∧ Ty.decode (.scalar (.text k)) ctx input = .error (.invalidUtf8 e)

theorem textForm (k : TextKind) (ctx : Context) (input : Bytes) : TextForm k ctx input := by
  refine ⟨fun s rest => ?ok, fun e h => ?error, fun x rest h hx => ?invalid⟩
  case ok =>
    rw [Ty.decode_text, Ty.decode_bytes, Decode.bind_pure_eq_ok (Value.text_injective k),
      Decode.bind_pure_eq_ok Value.byteRun_injective, Decode.readText_eq_ok]
  case error =>
    rw [Ty.decode_bytes, Decode.bind_pure_eq_error] at h
    rw [Ty.decode_text, Decode.bind_pure_eq_error]
    exact Decode.bind_of_error h _
  case invalid =>
    rw [Ty.decode_bytes, Decode.bind_pure_eq_ok Value.byteRun_injective] at h
    cases hdecode : Utf8.decode x with
    | ok s => exact absurd ⟨s, Utf8.decode_eq_ok.mp hdecode⟩ hx
    | error e =>
        refine ⟨e, rfl, ?_⟩
        rw [Ty.decode_text, Decode.bind_pure_eq_error, Decode.readText_of_ok h, hdecode]
        rfl

/-- Byte strings and sequences of bytes are written and read alike, and so are texts as far as bytes are text. -/
theorem Context.byteForm (ctx : Context) :
    (∀ (k : SequenceKind) (x written r : Bytes), (Value.byteRun x).encode ctx written = .ok ((), r) ↔
      (Value.byteSequence k x).encode ctx written = .ok ((), r)) ∧
    (∀ (k : TextKind) (s : String), (Value.text k s).encode ctx = (Value.byteRun (Utf8.encode s)).encode ctx) ∧
    (∀ (k : SequenceKind) (input : Bytes),
      (∀ x rest, Ty.decode (.scalar .bytes) ctx input = .ok (.byteRun x, rest) ↔
        Ty.decode (.sequence k .byte) ctx input = .ok (.byteSequence k x, rest)) ∧
      ∀ e, Ty.decode (.scalar .bytes) ctx input = .error e ↔ Ty.decode (.sequence k .byte) ctx input = .error e) ∧
    ∀ k input, TextForm k ctx input := by
  refine ⟨fun k x written r => Value.encode_byteSequence_eq_ok.symm, fun k s => rfl,
    fun k input => ⟨fun x rest => ?_, fun e => ?_⟩, fun k input => textForm k ctx input⟩
  · rw [Ty.decode_bytes, Ty.decode_byteSequence, Decode.bind_pure_eq_ok Value.byteRun_injective,
      Decode.bind_pure_eq_ok (Value.byteSequence_injective k)]
  · rw [Ty.decode_bytes, Ty.decode_byteSequence, Decode.bind_pure_eq_error, Decode.bind_pure_eq_error]

end Values

/-- Two bytes that are one character, a byte that is none, and more bytes than the ceiling lets through. -/
theorem Context.byteForm_accent :
    (Value.byteSequence .vector [0xC3, 0xA9]).encode threeBytes [9] = .ok ((), [9, 2, 0, 0, 0, 0xC3, 0xA9]) ∧
      Ty.decode (.vector .byte) threeBytes [2, 0, 0, 0, 0xC3, 0xA9, 7] =
        .ok (.byteSequence .vector [0xC3, 0xA9], [7]) ∧
      Ty.decode .string threeBytes [2, 0, 0, 0, 0xC3, 0xA9, 7] = .ok (.text .owned "é", [7]) ∧
      (∃ e, Ty.decode .string threeBytes [1, 0, 0, 0, 0xFF] = .error (.invalidUtf8 e)) ∧
      Ty.decode .string threeBytes [4, 0, 0, 0] = .error (.oversizedLength 4 3) := by
  obtain ⟨hwrite, -, hread, htext⟩ := Context.byteForm threeBytes
  have haccent : Ty.decode (.scalar .bytes) threeBytes [2, 0, 0, 0, 0xC3, 0xA9, 7] =
      .ok (.byteRun [0xC3, 0xA9], [7]) := by cbv
  have hbyte : Ty.decode (.scalar .bytes) threeBytes [1, 0, 0, 0, 0xFF] = .ok (.byteRun [0xFF], []) := by cbv
  have hinvalid : ¬∃ s, Utf8.encode s = [0xFF] := by
    rintro ⟨s, hs⟩
    have hdecode : Utf8.decode [0xFF] = .error ⟨0, some 1⟩ := by cbv
    cases hdecode.symm.trans (Utf8.decode_eq_ok.mpr hs)
  obtain ⟨e, -, he⟩ := (htext .owned _).invalid _ _ hbyte hinvalid
  exact ⟨(hwrite .vector _ [9] _).mp (by cbv), ((hread .vector _).1 _ _).mp haccent,
    ((htext .owned _).ok "é" [7]).mpr haccent, ⟨e, he⟩, (htext .owned _).error _ (by cbv)⟩

end CanonicalWire
