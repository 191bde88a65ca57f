import CanonicalWire.Proofs.InStep

/-!
Limits only reject. The ceiling is looked at by itself in each place where it is looked at, so a higher one lets
more through and changes nothing else; how much room is reserved is looked at nowhere.
-/

namespace CanonicalWire

/-- A bound on lengths is exceeded. -/
def CodecError.IsOversized (e : CodecError) : Prop := ∃ declared limit, e = .oversizedLength declared limit

theorem sameUnless_checkLength {ctx ctx' : Context} (hle : ctx.limits.maxBytesLen ≤ ctx'.limits.maxBytesLen)
    (len : Nat) : SameUnless CodecError.IsOversized (checkLength len ctx) (checkLength len ctx') := by
  by_cases hlen : ctx.limits.maxBytesLen < len
  · rw [checkLength_of_lt hlen]
    exact .of_excused ⟨_, _, rfl⟩ _
  · rw [checkLength_of_le (Nat.not_lt.mp hlen), checkLength_of_le (by omega)]
    exact .refl _

theorem Context.inStep_withLimits {l l' : Limits} (hle : l.maxBytesLen ≤ l'.maxBytesLen) (ctx : Context) :
    (ctx.withLimits l).InStep CodecError.IsOversized (ctx.withLimits l') :=
  ⟨rfl, rfl, rfl, sameUnless_checkLength hle, fun _ _ => .refl _⟩

theorem Context.inStep_prealloc (l : Limits) (prealloc : Nat) (ctx : Context) :
    (ctx.withLimits { l with maxPrealloc := prealloc }).InStep (fun _ => False) (ctx.withLimits l) :=
  ⟨rfl, rfl, rfl, fun _ => .refl _, fun _ _ => .refl _⟩

/-- Under a higher ceiling everything is encoded and decoded as under a lower one, except what exceeds a bound
under the lower one. How much room is reserved makes no difference at all. -/
theorem Limits.sameUnless_of_le [Declarations] {l l' : Limits} (hle : l.maxBytesLen ≤ l'.maxBytesLen) (ctx : Context) :
    (∀ {t : Ty} (x : Value t) written, SameUnless CodecError.IsOversized
      (x.encode (ctx.withLimits l) written) (x.encode (ctx.withLimits l') written)) ∧
    (∀ t input, SameUnless CodecError.IsOversized
      (Ty.decode t (ctx.withLimits l) input) (Ty.decode t (ctx.withLimits l') input)) ∧
    (∀ registry,
      (∀ {t : Ty} (x : Value t), SameUnless CodecError.IsOversized
        (Codec.encode ⟨registry, l⟩ x) (Codec.encode ⟨registry, l'⟩ x)) ∧
      ∀ t input, SameUnless CodecError.IsOversized
        (Codec.decode ⟨registry, l⟩ t input) (Codec.decode ⟨registry, l'⟩ t input)) ∧
    ∀ prealloc,
      (∀ {t : Ty} (x : Value t),
        x.encode (ctx.withLimits { l with maxPrealloc := prealloc }) = x.encode (ctx.withLimits l)) ∧
      ∀ t : Ty, t.decode (ctx.withLimits { l with maxPrealloc := prealloc }) = t.decode (ctx.withLimits l) := by
  have hstep := ctx.inStep_withLimits hle
  refine ⟨fun x => x.inStep_encode hstep, fun t => t.inStep_decode hstep, fun registry => ?_, fun prealloc => ?_⟩
  · have hstart := (Context.start registry).inStep_withLimits hle
    exact ⟨Codec.sameUnless_encode hstart, Codec.sameUnless_decode hstart⟩
  · have hsame := ctx.inStep_prealloc l prealloc
    exact ⟨fun x => (x.inStep_encode hsame).eq_of_none fun _ => id,
      fun t => (t.inStep_decode hsame).eq_of_none fun _ => id⟩

section Ceilings

/-- Bytes may come in runs of at most three, or of at most four. -/
def upTo (ceiling : Nat) : Limits := { maxBytesLen := ceiling }

/-- A run of three passes both ceilings, a run that is cut short fails alike, and a run of four is what the
lower ceiling rejects. -/
theorem Limits.sameUnless_of_le_four :
    (∀ x, Ty.decode (.vector .u8) ((Context.start .empty).withLimits (upTo 3)) [3, 0, 0, 0, 7, 8, 9, 1] = .ok x →
      Ty.decode (.vector .u8) ((Context.start .empty).withLimits (upTo 4)) [3, 0, 0, 0, 7, 8, 9, 1] = .ok x) ∧
    Ty.decode (.vector .u8) ((Context.start .empty).withLimits (upTo 4)) [3, 0, 0, 0, 7] =
      .error (.unexpectedEndOfStream 3 1) ∧
    Ty.decode (.vector .u8) ((Context.start .empty).withLimits (upTo 3)) [4, 0, 0, 0, 7, 8, 9, 1] =
      .error (.oversizedLength 4 3) ∧
    ∃ x, Ty.decode (.vector .u8) ((Context.start .empty).withLimits (upTo 4)) [4, 0, 0, 0, 7, 8, 9, 1] =
      .ok (x, []) := by
  have hle : (upTo 3).maxBytesLen ≤ (upTo 4).maxBytesLen := by decide
  obtain ⟨-, hdecode, -, -⟩ := sameUnless_of_le hle (.start .empty)
  refine ⟨(hdecode _ _).ok, (hdecode _ _).error _ (by cbv) (by rintro ⟨_, _, ⟨⟩⟩), by cbv, ?_⟩
  exact ⟨.sequence (.ofBlock ⟨[7, 8, 9, 1], rfl⟩), by cbv⟩

end Ceilings

end CanonicalWire
