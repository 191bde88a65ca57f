import CanonicalWire.Proofs.Arrays
import CanonicalWire.Proofs.Nesting

/-!
What encoding and decoding report. Each fails with errors of its own only, and the numbers in an error agree with
what it says: more bytes are needed than are left, a length that is too great exceeds the limit it is held to.
-/

namespace CanonicalWire

namespace CodecError

/-- What reading may report. -/
def OfReading : CodecError → Prop
  | .unsupportedShape (.notAPayload _ _) | .enumNotDefined _ | .unknownEnumVariant _ _ | .directive _
  | .bigIntegerOverflow _ | .invalidUtf8 _ | .registry _ => True
  | .oversizedLength declared limit => limit < declared
  | .unexpectedEndOfStream needed remaining => remaining < needed
  | .invalidBooleanEncoding byte => byte ≠ 0 ∧ byte ≠ 1
  | .nonCanonicalMap index => 0 < index
  | .unsupportedShape _ | .unregisteredVariant _ _ | .lengthMismatch _ _ | .trailingData _
  | .negativeBigInteger => False

/-- What writing may report. -/
def OfWriting : CodecError → Prop
  | .unsupportedShape (.absent _) | .unsupportedShape (.fractional _) | .enumNotDefined _
  | .unregisteredVariant _ _ | .directive _ | .negativeBigInteger | .bigIntegerOverflow _ | .registry _ => True
  | .lengthMismatch expected actual => actual ≠ expected
  | .oversizedLength declared limit => limit < declared
  | .unsupportedShape _ | .unexpectedEndOfStream _ _ | .trailingData _ | .unknownEnumVariant _ _
  | .invalidBooleanEncoding _ | .invalidUtf8 _ | .nonCanonicalMap _ => False

end CodecError

variable {P : CodecError → Prop} {α β : Type}

/-- The outcome is no error but one with the property. -/
def ErrorsIn (P : CodecError → Prop) (r : Except CodecError α) : Prop := ∀ e, r = .error e → P e

/-- On every input the action fails with no error but one with the property. -/
def FailsIn (P : CodecError → Prop) (d : StateT Bytes (Except CodecError) α) : Prop := ∀ input, ErrorsIn P (d input)

namespace ErrorsIn

theorem ok (a : α) : ErrorsIn P (.ok a) := nofun

theorem error {e : CodecError} (he : P e) : ErrorsIn P (.error e : Except CodecError α) := by
  rintro _ ⟨⟩
  exact he

theorem bind {r : Except CodecError α} {f : α → Except CodecError β} (h : ErrorsIn P r)
    (hf : ∀ a, r = .ok a → ErrorsIn P (f a)) : ErrorsIn P (r >>= f) := by
  intro e he
  rcases bind_eq_error.mp he with hr | ⟨a, ha, hfa⟩
  · exact h e hr
  · exact hf a ha e hfa

theorem map {r : Except CodecError α} (h : ErrorsIn P r) (f : α → β) : ErrorsIn P (r.map f) :=
  fun e he => h e (map_eq_error.mp he)

end ErrorsIn

namespace FailsIn

theorem pure (a : α) : FailsIn P (pure a : StateT Bytes (Except CodecError) α) := fun _ => .ok _

theorem throw {e : CodecError} (he : P e) : FailsIn P (throw e : StateT Bytes (Except CodecError) α) :=
  fun _ => .error he

variable {d : StateT Bytes (Except CodecError) α} {f : α → StateT Bytes (Except CodecError) β}

theorem bind (h : FailsIn P d) (hf : ∀ a, FailsIn P (f a)) : FailsIn P (d >>= f) :=
  fun input => (h input).bind fun r _ => hf r.1 r.2

/-- What follows is run only on what the first action has accepted. -/
theorem bind_of_accepts {Q : α → Bytes → Prop} (h : FailsIn P d) (hd : Decode.Accepts d Q)
    (hf : ∀ a taken, Q a taken → FailsIn P (f a)) : FailsIn P (d >>= f) :=
  fun input => (h input).bind fun r hr => by
    obtain ⟨taken, -, hQ⟩ := hd input r.1 r.2 hr
    exact hf r.1 taken hQ r.2

theorem map (h : FailsIn P d) (g : α → β) : FailsIn P (d >>= fun a => Pure.pure (g a)) := h.bind fun _ => pure _

theorem lift_bind {r : Except CodecError α} (h : ErrorsIn P r) (hf : ∀ a, FailsIn P (f a)) :
    FailsIn P ((liftM r : StateT Bytes (Except CodecError) α) >>= f) := by
  cases r with
  | error e => exact throw (h e rfl)
  | ok a => exact hf a

theorem bytes {a : Encode} (h : FailsIn P a) : ErrorsIn P a.bytes := (h []).map _

end FailsIn

theorem errorsIn_checkLength (hP : ∀ declared limit, limit < declared → P (.oversizedLength declared limit))
    (len : Nat) (ctx : Context) : ErrorsIn P (checkLength len ctx) := by
  rcases Nat.lt_or_ge ctx.limits.maxBytesLen len with hlt | hle
  · rw [checkLength_of_lt hlt]
    exact .error (hP _ _ hlt)
  · rw [checkLength_of_le hle]
    exact .ok _

/-- A field is entered unless its declaration is faulty or its group is not found. -/
theorem Declaration.errorsIn_enter (hdirective : ∀ e, P (.directive e)) (hregistry : ∀ e, P (.registry e))
    (declared : Declaration) (container : Option String) (ctx : Context) :
    ErrorsIn P (declared.enter container ctx) := by
  cases declared with
  | faulty e => exact .error (hdirective e)
  | valid d =>
      show ErrorsIn P ((ctx.field container d).mapError .registry)
      cases ctx.field container d with
      | error e => exact .error (hregistry e)
      | ok c => exact .ok c

/-! ### Decoding -/

namespace Decode

theorem failsIn_take (n : Nat) : FailsIn CodecError.OfReading (take n) := by
  intro input
  rcases Nat.lt_or_ge input.length n with hlt | hle
  · rw [take_of_lt hlt]
    exact .error hlt
  · rw [take_of_le hle]
    exact .ok _

theorem failsIn_number (width : Nat) : FailsIn CodecError.OfReading (number width) := (failsIn_take width).map _

theorem failsIn_readCount (ctx : Context) : FailsIn CodecError.OfReading (readCount ctx) := by
  rw [readCount]
  split
  · exact .pure _
  · exact failsIn_number prefixWidth

theorem errorsIn_check (len : Nat) (ctx : Context) : ErrorsIn CodecError.OfReading (checkLength len ctx) :=
  errorsIn_checkLength (fun _ _ h => h) len ctx

theorem failsIn_readByteRun (ctx : Context) : FailsIn CodecError.OfReading (readByteRun ctx) :=
  (failsIn_readCount ctx).bind fun len => .lift_bind (errorsIn_check len ctx) fun _ => (failsIn_take len).map _

theorem ofNat_ne_bool {n : Nat} (hn : n + 2 < 256) : UInt8.ofNat (n + 2) ≠ 0 ∧ UInt8.ofNat (n + 2) ≠ 1 := by
  have htoNat : (UInt8.ofNat (n + 2)).toNat = n + 2 := Nat.mod_eq_of_lt hn
  constructor
  · intro h
    rw [h] at htoNat
    cases htoNat
  · intro h
    rw [h] at htoNat
    cases htoNat

theorem failsIn_readBool : FailsIn CodecError.OfReading readBool := by
  refine (failsIn_number 1).bind_of_accepts (accepts_number 1) fun n _ h => ?_
  match n with
  | 0 | 1 => exact .pure _
  | n + 2 => exact .throw (ofNat_ne_bool h.1)

theorem failsIn_readBigUint (width : Nat) : FailsIn CodecError.OfReading (readBigUint width) :=
  (failsIn_take width).map _

theorem failsIn_readNatural : FailsIn CodecError.OfReading readNatural := (failsIn_readBigUint _).map _

theorem failsIn_readI128 : FailsIn CodecError.OfReading readI128 := by
  refine ((failsIn_readBigUint _).map _).bind fun x => ?_
  split
  · exact .throw trivial
  · exact .pure _

theorem failsIn_readText (ctx : Context) : FailsIn CodecError.OfReading (readText ctx) := by
  refine (failsIn_readByteRun ctx).bind fun bs => ?_
  split
  · exact .pure _
  · exact .throw trivial

theorem failsIn_readVariant (union : String) (ctx : Context) :
    FailsIn CodecError.OfReading (readVariant union ctx) := by
  rw [readVariant]
  split
  · exact .throw trivial
  · refine ((failsIn_number prefixWidth).map _).bind fun d => ?_
    split
    · exact .throw trivial
    · exact .pure _

section Loops

variable [Declarations] {t : Ty} {item : Decode (Value t)} (h : FailsIn CodecError.OfReading item)
include h

theorem failsIn_weighed (count : Nat) (ctx : Context) : FailsIn CodecError.OfReading (weighed item count ctx) := by
  refine fun input => (h input).bind fun r _ => ?_
  split
  · exact (errorsIn_check count ctx).map _
  · exact .ok r

theorem failsIn_readEach (count : Nat) (ctx : Context) : (len : Nat) →
    FailsIn CodecError.OfReading (readEach item count ctx len)
  | 0 => .pure _
  | len + 1 => by
      rw [readEach_succ]
      exact (failsIn_weighed h count ctx).bind fun x => (failsIn_readEach count ctx len).map _

theorem failsIn_readRun (len : Nat) (ctx : Context) : FailsIn CodecError.OfReading (readRun t item len ctx) := by
  by_cases ht : t = .byte
  · subst ht
    exact .lift_bind (errorsIn_check len ctx) fun _ => (failsIn_take len).map _
  · rw [readRun_of_ne ht]
    exact failsIn_readEach h len ctx len

/-- The first key has none before it, so the index that is reported is not zero. -/
theorem failsIn_readKey {index : Nat} {previous : Option Bytes} (hindex : previous.isSome → 0 < index) :
    FailsIn CodecError.OfReading (readKey item index previous) := by
  rw [readKey_eq]
  refine FailsIn.bind (fun input => (h input).map _) fun r => ?_
  cases previous with
  | none => exact .pure r
  | some earlier =>
      rw [inOrder]
      split
      · exact .pure r
      · exact .throw (hindex rfl)

theorem failsIn_readSet : (len index : Nat) → (previous : Option Bytes) → (previous.isSome → 0 < index) →
    FailsIn CodecError.OfReading (readSet item len index previous)
  | 0, _, _, _ => .pure _
  | len + 1, index, _, hindex => (failsIn_readKey h hindex).bind fun r =>
      (failsIn_readSet len (index + 1) (some r.2) fun _ => Nat.succ_pos index).map _

theorem failsIn_readEntries {v : Ty} {value : Decode (Value v)} (hvalue : FailsIn CodecError.OfReading value) :
    (len index : Nat) → (previous : Option Bytes) → (previous.isSome → 0 < index) →
      FailsIn CodecError.OfReading (readEntries item value len index previous)
  | 0, _, _, _ => .pure _
  | len + 1, index, _, hindex => (failsIn_readKey h hindex).bind fun r => hvalue.bind fun _ =>
      (failsIn_readEntries hvalue len (index + 1) (some r.2) fun _ => Nat.succ_pos index).map _

end Loops

end Decode

theorem Scalar.failsIn_decode (s : Scalar) (ctx : Context) : FailsIn CodecError.OfReading (s.decode ctx) := by
  cases s with
  | bool => exact Decode.failsIn_readBool
  | int k => exact (Decode.failsIn_number _).map _
  | u128 => exact (Decode.failsIn_readBigUint _).map _
  | i128 => exact Decode.failsIn_readI128
  | uint n => exact (Decode.failsIn_take n).map _
  | natural => exact Decode.failsIn_readNatural
  | integer | decimal => exact Decode.failsIn_readNatural.map _
  | text => exact Decode.failsIn_readText ctx
  | bytes => exact Decode.failsIn_readByteRun ctx
  | uuid => exact .lift_bind (Decode.errorsIn_check 16 ctx) fun _ => Decode.failsIn_take 16

section Types

variable [Declarations] {self : DecodeRecursive}

theorem Fields.failsIn_decodeWith (k : RecordKind) : (fs : Fields) → (ctx : Context) →
    (∀ t ∈ fs.types, ∀ ctx, FailsIn CodecError.OfReading (t.decodeWith self ctx)) →
      FailsIn CodecError.OfReading (fs.decodeWith self k ctx)
  | .nil, _, _ => .pure _
  | .cons _ declared t rest, ctx, h => by
      obtain ⟨ht, hrest⟩ := List.forall_mem_cons.mp h
      have hxs := rest.failsIn_decodeWith k ctx hrest
      rw [Fields.decodeWith]
      split
      · exact hxs.map _
      · exact .lift_bind (declared.errorsIn_enter (fun _ => trivial) (fun _ => trivial) _ ctx) fun fieldCtx =>
          (ht fieldCtx).bind fun x => hxs.map _

theorem Cases.failsIn_decodeWith (union : String) (payload : Ty) : (cs : Cases) → (ctx : Context) →
    (∀ t ∈ cs.types, ∀ ctx, FailsIn CodecError.OfReading (t.decodeWith self ctx)) →
      FailsIn CodecError.OfReading (cs.decodeWith self union payload ctx)
  | .nil, _, _ => .throw trivial
  | .cons _ t rest, ctx, h => by
      obtain ⟨ht, hrest⟩ := List.forall_mem_cons.mp h
      rw [Cases.decodeWith]
      split
      · exact (ht ctx).map _
      · exact (rest.failsIn_decodeWith union payload ctx hrest).map _

theorem Ty.failsIn_decodeWith (hself : ∀ r ctx, FailsIn CodecError.OfReading (self r ctx)) (t : Ty) (ctx : Context) :
    FailsIn CodecError.OfReading (t.decodeWith self ctx) := by
  induction t generalizing ctx with
  | scalar s => exact (s.failsIn_decode ctx).map _
  | option t ih =>
      rw [Ty.decodeWith]
      split
      · refine Decode.failsIn_readBool.bind fun b => ?_
        split
        · exact (ih ctx.present).map _
        · exact .pure _
      · exact (ih ctx).map _
  | pointer p t ih => exact (ih ctx).map _
  | sequence k t ih | deque t ih =>
      exact (Decode.failsIn_readCount ctx).bind fun len =>
        (Decode.failsIn_readRun (ih ctx.element) len ctx.element).map _
  | array t n ih => exact (Decode.failsIn_readRun (ih ctx.element) n ctx.element).map _
  | map l k v ihk ihv =>
      exact ((Decode.failsIn_number prefixWidth).bind fun len =>
        Decode.failsIn_readEntries (ihk ctx.element) (ihv ctx.element) len 0 none (by simp)).map _
  | set l t ih =>
      exact ((Decode.failsIn_number prefixWidth).bind fun len =>
        (Decode.failsIn_readSet (ih ctx.element) len 0 none (by simp)).map _).map _
  | record k fs ih => exact (fs.failsIn_decodeWith k ctx ih).map _
  | union name cs ih =>
      exact (Decode.failsIn_readVariant name ctx).bind fun variant =>
        (cs.failsIn_decodeWith name variant.payload ctx.bare ih).map _
  | recursive r => exact (hself r ctx).map _

/-- Some error of reading has to be at the bottom, where decoding does not get. -/
theorem failsIn_decodeAbove : (n : Nat) → (r : Recursive) → (ctx : Context) →
    FailsIn CodecError.OfReading (decodeAbove (fun r _ => throw (.enumNotDefined r.name)) n r ctx)
  | 0, _, _ => .throw trivial
  | n + 1, r, ctx => r.body.failsIn_decodeWith (failsIn_decodeAbove n) ctx

theorem Ty.failsIn_decode (t : Ty) (ctx : Context) : FailsIn CodecError.OfReading (t.decode ctx) := by
  intro input
  rw [t.decode_eq_above (fun r _ => throw (.enumNotDefined r.name)) ctx (Nat.lt_succ_self _)]
  exact t.failsIn_decodeWith (failsIn_decodeAbove _) ctx input

theorem Codec.errorsIn_decode (c : Codec) (t : Ty) (input : Bytes) :
    ErrorsIn (fun e => e.OfReading ∨ ∃ remaining, 0 < remaining ∧ e = .trailingData remaining) (c.decode t input) := by
  have hdecode := t.failsIn_decode c.context input
  refine ErrorsIn.bind (fun e he => .inl (hdecode e he)) fun r _ => ?_
  obtain ⟨x, rest⟩ := r
  cases rest with
  | nil => exact .ok x
  | cons b bs => exact .error (.inr ⟨_, Nat.succ_pos _, rfl⟩)

end Types

/-! ### Encoding -/

namespace Encode

theorem failsIn_put (bs : Bytes) : FailsIn P (put bs) := fun _ => .ok _

theorem errorsIn_check (len : Nat) (ctx : Context) : ErrorsIn CodecError.OfWriting (checkLength len ctx) :=
  errorsIn_checkLength (fun _ _ h => h) len ctx

theorem failsIn_writeLen (len : Nat) : FailsIn CodecError.OfWriting (writeLen len) := by
  rw [writeLen]
  split
  · next h => exact .throw h
  · exact failsIn_put _

theorem failsIn_writeCount (len : Nat) (ctx : Context) : FailsIn CodecError.OfWriting (writeCount len ctx) := by
  rw [writeCount]
  split
  · split
    · exact .pure _
    · next hne => exact .throw hne
  · exact failsIn_writeLen len

theorem failsIn_writeByteRun (bs : Bytes) (ctx : Context) : FailsIn CodecError.OfWriting (writeByteRun bs ctx) :=
  .lift_bind (errorsIn_check _ ctx) fun _ => (failsIn_writeCount _ ctx).bind fun _ => failsIn_put bs

theorem failsIn_writeBigUint (magnitude : Bytes) (width : Nat) :
    FailsIn CodecError.OfWriting (writeBigUint magnitude width) := by
  refine .lift_bind ?_ fun _ => failsIn_put _
  rw [blockOfMagnitude]
  split
  · exact .ok _
  · exact .error trivial

theorem failsIn_writeInteger (x : Int) : FailsIn CodecError.OfWriting (writeInteger x) := by
  rw [writeInteger]
  split
  · exact .throw trivial
  · exact failsIn_writeBigUint _ _

theorem ofWriting_absentError (t : Ty) (ctx : Context) : (absentError t ctx).OfWriting := by
  rw [absentError]
  split <;> trivial

theorem errorsIn_discriminantOf (union : String) (payload : Ty) (ctx : Context) :
    ErrorsIn CodecError.OfWriting (discriminantOf union payload ctx) := by
  rw [discriminantOf]
  split
  · exact .error trivial
  · split
    · exact .error trivial
    · exact .ok _

end Encode

theorem Scalar.failsIn_encode (s : Scalar) (x : s.Carrier) (ctx : Context) :
    FailsIn CodecError.OfWriting (s.encode x ctx) := by
  cases s with
  | bool | int | uint => exact Encode.failsIn_put _
  | u128 | natural => exact Encode.failsIn_writeBigUint _ _
  | i128 =>
      simp only [Scalar.encode, Encode.writeI128]
      split
      · exact .throw trivial
      · exact Encode.failsIn_writeBigUint _ _
  | integer => exact Encode.failsIn_writeInteger x
  | decimal =>
      simp only [Scalar.encode, Encode.writeDecimal]
      split
      · exact Encode.failsIn_writeInteger _
      · exact .throw trivial
  | text | bytes => exact Encode.failsIn_writeByteRun _ ctx
  | uuid => exact .lift_bind (Encode.errorsIn_check 16 ctx) fun _ => Encode.failsIn_put _

section Values

variable [Declarations]

theorem Encode.failsIn_writeRun {t : Ty} {n : Nat} (xs : Items t n) {oneByOne : Encode} (ctx : Context)
    (h : FailsIn CodecError.OfWriting oneByOne) : FailsIn CodecError.OfWriting (writeRun xs oneByOne ctx) := by
  rw [writeRun]
  split
  · exact .lift_bind (errorsIn_check n ctx) fun _ => failsIn_put _
  · exact h

theorem Items.failsIn_encodeEach : {t : Ty} → {n : Nat} → (xs : Items t n) → (ctx : Context) →
    (∀ x ∈ xs.toList, FailsIn CodecError.OfWriting (x.encode ctx)) →
      FailsIn CodecError.OfWriting (xs.encodeEach ctx)
  | _, _, .nil, _, _ => .pure _
  | _, _, .cons x xs, ctx, h => by
      obtain ⟨hx, hxs⟩ := List.forall_mem_cons.mp h
      exact hx.bind fun _ => xs.failsIn_encodeEach ctx hxs

theorem Items.errorsIn_encodeApart : {t : Ty} → {n : Nat} → (xs : Items t n) → (ctx : Context) →
    (∀ x ∈ xs.toList, FailsIn CodecError.OfWriting (x.encode ctx)) →
      ErrorsIn CodecError.OfWriting (xs.encodeApart ctx)
  | _, _, .nil, _, _ => .ok _
  | _, _, .cons x xs, ctx, h => by
      obtain ⟨hx, hxs⟩ := List.forall_mem_cons.mp h
      exact hx.bytes.bind fun _ _ => (xs.errorsIn_encodeApart ctx hxs).bind fun _ _ => .ok _

theorem Entries.errorsIn_encodeApart : {k v : Ty} → (es : Entries k v) → (ctx : Context) →
    (∀ e ∈ es.toList, FailsIn CodecError.OfWriting (e.1.encode ctx) ∧
      FailsIn CodecError.OfWriting (e.2.encode ctx)) → ErrorsIn CodecError.OfWriting (es.encodeApart ctx)
  | _, _, .nil, _, _ => .ok _
  | _, _, .cons key value rest, ctx, h => by
      obtain ⟨⟨hkey, hvalue⟩, hrest⟩ := List.forall_mem_cons.mp h
      exact hkey.bytes.bind fun _ _ => hvalue.bytes.bind fun _ _ =>
        (rest.errorsIn_encodeApart ctx hrest).bind fun _ _ => .ok _

theorem Record.failsIn_encode : {fs : Fields} → (xs : Record fs) → (container : Option String) → (ctx : Context) →
    xs.All (fun _ x => ∀ ctx, FailsIn CodecError.OfWriting (x.encode ctx)) →
      FailsIn CodecError.OfWriting (xs.encode container ctx)
  | .nil, .nil, _, _, _ => .pure _
  | .cons _ declared _ _, .cons x xs, container, ctx, h => by
      have hrest := xs.failsIn_encode container ctx h.2
      rw [Record.encode]
      split
      · exact hrest
      · exact .lift_bind (declared.errorsIn_enter (fun _ => trivial) (fun _ => trivial) container ctx)
          fun fieldCtx => (h.1 fieldCtx).bind fun _ => hrest
  | .cons _ declared _ _, .omitted _ xs, container, ctx, h => by
      refine .lift_bind ?_ fun _ => xs.failsIn_encode container ctx h
      cases declared with
      | faulty e => exact .error trivial
      | valid d => exact .ok d

theorem Value.failsIn_encode {t : Ty} (x : Value t) (ctx : Context) :
    FailsIn CodecError.OfWriting (x.encode ctx) := by
  induction x generalizing ctx with
  | scalar x => exact Scalar.failsIn_encode _ x ctx
  | absent =>
      rw [encode_absent]
      split
      · exact Encode.failsIn_put _
      · exact .throw (Encode.ofWriting_absentError _ ctx)
  | present x ih =>
      rw [encode_present]
      split
      · exact (Encode.failsIn_put _).bind fun _ => ih ctx.present
      · exact ih ctx
  | pointer x ih | recursive x ih => exact ih ctx
  | sequence xs ih =>
      exact (Encode.failsIn_writeCount _ ctx).bind fun _ =>
        Encode.failsIn_writeRun xs ctx.element (xs.failsIn_encodeEach _ fun x hx => ih x hx _)
  | deque front back ihfront ihback =>
      refine (Encode.failsIn_writeCount _ ctx).bind fun _ => FailsIn.bind ?_ fun _ => ?_
      · exact Encode.failsIn_writeRun front ctx.element (front.failsIn_encodeEach _ fun x hx => ihfront x hx _)
      · exact Encode.failsIn_writeRun back ctx.element (back.failsIn_encodeEach _ fun x hx => ihback x hx _)
  | array xs ih => exact Encode.failsIn_writeRun xs ctx.element (xs.failsIn_encodeEach _ fun x hx => ih x hx _)
  | map es ih =>
      refine .lift_bind (es.errorsIn_encodeApart _ fun e he => ⟨(ih e he).1 _, (ih e he).2 _⟩) fun ps => ?_
      exact (Encode.failsIn_writeLen _).bind fun _ => Encode.failsIn_put _
  | set xs ih =>
      refine .lift_bind (xs.errorsIn_encodeApart _ fun x hx => ih x hx _) fun bs => ?_
      exact (Encode.failsIn_writeLen _).bind fun _ => Encode.failsIn_put _
  | record xs ih => exact xs.failsIn_encode _ ctx ih
  | union c ih =>
      rw [encode_union, c.encodePayload_eq]
      exact .lift_bind (Encode.errorsIn_discriminantOf _ _ ctx) fun d =>
        (Encode.failsIn_put _).bind fun _ => ih ctx.bare

/-- Each direction fails with errors of its own only. In particular a run that is read has the length that was asked
for, so an array can be made of it and no mismatch of lengths is reported. -/
theorem CodecError.by_direction (ctx : Context) (c : Codec) :
    (∀ t input e, Ty.decode t ctx input = .error e → e.OfReading) ∧
    (∀ t input e, c.decodeFrom t input = .error e → e.OfReading) ∧
    (∀ t input e, c.decode t input = .error e →
      e.OfReading ∨ ∃ remaining, 0 < remaining ∧ e = .trailingData remaining) ∧
    (∀ {t : Ty} (x : Value t) written e, x.encode ctx written = .error e → e.OfWriting) ∧
    (∀ {t : Ty} (x : Value t) e, c.encode x = .error e → e.OfWriting) ∧
    (∀ t n, Ty.decode (.array t n) ctx = do
      let xs ← Decode.collectRun t (t.decode ctx.element) n ctx.element
      let ys ← Items.ofExactly n xs
      return .array ys) ∧
    ∀ t n input xs rest, Decode.collectRun t (t.decode ctx) n ctx input = .ok (xs, rest) →
      xs.length = n ∧ ∃ ys, Items.ofExactly n xs = .ok ys ∧ ys.toList = xs := by
  refine ⟨fun t => t.failsIn_decode ctx, fun t => t.failsIn_decode c.context, fun t => c.errorsIn_decode t,
    fun x => x.failsIn_encode ctx, fun x => (x.failsIn_encode c.context).bytes,
    fun t n => Ty.decode_array_collected ctx, fun t n input xs rest h => ?_⟩
  obtain rfl := Decode.length_of_collectRun h
  exact ⟨rfl, .ofList xs, dif_pos rfl, Items.toList_ofList xs⟩

end Values

section Words

/-- Two words for an array, at first cut short, and a number that has no written form. -/
theorem CodecError.by_direction_words :
    Ty.decode (.array .u16 2) (.start .empty) [1, 0, 2] = .error (.unexpectedEndOfStream 2 1) ∧ 1 < 2 ∧
      (Value.scalar (s := .integer) (-1 : Int)).encode (.start .empty) [5] = .error .negativeBigInteger ∧
      CodecError.negativeBigInteger.OfWriting ∧
      Decode.collectRun .u16 (Ty.u16.decode (.start .empty)) 2 (.start .empty) [1, 0, 2, 0, 3] =
        .ok ([word 1, word 2], [3]) ∧
      ∃ ys, Items.ofExactly 2 [word 1, word 2] = .ok ys ∧ ys.toList = [word 1, word 2] := by
  obtain ⟨hdecode, -, -, hencode, -, -, hcollect⟩ := by_direction (.start .empty) {}
  have hcut : Ty.decode (.array .u16 2) (.start .empty) [1, 0, 2] = .error (.unexpectedEndOfStream 2 1) := by cbv
  have hnegative : (Value.scalar (s := .integer) (-1 : Int)).encode (.start .empty) [5] =
      .error .negativeBigInteger := by cbv
  have hwords : Decode.collectRun .u16 (Ty.u16.decode (.start .empty)) 2 (.start .empty) [1, 0, 2, 0, 3] =
      .ok ([word 1, word 2], [3]) := by
    rw [Ty.decode_eq]
    rfl
  exact ⟨hcut, hdecode _ _ _ hcut, hnegative, hencode _ _ _ hnegative, hwords, (hcollect _ _ _ _ _ hwords).2⟩

end Words

end CanonicalWire
