import CanonicalWire.Proofs.Recursion

/-!
Two runs side by side. Registry and limits hold throughout a run and are consulted at any depth. Where every
look-up and every length check of the second run gives what the first run gives, unless this is an excused
error, encoding and decoding as a whole do so too.
-/

namespace CanonicalWire

/-- The second outcome is the first, unless the first is an excused error. -/
structure SameUnless (excused : CodecError → Prop) {α : Type} (r s : Except CodecError α) : Prop where
  ok : ∀ a, r = .ok a → s = .ok a
  error : ∀ e, r = .error e → ¬excused e → s = .error e

variable {excused : CodecError → Prop} {α β : Type}

namespace SameUnless

theorem refl (r : Except CodecError α) : SameUnless excused r r := ⟨fun _ h => h, fun _ h _ => h⟩

theorem of_excused {e : CodecError} (he : excused e) (s : Except CodecError α) : SameUnless excused (.error e) s :=
  ⟨nofun, fun _ h hne => absurd (Except.error.inj h ▸ he) hne⟩

theorem bind {r s : Except CodecError α} {f g : α → Except CodecError β} (h : SameUnless excused r s)
    (hf : ∀ a, SameUnless excused (f a) (g a)) : SameUnless excused (r >>= f) (s >>= g) := by
  cases r with
  | ok a =>
      rw [h.ok a rfl]
      exact hf a
  | error e =>
      refine ⟨nofun, fun e' he' hne => ?_⟩
      obtain rfl : e = e' := Except.error.inj he'
      rw [h.error e rfl hne]
      rfl

theorem map {r s : Except CodecError α} (h : SameUnless excused r s) (f : α → β) :
    SameUnless excused (r.map f) (s.map f) := by
  have hbind := h.bind fun a => refl (Except.ok (f a))
  cases r <;> cases s <;> exact hbind

theorem eq_of_none {r s : Except CodecError α} (h : SameUnless excused r s) (hnone : ∀ e, ¬excused e) : r = s := by
  cases r with
  | ok a => exact (h.ok a rfl).symm
  | error e => exact (h.error e rfl (hnone e)).symm

end SameUnless

/-- On every input the second action does what the first does, unless the first fails with an excused error. -/
def InStep (excused : CodecError → Prop) (d e : StateT Bytes (Except CodecError) α) : Prop :=
  ∀ input, SameUnless excused (d input) (e input)

namespace InStep

variable {d e : StateT Bytes (Except CodecError) α}

theorem refl (d : StateT Bytes (Except CodecError) α) : InStep excused d d := fun _ => .refl _

theorem of_eq (h : d = e) : InStep excused d e := h ▸ refl d

theorem bind {f g : α → StateT Bytes (Except CodecError) β} (h : InStep excused d e)
    (hf : ∀ a, InStep excused (f a) (g a)) : InStep excused (d >>= f) (e >>= g) :=
  fun input => (h input).bind fun r => hf r.1 r.2

theorem map (h : InStep excused d e) (f : α → β) :
    InStep excused (d >>= fun a => pure (f a)) (e >>= fun a => pure (f a)) := h.bind fun _ => refl _

theorem lift {r s : Except CodecError α} (h : SameUnless excused r s) :
    InStep excused (liftM r : StateT Bytes (Except CodecError) α) (liftM s) :=
  fun _ => h.bind fun _ => .refl _

theorem lift_map_bind (r : Except CodecError α) (m : α → β) {γ : Type}
    (f : β → StateT Bytes (Except CodecError) γ) :
    (liftM (r.map m) : StateT Bytes (Except CodecError) β) >>= f = liftM r >>= fun a => f (m a) := by
  cases r <;> rfl

theorem bytes {a b : Encode} (h : InStep excused a b) : SameUnless excused a.bytes b.bytes := (h []).map _

theorem eq_of_none (h : InStep excused d e) (hnone : ∀ e, ¬excused e) : d = e :=
  funext fun input => (h input).eq_of_none hnone

end InStep

/-- The enum group that directives name, looked up if the record is a container. -/
def Context.groupOf (ctx : Context) (container : Option String) (d : Directives) :
    Except CodecError (Option VariantMap) :=
  match container, d.enumGroup with
  | some container, some group => ((ctx.registry.resolve container group).mapError .registry).map some
  | _, _ => .ok none

/-- A field's context is that of its directives with the group that they name. -/
theorem Context.mapError_field (ctx : Context) (container : Option String) (d : Directives) :
    (ctx.field container d).mapError .registry =
      (ctx.groupOf container d).map fun variants => { ctx.withDirectives d with variants := variants } := by
  cases container with
  | none => rfl
  | some name =>
      unfold field groupOf
      cases d.enumGroup with
      | none => rfl
      | some group =>
          simp only
          cases ctx.registry.resolve name group <;> rfl

/-- Contexts with the same directives, of which the second looks up and checks as the first does unless the
first fails with an excused error. -/
structure Context.InStep (excused : CodecError → Prop) (ctx ctx' : Context) : Prop where
  optional : ctx'.optional = ctx.optional
  fixedLen : ctx'.fixedLen = ctx.fixedLen
  variants : ctx'.variants = ctx.variants
  check : ∀ len, SameUnless excused (checkLength len ctx) (checkLength len ctx')
  resolve : ∀ container group, SameUnless excused ((ctx.registry.resolve container group).mapError .registry)
    ((ctx'.registry.resolve container group).mapError .registry)

namespace Context.InStep

variable {ctx ctx' : Context} (h : ctx.InStep excused ctx')
include h

theorem element : ctx.element.InStep excused ctx'.element := ⟨rfl, rfl, h.variants, h.check, h.resolve⟩

theorem bare : ctx.bare.InStep excused ctx'.bare := ⟨rfl, rfl, rfl, h.check, h.resolve⟩

theorem present : ctx.present.InStep excused ctx'.present := ⟨rfl, h.fixedLen, h.variants, h.check, h.resolve⟩

theorem withDirectives (d : Directives) (variants : Option VariantMap) :
    Context.InStep excused { ctx.withDirectives d with variants := variants }
      { ctx'.withDirectives d with variants := variants } := ⟨rfl, rfl, rfl, h.check, h.resolve⟩

theorem groupOf (container : Option String) (d : Directives) :
    SameUnless excused (ctx.groupOf container d) (ctx'.groupOf container d) := by
  cases container with
  | none => exact .refl _
  | some name =>
      unfold Context.groupOf
      cases d.enumGroup with
      | none => exact .refl _
      | some group => exact (h.resolve name group).map some

/-- Fields are entered in step, and what is done in their contexts stays in step if these are. -/
theorem enter_bind (declared : Declaration) (container : Option String)
    {f g : Context → StateT Bytes (Except CodecError) α}
    (hf : ∀ {c c'}, c.InStep excused c' → CanonicalWire.InStep excused (f c) (g c')) :
    CanonicalWire.InStep excused (liftM (declared.enter container ctx) >>= f)
      (liftM (declared.enter container ctx') >>= g) := by
  have hgroup (d : Directives) := InStep.lift (h.groupOf container d)
  have hfields (d : Directives) : CanonicalWire.InStep excused
      (liftM ((ctx.field container d).mapError CodecError.registry) >>= f)
      (liftM ((ctx'.field container d).mapError CodecError.registry) >>= g) := by
    rw [mapError_field, mapError_field, InStep.lift_map_bind, InStep.lift_map_bind]
    exact (hgroup d).bind fun variants => hf (h.withDirectives d variants)
  cases declared with
  | valid d => exact hfields d
  | faulty e => exact .refl _

theorem writeCount (len : Nat) : Encode.writeCount len ctx = Encode.writeCount len ctx' := by
  rw [Encode.writeCount, Encode.writeCount, h.fixedLen]

theorem readCount : Decode.readCount ctx = Decode.readCount ctx' := by
  rw [Decode.readCount, Decode.readCount, h.fixedLen]

end Context.InStep

/-! ### Encoding -/

namespace Encode

variable {ctx ctx' : Context} (h : ctx.InStep excused ctx')
include h

theorem inStep_writeByteRun (bs : Bytes) : InStep excused (writeByteRun bs ctx) (writeByteRun bs ctx') :=
  (InStep.lift (h.check _)).bind fun _ => (InStep.of_eq (h.writeCount _)).bind fun _ => .refl _

theorem inStep_writeRun [Declarations] {t : Ty} {n : Nat} (xs : Items t n) {oneByOne oneByOne' : Encode}
    (hitems : InStep excused oneByOne oneByOne') :
    InStep excused (writeRun xs oneByOne ctx) (writeRun xs oneByOne' ctx') := by
  unfold writeRun
  split
  · exact (InStep.lift (h.check n)).bind fun _ => .refl _
  · exact hitems

end Encode

theorem Scalar.inStep_encode {ctx ctx' : Context} (h : ctx.InStep excused ctx') (s : Scalar) (x : s.Carrier) :
    InStep excused (s.encode x ctx) (s.encode x ctx') := by
  cases s with
  | text | bytes => exact Encode.inStep_writeByteRun h _
  | uuid => exact (InStep.lift (h.check 16)).bind fun _ => .refl _
  | _ => exact .refl _

section Values

variable [Declarations]

theorem Items.inStep_encodeEach : {t : Ty} → {n : Nat} → (xs : Items t n) → (ctx ctx' : Context) →
    (∀ x ∈ xs.toList, InStep excused (x.encode ctx) (x.encode ctx')) →
      InStep excused (xs.encodeEach ctx) (xs.encodeEach ctx')
  | _, _, .nil, _, _, _ => .refl _
  | _, _, .cons x xs, ctx, ctx', h => by
      obtain ⟨hx, hxs⟩ := List.forall_mem_cons.mp h
      exact hx.bind fun _ => xs.inStep_encodeEach ctx ctx' hxs

theorem Items.sameUnless_encodeApart : {t : Ty} → {n : Nat} → (xs : Items t n) → (ctx ctx' : Context) →
    (∀ x ∈ xs.toList, InStep excused (x.encode ctx) (x.encode ctx')) →
      SameUnless excused (xs.encodeApart ctx) (xs.encodeApart ctx')
  | _, _, .nil, _, _, _ => .refl _
  | _, _, .cons x xs, ctx, ctx', h => by
      obtain ⟨hx, hxs⟩ := List.forall_mem_cons.mp h
      exact hx.bytes.bind fun _ => (xs.sameUnless_encodeApart ctx ctx' hxs).bind fun _ => .refl _

theorem Entries.sameUnless_encodeApart : {k v : Ty} → (es : Entries k v) → (ctx ctx' : Context) →
    (∀ e ∈ es.toList, InStep excused (e.1.encode ctx) (e.1.encode ctx') ∧
      InStep excused (e.2.encode ctx) (e.2.encode ctx')) →
        SameUnless excused (es.encodeApart ctx) (es.encodeApart ctx')
  | _, _, .nil, _, _, _ => .refl _
  | _, _, .cons key value rest, ctx, ctx', h => by
      obtain ⟨⟨hkey, hvalue⟩, hrest⟩ := List.forall_mem_cons.mp h
      exact hkey.bytes.bind fun _ => hvalue.bytes.bind fun _ =>
        (rest.sameUnless_encodeApart ctx ctx' hrest).bind fun _ => .refl _

theorem Record.inStep_encode : {fs : Fields} → (xs : Record fs) → (container : Option String) →
    {ctx ctx' : Context} → ctx.InStep excused ctx' →
      xs.All (fun _ x => ∀ {ctx ctx' : Context}, ctx.InStep excused ctx' →
        InStep excused (x.encode ctx) (x.encode ctx')) →
        InStep excused (xs.encode container ctx) (xs.encode container ctx')
  | .nil, .nil, _, _, _, _, _ => .refl _
  | .cons _ declared _ _, .cons x xs, container, ctx, ctx', h, ih => by
      have hrest := xs.inStep_encode container h ih.2
      rw [Record.encode, Record.encode]
      split
      · exact hrest
      · exact h.enter_bind declared container fun hc => (ih.1 hc).bind fun _ => hrest
  | .cons .., .omitted _ xs, container, _, _, h, ih =>
      (InStep.refl _).bind fun _ => xs.inStep_encode container h ih

theorem Value.inStep_encode {t : Ty} (x : Value t) {ctx ctx' : Context} (h : ctx.InStep excused ctx') :
    InStep excused (x.encode ctx) (x.encode ctx') := by
  induction x generalizing ctx ctx' with
  | scalar x => exact Scalar.inStep_encode h _ x
  | absent =>
      rw [encode_absent, encode_absent, Encode.absentError, Encode.absentError, h.optional, h.variants]
      exact .refl _
  | present x ih =>
      rw [encode_present, encode_present, h.optional]
      split
      · exact (InStep.refl _).bind fun _ => ih h.present
      · exact ih h
  | pointer x ih | recursive x ih => exact ih h
  | sequence xs ih =>
      exact (InStep.of_eq (h.writeCount _)).bind fun _ => Encode.inStep_writeRun h.element xs
        (xs.inStep_encodeEach _ _ fun x hx => ih x hx h.element)
  | deque front back ihfront ihback =>
      refine (InStep.of_eq (h.writeCount _)).bind fun _ => InStep.bind ?_ fun _ => ?_
      · exact Encode.inStep_writeRun h.element front
          (front.inStep_encodeEach _ _ fun x hx => ihfront x hx h.element)
      · exact Encode.inStep_writeRun h.element back
          (back.inStep_encodeEach _ _ fun x hx => ihback x hx h.element)
  | array xs ih =>
      exact Encode.inStep_writeRun h.element xs (xs.inStep_encodeEach _ _ fun x hx => ih x hx h.element)
  | map es ih =>
      refine (InStep.lift (es.sameUnless_encodeApart _ _ fun e he => ?_)).bind fun _ => .refl _
      exact ⟨(ih e he).1 h.element, (ih e he).2 h.element⟩
  | set xs ih =>
      exact (InStep.lift (xs.sameUnless_encodeApart _ _ fun x hx => ih x hx h.element)).bind fun _ => .refl _
  | record xs ih => exact xs.inStep_encode _ h ih
  | union c ih =>
      rw [encode_union, encode_union, Encode.discriminantOf, Encode.discriminantOf, h.variants,
        c.encodePayload_eq, c.encodePayload_eq]
      exact (InStep.refl _).bind fun _ => (InStep.refl _).bind fun _ => ih h.bare

end Values

/-! ### Decoding -/

namespace Decode

variable {ctx ctx' : Context} (h : ctx.InStep excused ctx')
include h

theorem inStep_readByteRun : InStep excused (readByteRun ctx) (readByteRun ctx') :=
  (InStep.of_eq h.readCount).bind fun len => (InStep.lift (h.check len)).bind fun _ => .refl _

theorem inStep_readText : InStep excused (readText ctx) (readText ctx') :=
  (inStep_readByteRun h).bind fun _ => .refl _

theorem inStep_readUuid : InStep excused (readUuid ctx) (readUuid ctx') :=
  (InStep.lift (h.check 16)).bind fun _ => .refl _

theorem inStep_readVariant (union : String) : InStep excused (readVariant union ctx) (readVariant union ctx') := by
  rw [readVariant, readVariant, h.variants]
  exact .refl _

section Loops

variable [Declarations] {t : Ty} {item item' : Decode (Value t)} (hitem : InStep excused item item')
include hitem

theorem inStep_weighed (count : Nat) : InStep excused (weighed item count ctx) (weighed item' count ctx') := by
  refine fun input => (hitem input).bind fun r => ?_
  split
  · exact (h.check count).map _
  · exact .refl _

theorem inStep_readEach (count : Nat) : (len : Nat) →
    InStep excused (readEach item count ctx len) (readEach item' count ctx' len)
  | 0 => .refl _
  | len + 1 => by
      rw [readEach_succ, readEach_succ]
      exact (inStep_weighed h hitem count).bind fun x => (inStep_readEach count len).map _

theorem inStep_readRun (len : Nat) :
    InStep excused (readRun t item len ctx) (readRun t item' len ctx') := by
  by_cases ht : t = .byte
  · subst ht
    exact (InStep.lift (h.check len)).bind fun _ => .refl _
  · rw [readRun_of_ne ht, readRun_of_ne ht]
    exact inStep_readEach h hitem len len

omit h

theorem inStep_readKey (index : Nat) (previous : Option Bytes) :
    InStep excused (readKey item index previous) (readKey item' index previous) := by
  rw [readKey_eq, readKey_eq]
  exact InStep.bind (fun input => (hitem input).map _) fun _ => .refl _

theorem inStep_readSet : (len index : Nat) → (previous : Option Bytes) →
    InStep excused (readSet item len index previous) (readSet item' len index previous)
  | 0, _, _ => .refl _
  | len + 1, index, previous => (inStep_readKey hitem index previous).bind fun r =>
      (inStep_readSet len (index + 1) (some r.2)).map _

theorem inStep_readEntries {v : Ty} {value value' : Decode (Value v)} (hvalue : InStep excused value value') :
    (len index : Nat) → (previous : Option Bytes) →
      InStep excused (readEntries item value len index previous) (readEntries item' value' len index previous)
  | 0, _, _ => .refl _
  | len + 1, index, previous => (inStep_readKey hitem index previous).bind fun r => hvalue.bind fun _ =>
      (inStep_readEntries hvalue len (index + 1) (some r.2)).map _

end Loops

end Decode

theorem Scalar.inStep_decode {ctx ctx' : Context} (h : ctx.InStep excused ctx') (s : Scalar) :
    InStep excused (s.decode ctx) (s.decode ctx') := by
  cases s with
  | text => exact Decode.inStep_readText h
  | bytes => exact Decode.inStep_readByteRun h
  | uuid => exact Decode.inStep_readUuid h
  | _ => exact .refl _

section Types

variable [Declarations] {self : DecodeRecursive}

theorem Fields.inStep_decodeWith (k : RecordKind) : (fs : Fields) → {ctx ctx' : Context} →
    ctx.InStep excused ctx' →
      (∀ t ∈ fs.types, ∀ {ctx ctx' : Context}, ctx.InStep excused ctx' →
        InStep excused (t.decodeWith self ctx) (t.decodeWith self ctx')) →
          InStep excused (fs.decodeWith self k ctx) (fs.decodeWith self k ctx')
  | .nil, _, _, _, _ => .refl _
  | .cons _ declared t rest, ctx, ctx', h, ih => by
      obtain ⟨ht, hrest⟩ := List.forall_mem_cons.mp ih
      have hxs := rest.inStep_decodeWith k h hrest
      rw [Fields.decodeWith, Fields.decodeWith]
      split
      · exact hxs.map _
      · exact h.enter_bind declared k.container fun hc => (ht hc).bind fun x => hxs.map _

theorem Cases.inStep_decodeWith (union : String) (payload : Ty) : (cs : Cases) → {ctx ctx' : Context} →
    ctx.InStep excused ctx' →
      (∀ t ∈ cs.types, ∀ {ctx ctx' : Context}, ctx.InStep excused ctx' →
        InStep excused (t.decodeWith self ctx) (t.decodeWith self ctx')) →
          InStep excused (cs.decodeWith self union payload ctx) (cs.decodeWith self union payload ctx')
  | .nil, _, _, _, _ => .refl _
  | .cons _ t rest, _, _, h, ih => by
      obtain ⟨ht, hrest⟩ := List.forall_mem_cons.mp ih
      rw [Cases.decodeWith, Cases.decodeWith]
      split
      · exact (ht h).map _
      · exact (rest.inStep_decodeWith union payload h hrest).map _

theorem Ty.inStep_decodeWith (hself : ∀ r {ctx ctx' : Context}, ctx.InStep excused ctx' →
    InStep excused (self r ctx) (self r ctx')) (t : Ty) {ctx ctx' : Context} (h : ctx.InStep excused ctx') :
    InStep excused (t.decodeWith self ctx) (t.decodeWith self ctx') := by
  induction t generalizing ctx ctx' with
  | scalar s => exact (s.inStep_decode h).map _
  | option t ih =>
      rw [Ty.decodeWith, Ty.decodeWith, h.optional]
      split
      · refine (InStep.refl _).bind fun b => ?_
        split
        · exact (ih h.present).map _
        · exact .refl _
      · exact (ih h).map _
  | pointer p t ih => exact (ih h).map _
  | sequence k t ih | deque t ih =>
      exact (InStep.of_eq h.readCount).bind fun len => (Decode.inStep_readRun h.element (ih h.element) len).map _
  | array t n ih => exact (Decode.inStep_readRun h.element (ih h.element) n).map _
  | map l k v ihk ihv =>
      exact ((InStep.refl _).bind fun len =>
        Decode.inStep_readEntries (ihk h.element) (ihv h.element) len 0 none).map _
  | set l t ih =>
      exact ((InStep.refl _).bind fun len => (Decode.inStep_readSet (ih h.element) len 0 none).map _).map _
  | record k fs ih => exact (fs.inStep_decodeWith k h ih).map _
  | union name cs ih =>
      exact (Decode.inStep_readVariant h name).bind fun variant =>
        (cs.inStep_decodeWith name variant.payload h.bare ih).map _
  | recursive r => exact (hself r h).map _

theorem inStep_decodeNested : (n : Nat) → (r : Recursive) → {ctx ctx' : Context} → ctx.InStep excused ctx' →
    InStep excused (decodeNested n r ctx) (decodeNested n r ctx')
  | 0, _, _, _, _ => .refl _
  | n + 1, r, _, _, h => r.body.inStep_decodeWith (inStep_decodeNested n) h

theorem Ty.inStep_decode (t : Ty) {ctx ctx' : Context} (h : ctx.InStep excused ctx') :
    InStep excused (t.decode ctx) (t.decode ctx') := by
  intro input
  -- One depth serves both runs, since the bytes read bound it and these are the same.
  rw [t.decode_eq_nested ctx (Nat.lt_succ_self _), t.decode_eq_nested ctx' (Nat.lt_succ_self _)]
  exact t.inStep_decodeWith (inStep_decodeNested _) h input

theorem Codec.sameUnless_encode {c c' : Codec} (h : c.context.InStep excused c'.context) {t : Ty} (x : Value t) :
    SameUnless excused (c.encode x) (c'.encode x) := (x.inStep_encode h).bytes

theorem Codec.sameUnless_decode {c c' : Codec} (h : c.context.InStep excused c'.context) (t : Ty) (input : Bytes) :
    SameUnless excused (c.decode t input) (c'.decode t input) := (t.inStep_decode h input).bind fun _ => .refl _

end Types

end CanonicalWire
