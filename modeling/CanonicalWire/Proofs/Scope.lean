import CanonicalWire.Proofs.InStep

/-!
How far directives reach. A directive is looked at by the types that it is meant for, behind pointers, options and
the items of sequences, maps and sets; it does not enter records, tuples and the payloads of unions. So contexts that
differ in other directives only are exchangeable, and a union's payload is written the same wherever the union is.
-/

namespace CanonicalWire

def Definition.isUnion : Definition → Bool
  | .union _ => true
  | .record _ _ _ => false

namespace Ty

/-- The type behind all pointers. -/
def behindPointers : Ty → Ty
  | .pointer _ t => t.behindPointers
  | t => t

/-- The type behind all pointers and options. -/
def behindOptions : Ty → Ty
  | .pointer _ t => t.behindOptions
  | .option t => t.behindOptions
  | t => t

/-- The types that are reached in a type without entering a record, a tuple or a union's payload, the type itself
included. -/
def exposed : Ty → List Ty
  | .option t => .option t :: t.exposed
  | .pointer p t => .pointer p t :: t.exposed
  | .sequence k t => .sequence k t :: t.exposed
  | .deque t => .deque t :: t.exposed
  | .array t n => .array t n :: t.exposed
  | .map l k v => .map l k v :: (k.exposed ++ v.exposed)
  | .set l t => .set l t :: t.exposed
  | t => [t]

def isOption : Ty → Bool
  | .option _ => true
  | _ => false

/-- Texts, byte strings and sequences, whose length a directive can fix. -/
def hasLength : Ty → Bool
  | .scalar (.text _) => true
  | .scalar .bytes => true
  | .sequence _ _ => true
  | .deque _ => true
  | _ => false

variable [Definitions]

/-- The unions, also those that are referred to by name. -/
def isUnion : Ty → Bool
  | .union _ _ => true
  | .recursive r => (Definitions.definition r.name).isUnion
  | _ => false

/-- A union or an option is exposed, so that the enum group matters. -/
def needsGroup (t : Ty) : Bool := t.exposed.any fun u => u.isOption || u.isUnion

theorem needsGroup_key {l : Listing} {k v : Ty} (h : k.needsGroup) : (map l k v).needsGroup := by
  rw [needsGroup, exposed, List.any_cons, List.any_append, ← needsGroup, h]
  rfl

theorem needsGroup_value {l : Listing} {k v : Ty} (h : v.needsGroup) : (map l k v).needsGroup := by
  rw [needsGroup, exposed, List.any_cons, List.any_append, ← needsGroup, ← needsGroup, h, Bool.or_true, Bool.or_true]

end Ty

theorem Context.bare_eq_iff {ctx ctx' : Context} :
    ctx'.bare = ctx.bare ↔ ctx'.registry = ctx.registry ∧ ctx'.limits = ctx.limits := by
  simp [bare]

section Contexts

variable [Definitions]

/-- What stands behind a name is a record or a union. -/
theorem Recursive.body_eq (r : Recursive) :
    (∃ shape fs guarded, Definitions.definition r.name = .record shape fs guarded ∧
      r.body = .record (.declared r.name shape) fs) ∨
      ∃ cs, Definitions.definition r.name = .union cs ∧ r.body = .union r.name cs := by
  rw [body]
  split
  · next hguarded hdefinition => exact .inl ⟨_, _, hguarded, hdefinition, rfl⟩
  · next cs hdefinition => exact .inr ⟨cs, hdefinition, rfl⟩

namespace Context

/-- The registry and the limits are the same, and so is each directive that values of the type look at. -/
structure SameFor (t : Ty) (ctx ctx' : Context) : Prop where
  registry : ctx'.registry = ctx.registry
  limits : ctx'.limits = ctx.limits
  optional : t.behindPointers.isOption → ctx'.optional = ctx.optional
  fixedLen : t.behindOptions.hasLength → ctx'.fixedLen = ctx.fixedLen
  variants : t.needsGroup → ctx'.variants = ctx.variants

namespace SameFor

variable {ctx ctx' : Context} {t u : Ty}

theorem bare (h : ctx.SameFor t ctx') : ctx'.bare = ctx.bare := bare_eq_iff.mpr ⟨h.registry, h.limits⟩

theorem pointer {p : Indirection} (h : ctx.SameFor (.pointer p t) ctx') : ctx.SameFor t ctx' :=
  ⟨h.registry, h.limits, h.optional, h.fixedLen, h.variants⟩

theorem option (h : ctx.SameFor (.option t) ctx') : ctx.SameFor t ctx' :=
  ⟨h.registry, h.limits, fun _ => h.optional rfl, h.fixedLen, fun _ => h.variants rfl⟩

theorem present (h : ctx.SameFor (.option t) ctx') : ctx.present.SameFor t ctx'.present :=
  ⟨h.registry, h.limits, fun _ => rfl, h.fixedLen, fun _ => h.variants rfl⟩

/-- Of the directives, only the enum group is handed on to items, keys and values. -/
theorem element (h : ctx.SameFor u ctx') (hgroup : t.needsGroup → u.needsGroup) :
    ctx.element.SameFor t ctx'.element :=
  ⟨h.registry, h.limits, fun _ => rfl, fun _ => rfl, fun ht => h.variants (hgroup ht)⟩

theorem body {r : Recursive} (h : ctx.SameFor (.recursive r) ctx') : ctx.SameFor r.body ctx' := by
  obtain ⟨_, _, _, -, hbody⟩ | ⟨cs, hdefinition, hbody⟩ := r.body_eq
  · rw [hbody]
    exact ⟨h.registry, h.limits, nofun, nofun, nofun⟩
  · rw [hbody]
    refine ⟨h.registry, h.limits, nofun, nofun, fun _ => h.variants ?_⟩
    simp [Ty.needsGroup, Ty.exposed, Ty.isUnion, hdefinition, Definition.isUnion]

end SameFor
end Context
end Contexts

/-! ### Parts that no directive enters -/

section Ground

variable {ctx ctx' : Context} (hbare : ctx'.bare = ctx.bare)
include hbare

theorem checkLength_congr (len : Nat) : checkLength len ctx' = checkLength len ctx := by
  have hlimits : ctx'.limits = ctx.limits := (Context.bare_eq_iff.mp hbare).2
  rw [checkLength, checkLength, hlimits]

/-- A field's context depends on the field's own directives only. -/
theorem Declaration.enter_congr (declared : Declaration) (container : Option String) :
    declared.enter container ctx' = declared.enter container ctx := by
  have henter (c : Context) : declared.enter container c = declared.enter container c.bare := rfl
  rw [henter, hbare, ← henter]

variable [Declarations]

theorem Record.encode_congr : {fs : Fields} → (xs : Record fs) → (container : Option String) →
    xs.encode container ctx' = xs.encode container ctx
  | .nil, .nil, _ => rfl
  | .cons _ declared _ _, .cons x xs, container => by
      rw [Record.encode, Record.encode, declared.enter_congr hbare, xs.encode_congr]
  | .cons .., .omitted _ xs, container => by
      rw [Record.encode, Record.encode, xs.encode_congr]

theorem Fields.decodeWith_congr (self : DecodeRecursive) (k : RecordKind) : (fs : Fields) →
    fs.decodeWith self k ctx' = fs.decodeWith self k ctx
  | .nil => rfl
  | .cons _ declared t rest => by
      rw [Fields.decodeWith, Fields.decodeWith, declared.enter_congr hbare, rest.decodeWith_congr]

end Ground

/-! ### Encoding -/

section Encoding

variable {ctx ctx' : Context}

theorem Encode.writeCount_congr (h : ctx'.fixedLen = ctx.fixedLen) (len : Nat) :
    writeCount len ctx' = writeCount len ctx := by
  rw [writeCount, writeCount, h]

variable [Declarations]

theorem Scalar.encode_congr {s : Scalar} (h : ctx.SameFor (.scalar s) ctx') (x : s.Carrier) :
    s.encode x ctx' = s.encode x ctx := by
  cases s with
  | text | bytes =>
      simp only [Scalar.encode, Encode.writeByteRun]
      rw [checkLength_congr h.bare, Encode.writeCount_congr (h.fixedLen rfl)]
  | uuid =>
      simp only [Scalar.encode, Encode.writeUuid]
      rw [checkLength_congr h.bare]
  | _ => rfl

theorem Items.writeRun_congr {t : Ty} {n : Nat} (xs : Items t n)
    (h : ∀ x ∈ xs.toList, x.encode ctx' = x.encode ctx) (hbare : ctx'.bare = ctx.bare) :
    Encode.writeRun xs (xs.encodeEach ctx') ctx' = Encode.writeRun xs (xs.encodeEach ctx) ctx := by
  have hitems : InStep (fun _ => False) (xs.encodeEach ctx') (xs.encodeEach ctx) :=
    xs.inStep_encodeEach ctx' ctx fun x hx => .of_eq (h x hx)
  rw [Encode.writeRun, Encode.writeRun, hitems.eq_of_none fun _ => id, checkLength_congr hbare]

theorem Items.encodeApart_congr {t : Ty} {n : Nat} (xs : Items t n)
    (h : ∀ x ∈ xs.toList, x.encode ctx' = x.encode ctx) : xs.encodeApart ctx' = xs.encodeApart ctx := by
  have hitems : SameUnless (fun _ => False) (xs.encodeApart ctx') (xs.encodeApart ctx) :=
    xs.sameUnless_encodeApart ctx' ctx fun x hx => .of_eq (h x hx)
  exact hitems.eq_of_none fun _ => id

theorem Entries.encodeApart_congr {k v : Ty} (es : Entries k v)
    (h : ∀ e ∈ es.toList, e.1.encode ctx' = e.1.encode ctx ∧ e.2.encode ctx' = e.2.encode ctx) :
    es.encodeApart ctx' = es.encodeApart ctx := by
  have hentries : SameUnless (fun _ => False) (es.encodeApart ctx') (es.encodeApart ctx) :=
    es.sameUnless_encodeApart ctx' ctx fun e he => ⟨.of_eq (h e he).1, .of_eq (h e he).2⟩
  exact hentries.eq_of_none fun _ => id

theorem Value.encode_congr {t : Ty} (x : Value t) {ctx ctx' : Context} (h : ctx.SameFor t ctx') :
    x.encode ctx' = x.encode ctx := by
  induction x generalizing ctx ctx' with
  | scalar x => exact Scalar.encode_congr h x
  | absent =>
      rw [encode_absent, encode_absent, Encode.absentError, Encode.absentError, h.optional rfl, h.variants rfl]
  | present x ih => rw [encode_present, encode_present, h.optional rfl, ih h.option, ih h.present]
  | pointer x ih => exact ih h.pointer
  | sequence xs ih =>
      have hitems : ∀ x ∈ xs.toList, x.encode ctx'.element = x.encode ctx.element :=
        fun x hx => ih x hx (h.element id)
      rw [encode_sequence, encode_sequence, Encode.writeCount_congr (h.fixedLen rfl), xs.writeRun_congr hitems h.bare]
  | deque front back ihfront ihback =>
      have hfront : ∀ x ∈ front.toList, x.encode ctx'.element = x.encode ctx.element :=
        fun x hx => ihfront x hx (h.element id)
      have hback : ∀ x ∈ back.toList, x.encode ctx'.element = x.encode ctx.element :=
        fun x hx => ihback x hx (h.element id)
      rw [encode_deque, encode_deque, Encode.writeCount_congr (h.fixedLen rfl), front.writeRun_congr hfront h.bare,
        back.writeRun_congr hback h.bare]
  | array xs ih => exact xs.writeRun_congr (fun x hx => ih x hx (h.element id)) h.bare
  | map es ih =>
      have hentries : ∀ e ∈ es.toList, e.1.encode ctx'.element = e.1.encode ctx.element ∧
          e.2.encode ctx'.element = e.2.encode ctx.element := by
        intro e he
        obtain ⟨ihkey, ihvalue⟩ := ih e he
        exact ⟨ihkey (h.element Ty.needsGroup_key), ihvalue (h.element Ty.needsGroup_value)⟩
      rw [encode_map, encode_map, es.encodeApart_congr hentries]
  | set xs ih =>
      rw [encode_set, encode_set, xs.encodeApart_congr fun x hx => ih x hx (h.element id)]
  | record xs ih => exact xs.encode_congr h.bare _
  | union c ih =>
      rw [encode_union, encode_union, Encode.discriminantOf, Encode.discriminantOf, h.variants rfl, h.bare]
  | recursive x ih => exact ih h.body

end Encoding

/-! ### Decoding -/

section Decoding

variable {ctx ctx' : Context}

theorem Decode.readCount_congr (h : ctx'.fixedLen = ctx.fixedLen) : readCount ctx' = readCount ctx := by
  rw [readCount, readCount, h]

theorem Decode.readByteRun_congr (hbare : ctx'.bare = ctx.bare) (h : ctx'.fixedLen = ctx.fixedLen) :
    readByteRun ctx' = readByteRun ctx := by
  rw [readByteRun, readByteRun, readCount_congr h]
  apply bind_congr
  intro len
  rw [checkLength_congr hbare]

theorem Decode.readVariant_congr (h : ctx'.variants = ctx.variants) (union : String) :
    readVariant union ctx' = readVariant union ctx := by
  rw [readVariant, readVariant, h]

variable [Declarations]

theorem Scalar.decode_congr {s : Scalar} (h : ctx.SameFor (.scalar s) ctx') : s.decode ctx' = s.decode ctx := by
  cases s with
  | text =>
      rw [Scalar.decode, Scalar.decode, Decode.readText, Decode.readText,
        Decode.readByteRun_congr h.bare (h.fixedLen rfl)]
  | bytes => exact Decode.readByteRun_congr h.bare (h.fixedLen rfl)
  | uuid => rw [Scalar.decode, Scalar.decode, Decode.readUuid, Decode.readUuid, checkLength_congr h.bare]
  | _ => rfl

theorem Decode.readEach_congr {t : Ty} (hbare : ctx'.bare = ctx.bare) (item : Decode (Value t)) (count : Nat) :
    (len : Nat) → readEach item count ctx' len = readEach item count ctx len
  | 0 => rfl
  | len + 1 => by
      rw [readEach, readEach, readEach_congr hbare item count len, checkLength_congr hbare]

theorem Decode.readRun_congr (t : Ty) (hbare : ctx'.bare = ctx.bare) (item : Decode (Value t)) (len : Nat) :
    readRun t item len ctx' = readRun t item len ctx := by
  by_cases ht : t = .byte
  · subst ht
    rw [readRun, readRun, readBlock, readBlock, checkLength_congr hbare]
  · rw [readRun_of_ne ht, readRun_of_ne ht, readEach_congr hbare]

theorem Recursive.decodeBody_congr (r : Recursive) (h : ctx.SameFor (.recursive r) ctx') :
    decodeBody r ctx' = decodeBody r ctx := by
  have hbody := h.body
  rw [decodeBody, decodeBody, Ty.decode_eq, Ty.decode_eq]
  obtain ⟨_, _, _, -, heq⟩ | ⟨cs, -, heq⟩ := r.body_eq
  · generalize r.body = t at heq hbody ⊢
    subst heq
    rw [Ty.decodeWith, Ty.decodeWith, Fields.decodeWith_congr hbody.bare]
  · generalize r.body = t at heq hbody ⊢
    subst heq
    rw [Ty.decodeWith, Ty.decodeWith, Decode.readVariant_congr (hbody.variants rfl), hbody.bare]

theorem Ty.decode_congr (t : Ty) {ctx ctx' : Context} (h : ctx.SameFor t ctx') : t.decode ctx' = t.decode ctx := by
  have hitem {c c' : Context} (hbare : c'.bare = c.bare) : c'.element.bare = c.element.bare := hbare
  rw [decode_eq, decode_eq]
  induction t generalizing ctx ctx' with
  | scalar s => rw [decodeWith, decodeWith, Scalar.decode_congr h]
  | option t ih => rw [decodeWith, decodeWith, h.optional rfl, ih h.option, ih h.present]
  | pointer p t ih => rw [decodeWith, decodeWith, ih h.pointer]
  | sequence k t ih | deque t ih =>
      rw [decodeWith, decodeWith, Decode.readCount_congr (h.fixedLen rfl), ih (h.element id)]
      apply bind_congr
      intro len
      rw [Decode.readRun_congr t (hitem h.bare)]
  | array t n ih => rw [decodeWith, decodeWith, ih (h.element id), Decode.readRun_congr t (hitem h.bare)]
  | map l k v ihk ihv =>
      rw [decodeWith, decodeWith, ihk (h.element needsGroup_key), ihv (h.element needsGroup_value)]
  | set l t ih => rw [decodeWith, decodeWith, ih (h.element id)]
  | record k fs => rw [decodeWith, decodeWith, fs.decodeWith_congr h.bare]
  | union name cs => rw [decodeWith, decodeWith, Decode.readVariant_congr (h.variants rfl), h.bare]
  | recursive r => rw [decodeWith, decodeWith, r.decodeBody_congr h]

/-! ### Unions -/

/-- A union's value is a payload that is written after a discriminant, in a context without directives. -/
theorem Value.exists_payload {t : Ty} (ht : t.isUnion) (x : Value t) :
    ∃ (u : Ty) (payload : Value u), ∀ ctx b, x.wire ctx = .ok b →
      ∃ d v, d.length = prefixWidth ∧ payload.wire ctx.bare = .ok v ∧ b = d ++ v := by
  have hunion {name : String} {cs : Cases} (c : Choice cs) (ctx : Context) (b : Bytes)
      (h : (union c : Value (.union name cs)).wire ctx = .ok b) :
      ∃ d v, d.length = prefixWidth ∧ c.value.wire ctx.bare = .ok v ∧ b = d ++ v := by
    obtain ⟨d, v, -, hv, rfl⟩ := wire_union.mp h
    exact ⟨_, v, length_digitsLE _ _, hv, rfl⟩
  match t, x with
  | .union _ _, .union c => exact ⟨c.payload, c.value, hunion c⟩
  | .recursive r, .recursive x =>
      obtain ⟨_, _, _, hdefinition, -⟩ | ⟨cs, -, heq⟩ := r.body_eq
      · rw [Ty.isUnion, hdefinition] at ht
        cases ht
      · suffices h : ∃ (u : Ty) (payload : Value u), ∀ ctx b, x.wire ctx = .ok b →
            ∃ d v, d.length = prefixWidth ∧ payload.wire ctx.bare = .ok v ∧ b = d ++ v from h
        generalize r.body = t at heq x
        subst heq
        cases x with
        | union c => exact ⟨c.payload, c.value, hunion c⟩

/-- Under one registry and one ceiling, contexts are exchangeable for a type that looks at none of the directives in
which they differ, and of the bytes of a union's value only the discriminant depends on the directives. -/
theorem Context.exchangeable (t : Ty) {ctx ctx' : Context} (hregistry : ctx'.registry = ctx.registry)
    (hlimits : ctx'.limits = ctx.limits) :
    ((t.behindPointers.isOption → ctx'.optional = ctx.optional) →
      (t.behindOptions.hasLength → ctx'.fixedLen = ctx.fixedLen) →
      (t.needsGroup → ctx'.variants = ctx.variants) →
        (∀ x : Value t, x.encode ctx' = x.encode ctx) ∧ t.decode ctx' = t.decode ctx) ∧
    (t.isUnion → ∀ (x : Value t) (b b' : Bytes), (x.encode ctx).bytes = .ok b → (x.encode ctx').bytes = .ok b' →
      ∃ d d' payload, d.length = 4 ∧ d'.length = 4 ∧ b = d ++ payload ∧ b' = d' ++ payload) := by
  constructor
  · intro hoptional hlength hgroup
    have hsame : ctx.SameFor t ctx' := ⟨hregistry, hlimits, hoptional, hlength, hgroup⟩
    exact ⟨fun x => x.encode_congr hsame, t.decode_congr hsame⟩
  · intro ht x b b' hb hb'
    obtain ⟨u, payload, hpayload⟩ := x.exists_payload ht
    obtain ⟨d, v, hd, hv, rfl⟩ := hpayload ctx b hb
    obtain ⟨d', v', hd', hv', rfl⟩ := hpayload ctx' b' hb'
    have hbare : ctx'.bare = ctx.bare := bare_eq_iff.mpr ⟨hregistry, hlimits⟩
    rw [hbare, hv] at hv'
    obtain rfl : v = v' := Except.ok.inj hv'
    exact ⟨d, d', v, hd, hd', rfl, rfl⟩

end Decoding

section Signals

def signal : Ty := .union "Signal" (.cons "Ping" .u8 .nil)

/-- Lists of words by number. Neither a union nor an option is in it, and its own length cannot be fixed. -/
def table : Ty := .boxed (.map .byKey .u8 (.vector .u16))

/-- A context with all three directives, where the signal has the given discriminant. -/
def directed (d : Int32) : Context where
  registry := .empty
  optional := true
  fixedLen := some 7
  variants := some ((VariantMap.empty "Signal").add ⟨"Signal", d, .u8⟩ rfl rfl)

def ping (b : UInt8) : Value signal := .union (.here (.ofByte b))

/-- The table is read alike with and without directives, and of the signal only the discriminant differs. -/
theorem Context.exchangeable_table :
    table.decode (directed 3) [1, 0, 0, 0, 9, 1, 0, 0, 0, 2, 0] =
      table.decode (.start .empty) [1, 0, 0, 0, 9, 1, 0, 0, 0, 2, 0] ∧
    (∃ r, table.decode (.start .empty) [1, 0, 0, 0, 9, 1, 0, 0, 0, 2, 0] = .ok r) ∧
    ∃ b b', ((ping 5).encode (directed 3)).bytes = .ok b ∧ ((ping 5).encode (directed 8)).bytes = .ok b' ∧ b ≠ b' ∧
      ∃ d d' payload, d.length = 4 ∧ d'.length = 4 ∧ b = d ++ payload ∧ b' = d' ++ payload := by
  have hregistry : (directed 3).registry = (start .empty).registry := rfl
  have hlimits : (directed 3).limits = (start .empty).limits := rfl
  obtain ⟨-, hdecode⟩ := (exchangeable table hregistry hlimits).1 (by decide) (by decide) (by decide)
  have hfirst : ((ping 5).encode (directed 3)).bytes = .ok [3, 0, 0, 0, 5] := by cbv
  have hsecond : ((ping 5).encode (directed 8)).bytes = .ok [8, 0, 0, 0, 5] := by cbv
  refine ⟨congrFun hdecode _, ⟨_, by cbv⟩, _, _, hfirst, hsecond, by decide, ?_⟩
  have hgroups : (directed 8).registry = (directed 3).registry ∧ (directed 8).limits = (directed 3).limits := ⟨rfl, rfl⟩
  exact (exchangeable signal hgroups.1 hgroups.2).2 rfl (ping 5) _ _ hfirst hsecond

end Signals

end CanonicalWire
