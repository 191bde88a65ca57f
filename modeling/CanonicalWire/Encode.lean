import CanonicalWire.ScalarCodec

/-!
# Encoding

Each part of a value is written in the context that its surroundings hand down. The keys and values of maps
and the items of sets are written on their own first and then put in the order of their bytes, so that the
order in which they are listed does not show.
-/

namespace CanonicalWire

/-- Entries, each the bytes of its key and of its value, in ascending order of the keys' bytes. Entries
with equal keys stay in the order given. -/
def sortByKey (es : List (Bytes × Bytes)) : List (Bytes × Bytes) :=
  es.mergeSort fun a b => !decide (b.1 < a.1)

/-- Byte strings in ascending order. -/
def sortBytes (xs : List Bytes) : List Bytes := xs.mergeSort fun a b => !decide (b < a)

variable [Definitions]

namespace Encode

/-- Items that follow their number. A run of items of type `u8` is held to the ceiling and written at once;
other items are written one by one. -/
def writeRun {t : Ty} {n : Nat} (xs : Items t n) (oneByOne : Encode) (ctx : Context) : Encode :=
  if t = .byte then do
    checkLength n ctx
    put xs.bytes
  else oneByOne

/-- An empty option where something has to be. -/
def absentError (t : Ty) (ctx : Context) : CodecError :=
  if ctx.variants.isSome then .enumNotDefined t.name else .unsupportedShape (.absent t.name)

/-- The number of entries, and the entries in order. -/
def writeEntries (es : List (Bytes × Bytes)) : Encode := do
  writeLen es.length
  put ((sortByKey es).flatMap fun e => e.1 ++ e.2)

/-- The number of items, and the items in order. -/
def writeSet (xs : List Bytes) : Encode := do
  writeLen xs.length
  put (sortBytes xs).flatten

/-- The discriminant of a union's payload in the active group. -/
def discriminantOf (union : String) (payload : Ty) (ctx : Context) : Except CodecError Int32 :=
  match ctx.variants with
  | none => .error (.enumNotDefined union)
  | some m =>
      match m.discriminantOf payload with
      | none => .error (.unregisteredVariant payload.name m.group)
      | some d => .ok d

end Encode

namespace Declaration

/-- The directives of a field, when the field is reached. -/
def reach (declared : Declaration) : Except CodecError Directives := declared.get.mapError .directive

/-- The context of a field, when the field is reached. -/
def enter (declared : Declaration) (container : Option String) (ctx : Context) : Except CodecError Context := do
  let d ← declared.reach
  (ctx.field container d).mapError .registry

end Declaration

mutual
/-- Writes a value. -/
def Value.encode : {t : Ty} → Value t → Context → Encode
  | .scalar s, .scalar x, ctx => s.encode x ctx
  | .option t, .absent, ctx =>
      if ctx.optional then Encode.writeBool false else throw (Encode.absentError t ctx)
  | .option _, .present x, ctx =>
      if ctx.optional then do
        Encode.writeBool true
        x.encode ctx.present
      else x.encode ctx
  | .pointer _ _, .pointer x, ctx => x.encode ctx
  | .sequence _ _, .sequence (n := n) xs, ctx => do
      Encode.writeCount n ctx
      Encode.writeRun xs (xs.encodeEach ctx.element) ctx.element
  | .deque _, .deque (m := m) (n := n) front back, ctx => do
      Encode.writeCount (m + n) ctx
      Encode.writeRun front (front.encodeEach ctx.element) ctx.element
      Encode.writeRun back (back.encodeEach ctx.element) ctx.element
  | .array _ _, .array xs, ctx => Encode.writeRun xs (xs.encodeEach ctx.element) ctx.element
  | .map _ _ _, .map es, ctx => do
      let encoded ← es.encodeApart ctx.element
      Encode.writeEntries encoded
  | .set _ _, .set xs, ctx => do
      let encoded ← xs.encodeApart ctx.element
      Encode.writeSet encoded
  | .record k _, .record xs, ctx => xs.encode k.container ctx
  | .union name _, .union c, ctx => do
      let d ← Encode.discriminantOf name c.payload ctx
      Encode.writeDiscriminant d
      c.encodePayload ctx.bare
  | .recursive _, .recursive x, ctx => x.encode ctx
/-- Writes items one after the other. -/
def Items.encodeEach : {t : Ty} → {n : Nat} → Items t n → Context → Encode
  | _, _, .nil, _ => pure ()
  | _, _, .cons x xs, ctx => do
      x.encode ctx
      xs.encodeEach ctx
/-- The bytes of each item on its own. -/
def Items.encodeApart : {t : Ty} → {n : Nat} → Items t n → Context → Except CodecError (List Bytes)
  | _, _, .nil, _ => .ok []
  | _, _, .cons x xs, ctx => do
      let bs ← (x.encode ctx).bytes
      let rest ← xs.encodeApart ctx
      return bs :: rest
/-- The bytes of each key and of its value, on their own. -/
def Entries.encodeApart : {k v : Ty} → Entries k v → Context → Except CodecError (List (Bytes × Bytes))
  | _, _, .nil, _ => .ok []
  | _, _, .cons key value rest, ctx => do
      let keyBytes ← (key.encode ctx).bytes
      let valueBytes ← (value.encode ctx).bytes
      let rest ← rest.encodeApart ctx
      return (keyBytes, valueBytes) :: rest
/-- Writes the fields of a record that are not skipped, each in its own context. -/
def Record.encode : {fs : Fields} → Record fs → Option String → Context → Encode
  | .nil, .nil, _, _ => pure ()
  | .cons _ declared _ _, .cons x xs, container, ctx =>
      if declared.skips then xs.encode container ctx
      else do
        let fieldCtx ← declared.enter container ctx
        x.encode fieldCtx
        xs.encode container ctx
  | .cons _ declared _ _, .omitted _ xs, container, ctx => do
      let _ ← declared.reach
      xs.encode container ctx
/-- Writes the payload of a case. -/
def Choice.encodePayload : {cs : Cases} → Choice cs → Context → Encode
  | .cons _ _ _, .here x, ctx => x.encode ctx
  | .cons _ _ _, .there c, ctx => c.encodePayload ctx
end

namespace Value

variable (ctx : Context)

theorem encode_absent {t : Ty} : (absent : Value (.option t)).encode ctx =
    if ctx.optional then Encode.writeBool false else throw (Encode.absentError t ctx) := rfl

theorem encode_present {t : Ty} (x : Value t) : (present x).encode ctx =
    if ctx.optional then do
      Encode.writeBool true
      x.encode ctx.present
    else x.encode ctx := rfl

theorem encode_sequence {k : SequenceKind} {t : Ty} {n : Nat} (xs : Items t n) :
    (sequence xs : Value (.sequence k t)).encode ctx = (do
      Encode.writeCount n ctx
      Encode.writeRun xs (xs.encodeEach ctx.element) ctx.element) := rfl

theorem encode_deque {t : Ty} {m n : Nat} (front : Items t m) (back : Items t n) : (deque front back).encode ctx = (do
    Encode.writeCount (m + n) ctx
    Encode.writeRun front (front.encodeEach ctx.element) ctx.element
    Encode.writeRun back (back.encodeEach ctx.element) ctx.element) := rfl

theorem encode_map {l : Listing} {k v : Ty} (es : Entries k v) : (map es : Value (.map l k v)).encode ctx = (do
    let encoded ← es.encodeApart ctx.element
    Encode.writeEntries encoded) := rfl

theorem encode_set {l : Listing} {t : Ty} {n : Nat} (xs : Items t n) : (set xs : Value (.set l t)).encode ctx = (do
    let encoded ← xs.encodeApart ctx.element
    Encode.writeSet encoded) := rfl

theorem encode_union {name : String} {cs : Cases} (c : Choice cs) :
    (union c : Value (.union name cs)).encode ctx = (do
      let d ← Encode.discriminantOf name c.payload ctx
      Encode.writeDiscriminant d
      c.encodePayload ctx.bare) := rfl

end Value
end CanonicalWire
