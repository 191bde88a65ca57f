import CanonicalWire.Encode

/-!
# Decoding

The counterpart of encoding, for bytes that nobody vouches for. Counts are not trusted: a run of bytes is
held to the ceiling before it is read, and so is the count of items that take no bytes. The keys of maps
and the items of sets have to stand in strictly ascending order of their bytes.

Decoding goes by the type; types that are referred to by name are decoded by a function handed down, which is
tied to decoding itself at the end. It is called only when bytes have been read since the last call, so the
bytes that remain bound how deep decoding goes.
-/

namespace CanonicalWire

section

variable [Definitions]

namespace Decode

/-- Reads `len` items one by one. An item that takes no bytes holds their number `count` to the ceiling. -/
def readEach {t : Ty} (item : Decode (Value t)) (count : Nat) (ctx : Context) : (len : Nat) → Decode (Items t len)
  | 0 => pure .nil
  | len + 1 => do
      let before ← get
      let x ← item
      let after ← get
      if after.length = before.length then checkLength count ctx
      let xs ← readEach item count ctx len
      return .cons x xs

/-- Reads a run of bytes as items of type `u8`. -/
def readBlock (len : Nat) (ctx : Context) : Decode (Items .byte len) := do
  checkLength len ctx
  let block ← take len
  return .ofBlock block

/-- Reads the items that follow their number: all at once if they are of type `u8`, else one by one. -/
def readRun : (t : Ty) → Decode (Value t) → (len : Nat) → Context → Decode (Items t len)
  | .scalar (.int .u8), _, len, ctx => readBlock len ctx
  | _, item, len, ctx => readEach item len ctx len

/-- Reads a key, with its bytes, which have to come after those of the key before it. -/
def readKey {t : Ty} (key : Decode (Value t)) (index : Nat) (previous : Option Bytes) :
    Decode (Value t × Bytes) := do
  let before ← get
  let x ← key
  let after ← get
  let bs := before.take (before.length - after.length)
  match previous with
  | none => return (x, bs)
  | some earlier => if earlier < bs then return (x, bs) else throw (.nonCanonicalMap index)

/-- Reads the entries of a map from the given index on. -/
def readEntries {k v : Ty} (key : Decode (Value k)) (value : Decode (Value v)) :
    (len index : Nat) → Option Bytes → Decode (Entries k v)
  | 0, _, _ => pure .nil
  | len + 1, index, previous => do
      let (x, bs) ← readKey key index previous
      let y ← value
      let rest ← readEntries key value len (index + 1) (some bs)
      return .cons x y rest

/-- Reads the items of a set from the given index on. -/
def readSet {t : Ty} (item : Decode (Value t)) : (len index : Nat) → Option Bytes → Decode (Items t len)
  | 0, _, _ => pure .nil
  | len + 1, index, previous => do
      let (x, bs) ← readKey item index previous
      let rest ← readSet item len (index + 1) (some bs)
      return .cons x rest

/-- Reads the number of a map's entries, and the entries. -/
def readMap {k v : Ty} (key : Decode (Value k)) (value : Decode (Value v)) : Decode (Entries k v) := do
  let len ← readLen
  readEntries key value len 0 none

/-- Reads the number of a set's items, and the items. -/
def readItems {t : Ty} (item : Decode (Value t)) : Decode (List (Value t)) := do
  let len ← readLen
  let xs ← readSet item len 0 none
  return xs.toList

/-- The registered variant that the next discriminant stands for. -/
def readVariant (union : String) (ctx : Context) : Decode Variant :=
  match ctx.variants with
  | none => throw (.enumNotDefined union)
  | some m => do
      let d ← readDiscriminant
      match m.variant d with
      | none => throw (.unknownEnumVariant d m.group)
      | some v => return v

end Decode

end

variable [Declarations]

namespace Entries

variable {k v : Ty}

/-- Puts decoded entries into a map one by one. -/
def list (es : Entries k v) : Listing → Entries k v
  | .asWritten _ => collect es.toList
  | .byKey => collectByKey es.toList

end Entries

namespace Items

/-- Puts decoded items into a set one by one. -/
def list {t : Ty} (xs : List (Value t)) : Listing → List (Value t)
  | .asWritten _ => collect xs
  | .byKey => collectByKey xs

end Items

/-- The set that decoded items make. -/
def Value.setOf {t : Ty} (xs : List (Value t)) (l : Listing) : Value (.set l t) := .set (.ofList (Items.list xs l))

namespace RecordKind

/-- What a skipped field holds after decoding: the default of its type in a declared record, else nothing. -/
def restore (k : RecordKind) {name : String} {d : Declaration} {t : Ty} {fs : Fields}
    (skipped : d.skips = true) (xs : Record fs) : Record (.cons name d t fs) :=
  match k, t.default? with
  | .declared _ _, some x => .cons x xs
  | _, _ => .omitted (Declaration.holds_eq_false_of_skips skipped) xs

end RecordKind

/-- How types that are referred to by name are decoded. -/
abbrev DecodeRecursive : Type := (r : Recursive) → Context → Decode (Value r.body)

mutual
/-- Reads a value of the given type. -/
def Ty.decodeWith (self : DecodeRecursive) : (t : Ty) → Context → Decode (Value t)
  | .scalar s, ctx => do
      let x ← s.decode ctx
      return .scalar x
  | .option t, ctx =>
      if ctx.optional then do
        let b ← Decode.readBool
        if b then
          let x ← t.decodeWith self ctx.present
          return .present x
        else return .absent
      else do
        let x ← t.decodeWith self ctx
        return .present x
  | .pointer _ t, ctx => do
      let x ← t.decodeWith self ctx
      return .pointer x
  | .sequence _ t, ctx => do
      let len ← Decode.readCount ctx
      let xs ← Decode.readRun t (t.decodeWith self ctx.element) len ctx.element
      return .sequence xs
  | .deque t, ctx => do
      let len ← Decode.readCount ctx
      let xs ← Decode.readRun t (t.decodeWith self ctx.element) len ctx.element
      return .deque xs .nil
  | .array t n, ctx => do
      let xs ← Decode.readRun t (t.decodeWith self ctx.element) n ctx.element
      return .array xs
  | .map l k v, ctx => do
      let es ← Decode.readMap (k.decodeWith self ctx.element) (v.decodeWith self ctx.element)
      return .map (es.list l)
  | .set l t, ctx => do
      let xs ← Decode.readItems (t.decodeWith self ctx.element)
      return .setOf xs l
  | .record k fs, ctx => do
      let xs ← fs.decodeWith self k ctx
      return .record xs
  | .union name cs, ctx => do
      let variant ← Decode.readVariant name ctx
      let c ← cs.decodeWith self name variant.payload ctx.bare
      return .union c
  | .recursive r, ctx => do
      let x ← self r ctx
      return .recursive x
/-- Reads the fields of a record that are not skipped, each in its own context. -/
def Fields.decodeWith (self : DecodeRecursive) (k : RecordKind) : (fs : Fields) → Context → Decode (Record fs)
  | .nil, _ => pure .nil
  | .cons _ declared t rest, ctx =>
      if skipped : declared.skips = true then do
        let xs ← rest.decodeWith self k ctx
        return k.restore skipped xs
      else do
        let fieldCtx ← declared.enter k.container ctx
        let x ← t.decodeWith self fieldCtx
        let xs ← rest.decodeWith self k ctx
        return .cons x xs
/-- Reads the payload of the first case whose payload type is the registered one. -/
def Cases.decodeWith (self : DecodeRecursive) (union : String) (payload : Ty) :
    (cs : Cases) → Context → Decode (Choice cs)
  | .nil, _ => throw (.unsupportedShape (.notAPayload payload.name union))
  | .cons _ t rest, ctx =>
      if t = payload then do
        let x ← t.decodeWith self ctx
        return .here x
      else do
        let c ← rest.decodeWith self union payload ctx
        return .there c
end

/-- Reads a value of the given type, where names are followed only if fewer than `bound` bytes remain. -/
def Ty.decodeBelow (bound : Nat) (t : Ty) (ctx : Context) : Decode (Value t) :=
  t.decodeWith (fun r ctx input =>
    if input.length < bound then r.body.decodeBelow input.length ctx input
    else .error (.unsupportedShape (.endless r.name))) ctx
termination_by bound

/-- Reads a value of the given type. -/
def Ty.decode (t : Ty) (ctx : Context) : Decode (Value t) := fun input =>
  t.decodeBelow (input.length + 1) ctx input

end CanonicalWire
