import CanonicalWire.Derive.Attribute

/-!
# Plans

What the encoder and the decoder that are derived from an item do: which fields are written and read, in
which context, and which cases of a union are told apart by which types.
-/

namespace CanonicalWire.Derive

/-- The context of a field: its directives, and whether its enum group is looked up. -/
structure FieldContext where
  resolves : Bool
  directives : Directives
deriving DecidableEq, Repr

namespace FieldContext

/-- Only a field with an enum group needs the registry. -/
def ofDirectives (d : Directives) : FieldContext := ⟨d.enumGroup.isSome, d⟩

end FieldContext

/-- A field that is written. -/
structure Write where
  member : String
  context : FieldContext
deriving DecidableEq, Repr

/-- How a field comes to its value. -/
inductive Read where
  | default
  | decode (type : String) (context : FieldContext)
deriving DecidableEq, Repr

inductive Reads where
  | named (reads : List (String × Read))
  | tuple (reads : List Read)
  | unit
deriving DecidableEq, Repr

/-- What a derived implementation does. -/
inductive Body where
  | writes (fields : List Write)
  | reads (fields : Reads)
  /-- Each case with the type, and the type whose name, stands for its payload; the cases that write their
  payload. -/
  | cases (types names : List (String × String)) (encodes : List String)
  /-- Each case with the type compared and the type decoded, in the order of comparison. -/
  | checks (cases : List (String × String × String))
  | writesUnion
  | readsUnion
deriving DecidableEq, Repr

/-- The interfaces that are implemented. -/
inductive Interface where
  | encoder | decoder | union | unionDecoder
deriving DecidableEq, Repr

namespace Interface

def name : Interface → String
  | .encoder => "Encoder"
  | .decoder => "Decoder"
  | .union => "Union"
  | .unionDecoder => "UnionDecoder"

end Interface

/-- A derived implementation. -/
structure Implementation where
  interface : Interface
  type : String
  generics : Generics
  body : Body
deriving DecidableEq, Repr

abbrev Plan := List Implementation

/-- The bound of type parameters that must not borrow. -/
def ownedBound : String := "'static"

namespace RecordItem

def hasEnumField (directives : List Directives) : Bool := directives.any (·.enumGroup.isSome)

/-- A record whose fields need the registry may not borrow. -/
def checkGenerics (r : RecordItem) (directives : List Directives) : Except DeriveError Unit :=
  if hasEnumField directives && r.generics.borrows then .error .borrowingRecord else .ok ()

/-- The bounds that type parameters get. -/
def bounds (interface : Interface) (directives : List Directives) : List String :=
  if hasEnumField directives then [interface.name, ownedBound] else [interface.name]

/-- The fields written, in order; those that are skipped keep their places. -/
def writes : List (String × Field) → List Directives → List Write
  | (member, _) :: fields, d :: directives =>
      if d.skip then writes fields directives else ⟨member, .ofDirectives d⟩ :: writes fields directives
  | _, _ => []

def read (f : Field) (d : Directives) : Read :=
  if d.skip then .default else .decode f.type (.ofDirectives d)

def reads (layout : Layout) (directives : List Directives) : Reads :=
  match layout with
  | .named fields => .named (List.zipWith (fun (name, f) d => (name, read f d)) fields directives)
  | .tuple fields => .tuple (List.zipWith read fields directives)
  | .unit => .unit

/-- The plan of the encoder. -/
def encode (r : RecordItem) : Except DeriveError Plan := do
  let directives ← r.layout.fields.mapM Field.directives
  r.checkGenerics directives
  return [⟨.encoder, r.generics.apply r.name, r.generics.addBounds (bounds .encoder directives),
    .writes (writes r.layout.members directives)⟩]

/-- The plan of the decoder. -/
def decode (r : RecordItem) : Except DeriveError Plan := do
  let directives ← r.layout.fields.mapM Field.directives
  r.checkGenerics directives
  return [⟨.decoder, r.generics.apply r.name, r.generics.addBounds (bounds .decoder directives),
    .reads (reads r.layout directives)⟩]

end RecordItem

namespace CaseItem

/-- The one payload type of a case. -/
def payload (c : CaseItem) : Except DeriveError String :=
  match c.layout with
  | .tuple [f] => .ok f.type
  | _ => .error (.payloadNeeded c.name)

end CaseItem

namespace UnionItem

def checkGenerics (u : UnionItem) : Except DeriveError Unit :=
  if u.generics.borrows then .error .borrowingUnion else .ok ()

/-- The full name of a case. -/
def caseName (u : UnionItem) (c : CaseItem) : String := u.name ++ "::" ++ c.name

/-- The plan of the encoder. -/
def encode (u : UnionItem) : Except DeriveError Plan := do
  u.checkGenerics
  let arms ← u.cases.mapM fun c => c.payload.map fun payload => (u.caseName c, payload)
  if arms.isEmpty then throw .casesNeeded
  let generics := u.generics.addBounds [Interface.encoder.name, ownedBound]
  let type := u.generics.apply u.name
  return [⟨.union, type, generics, .cases arms arms (arms.map (·.1))⟩, ⟨.encoder, type, generics, .writesUnion⟩]

/-- The plan of the decoder. -/
def decode (u : UnionItem) : Except DeriveError Plan := do
  u.checkGenerics
  let checks ← u.cases.mapM fun c => c.payload.map fun payload => (u.caseName c, payload, payload)
  if checks.isEmpty then throw .casesNeeded
  let generics := u.generics.addBounds [Interface.decoder.name, ownedBound]
  let type := u.generics.apply u.name
  return [⟨.unionDecoder, type, generics, .checks checks⟩, ⟨.decoder, type, generics, .readsUnion⟩]

end UnionItem

namespace Item

def encode : Item → Except DeriveError Plan
  | .record r => r.encode
  | .union u => u.encode

def decode : Item → Except DeriveError Plan
  | .record r => r.decode
  | .union u => u.decode

end Item
end CanonicalWire.Derive
