import CanonicalWire.Derive.Lexeme
import CanonicalWire.Derive.Literal
import CanonicalWire.Ty

/-!
# Items

The declared records and unions from which encoders and decoders are derived, as they are written: fields
with their attributes, cases, generic parameters and predicates.
-/

namespace CanonicalWire.Derive

/-- An attribute: a path, and its entries if it has any brackets. An entry is a key, perhaps with a
literal. -/
structure Attribute where
  path : String
  entries : Option (List (String × Option Literal))
deriving DecidableEq, Repr

/-- What a field declares besides its name, if it has one. -/
structure Field where
  type : String
  attributes : List Attribute
deriving DecidableEq, Repr

/-- The fields of a record or of a case, as they are laid out. Only a named layout gives them names. -/
inductive Layout where
  | named (fields : List (String × Field))
  | tuple (fields : List Field)
  | unit
deriving DecidableEq, Repr

namespace Layout

def fields : Layout → List Field
  | .named fields => fields.map (·.2)
  | .tuple fields => fields
  | .unit => []

/-- The fields with the members by which they are reached: their names, or their places among all fields. -/
def members : Layout → List (String × Field)
  | .named fields => fields
  | .tuple fields => fields.mapIdx fun i f => (toString i, f)
  | .unit => []

end Layout

/-- The parameters of an item and the predicates on them. -/
structure Generics where
  parameters : List Parameter
  predicates : List String
deriving DecidableEq, Repr

namespace Generics

def borrows (g : Generics) : Bool := g.parameters.any Parameter.isLifetime

/-- The parameters as an implementation lists them: lifetimes before all others. -/
def listed (g : Generics) : List Parameter :=
  g.parameters.filter (·.isLifetime) ++ g.parameters.filter (!·.isLifetime)

/-- The generics of an implementation, with more bounds on every type parameter. -/
def addBounds (g : Generics) (bounds : List String) : Generics :=
  { g with parameters := g.listed.map (Parameter.addBounds bounds) }

def commaSeparated : List String → String
  | [] => ""
  | [s] => s
  | s :: ss => s ++ "," ++ commaSeparated ss

/-- A type's name with the names of its parameters. -/
def apply (name : String) (g : Generics) : String :=
  match g.listed with
  | [] => name
  | ps => name ++ "<" ++ commaSeparated (ps.map Parameter.name) ++ ">"

end Generics

/-- A declared record. -/
structure RecordItem where
  name : String
  layout : Layout
  generics : Generics
deriving DecidableEq, Repr

/-- A case of a declared union, as it is written. -/
structure CaseItem where
  name : String
  layout : Layout
deriving DecidableEq, Repr

/-- A declared union. -/
structure UnionItem where
  name : String
  cases : List CaseItem
  generics : Generics
deriving DecidableEq, Repr

inductive Item where
  | record (r : RecordItem)
  | union (u : UnionItem)
deriving DecidableEq, Repr

/-- Why nothing is derived from an item. -/
inductive DeriveError where
  | duplicate (key : String)
  | unexpectedValue (key : String)
  | lengthNeeded
  | negativeLength
  | lengthTooLarge
  | groupNeeded
  | emptyGroup
  /-- An attribute without brackets. -/
  | entriesNeeded (path : String)
  | optionNeeded
  | borrowingRecord
  | borrowingUnion
  | payloadNeeded (case : String)
  | casesNeeded
deriving DecidableEq, Repr

namespace DeriveError

def message : DeriveError → String
  | .duplicate key => s!"Duplicate directive: {key}"
  | .unexpectedValue key => s!"Directive `{key}` does not take a value"
  | .lengthNeeded => "Directive `len` needs an integer value: len = 32"
  | .negativeLength => "invalid digit found in string"
  | .lengthTooLarge => "number too large to fit in target type"
  | .groupNeeded => "Directive `enum` needs a group name: enum = \"Group\""
  | .emptyGroup => "Enum group name is empty"
  | .entriesNeeded path => "expected attribute arguments in parentheses: #[" ++ path ++ "(...)]"
  | .optionNeeded => "Directive `optional` requires a field of type Option<T>"
  | .borrowingRecord => "Records with an `enum` field must be 'static and cannot borrow"
  | .borrowingUnion => "Tagged unions must be 'static and cannot borrow"
  | .payloadNeeded case =>
      s!"Variant `{case}` must wrap exactly one payload type, e.g. {case}(Payload)"
  | .casesNeeded => "A tagged union needs at least one variant"

end DeriveError
end CanonicalWire.Derive
