import CanonicalWire.Directive

/-!
# Wire types

The types whose values can be written. A record is a list of named fields, each with the directives that it
declares; a union is a list of named cases, each with one payload type; a tuple is a record without names
and directives. A declared type may be referred to by its name, so that it can contain itself, and what the
name stands for is left to the declarations. Equality of types is what a registry compares payloads by, so
types that are written alike but named differently are kept apart.
-/

namespace CanonicalWire

/-- The fixed-width integers. -/
inductive IntKind where
  | u8 | u16 | u32 | u64 | i8 | i16 | i32 | i64
deriving DecidableEq, Repr

namespace IntKind

/-- Width in bytes. -/
def width : IntKind → Nat
  | .u8 | .i8 => 1
  | .u16 | .i16 => 2
  | .u32 | .i32 => 4
  | .u64 | .i64 => 8

def signed : IntKind → Bool
  | .u8 | .u16 | .u32 | .u64 => false
  | .i8 | .i16 | .i32 | .i64 => true

def name : IntKind → String
  | .u8 => "u8"
  | .u16 => "u16"
  | .u32 => "u32"
  | .u64 => "u64"
  | .i8 => "i8"
  | .i16 => "i16"
  | .i32 => "i32"
  | .i64 => "i64"

end IntKind

/-- The representations of text; all are written alike. -/
inductive TextKind where
  | owned | small | shared
deriving DecidableEq, Repr

/-- The types without parts. -/
inductive Scalar where
  | bool
  | int (k : IntKind)
  | u128
  | i128
  /-- An unsigned integer of `n` bytes. -/
  | uint (n : Nat)
  /-- An unsigned integer without bound; its written form has sixteen bytes. -/
  | natural
  /-- An integer without bound; only those that are not negative are written. -/
  | integer
  | decimal
  | text (k : TextKind)
  | bytes
  | uuid
deriving DecidableEq, Repr

namespace Scalar

def name : Scalar → String
  | .bool => "bool"
  | .int k => k.name
  | .u128 => "u128"
  | .i128 => "i128"
  | .uint n => "Uint<" ++ toString n ++ ">"
  | .natural => "BigUint"
  | .integer => "BigInt"
  | .decimal => "BigDecimal"
  | .text .owned => "String"
  | .text .small => "SmolStr"
  | .text .shared => "Arc<str>"
  | .bytes => "Bytes"
  | .uuid => "Uuid"

end Scalar

/-- Ways to refer to a value that leave its written form as it is. -/
inductive Indirection where
  | boxed
  | shared
  | borrowed
  /-- The type is put together at run time, so it has no name of its own. -/
  | dynamic
deriving DecidableEq, Repr

/-- The growing and the frozen sequence; both are written alike. -/
inductive SequenceKind where
  | vector | slice
deriving DecidableEq, Repr

/-- The maps and sets that have no order by their keys. -/
inductive TableKind where
  | hash | index | aHash
deriving DecidableEq, Repr

/-- Such a map or set, with what hashes its keys where the type names it. -/
structure Table where
  kind : TableKind
  hasher : Option String := none
deriving DecidableEq, Repr

namespace Table

def hash : Table where
  kind := .hash

/-- What a map or set of this kind is called. -/
def name (table : Table) (noun : String) : String :=
  match table.kind with
  | .hash => "Hash" ++ noun
  | .index => "Index" ++ noun
  | .aHash => "AHash" ++ noun

/-- What stands behind the types of a map or set in its name. -/
def suffix (table : Table) : String :=
  match table.hasher with
  | none => ""
  | some hasher => ", " ++ hasher

end Table

/-- The kinds of map and set, by the order in which a decoded one lists what it holds. -/
inductive Listing where
  /-- As the entries were written: ascending in the bytes of their keys. -/
  | asWritten (table : Table)
  /-- Ascending in the keys. -/
  | byKey
deriving DecidableEq, Repr

/-- How the fields of a record are laid out in its declaration. -/
inductive Shape where
  | named | tuple | unit
deriving DecidableEq, Repr

/-- The kinds of record. -/
inductive RecordKind where
  | tuple
  /-- A declared record. It is its own container, and its skipped fields come back with their default. -/
  | declared (name : String) (shape : Shape)
  /-- A record put together at run time. Its skipped fields come back as nothing. -/
  | assembled (container : Option String)
deriving DecidableEq, Repr

namespace RecordKind

/-- The container that enum groups of the fields are looked up in. A container is known by its type's
name. -/
def container : RecordKind → Option String
  | .tuple => none
  | .declared name _ => some name
  | .assembled container => container

end RecordKind

/-- A declared type that is referred to by its name, as it is where it contains itself. -/
structure Recursive where
  name : String
deriving DecidableEq, Repr

mutual
/-- A wire type. -/
inductive Ty where
  | scalar (s : Scalar)
  | option (t : Ty)
  | pointer (p : Indirection) (t : Ty)
  | sequence (k : SequenceKind) (t : Ty)
  /-- A sequence held in two runs, front and back. -/
  | deque (t : Ty)
  | array (t : Ty) (n : Nat)
  | map (l : Listing) (k v : Ty)
  | set (l : Listing) (t : Ty)
  | record (k : RecordKind) (fs : Fields)
  | union (name : String) (cs : Cases)
  | recursive (r : Recursive)
/-- The fields of a record, in order. -/
inductive Fields where
  | nil
  | cons (name : String) (declared : Declaration) (t : Ty) (rest : Fields)
/-- The cases of a union, in order. -/
inductive Cases where
  | nil
  | cons (name : String) (t : Ty) (rest : Cases)
end

deriving instance DecidableEq for Ty, Fields, Cases

namespace Fields

/-- The fields of a tuple: no names and no directives. -/
def ofTypes : List Ty → Fields
  | [] => .nil
  | t :: ts => .cons "" .none t (ofTypes ts)

/-- Fields from their names, directives and types. -/
def ofList : List (String × Declaration × Ty) → Fields
  | [] => .nil
  | (name, declared, t) :: rest => .cons name declared t (ofList rest)

def types : Fields → List Ty
  | .nil => []
  | .cons _ _ t rest => t :: rest.types

end Fields

namespace Cases

def ofList : List (String × Ty) → Cases
  | [] => .nil
  | (name, t) :: rest => .cons name t (ofList rest)

def types : Cases → List Ty
  | .nil => []
  | .cons _ t rest => t :: rest.types

end Cases

namespace Ty

abbrev bool : Ty := .scalar .bool
abbrev byte : Ty := .scalar (.int .u8)
abbrev u8 : Ty := byte
abbrev u16 : Ty := .scalar (.int .u16)
abbrev u32 : Ty := .scalar (.int .u32)
abbrev u64 : Ty := .scalar (.int .u64)
abbrev u128 : Ty := .scalar .u128
abbrev string : Ty := .scalar (.text .owned)
abbrev vector (t : Ty) : Ty := .sequence .vector t
abbrev boxed (t : Ty) : Ty := .pointer .boxed t

/-- A tuple is a record whose fields have neither name nor directive. -/
def tuple (ts : List Ty) : Ty := .record .tuple (.ofTypes ts)

def unit : Ty := tuple []

def commaSeparated : List String → String
  | [] => ""
  | [a] => a
  | a :: as => a ++ ", " ++ commaSeparated as

/-- The name of the tuple of types with the given names; a comma follows a lone one. -/
def tupleName : List String → String
  | [a] => "(" ++ a ++ ",)"
  | as => "(" ++ commaSeparated as ++ ")"

mutual
/-- The name of a type in error texts. A type put together at run time is called `Dyn`. -/
def name : Ty → String
  | .scalar s => s.name
  | .option t => "Option<" ++ name t ++ ">"
  | .pointer .boxed t => "Box<" ++ name t ++ ">"
  | .pointer .shared t => "Arc<" ++ name t ++ ">"
  | .pointer .borrowed t => "&" ++ name t
  | .pointer .dynamic _ => "Dyn"
  | .sequence .vector t => "Vec<" ++ name t ++ ">"
  | .sequence .slice t => "Box<[" ++ name t ++ "]>"
  | .deque t => "VecDeque<" ++ name t ++ ">"
  | .array t n => "[" ++ name t ++ "; " ++ toString n ++ "]"
  | .map (.asWritten table) k v => table.name "Map" ++ "<" ++ name k ++ ", " ++ name v ++ table.suffix ++ ">"
  | .map .byKey k v => "BTreeMap<" ++ name k ++ ", " ++ name v ++ ">"
  | .set (.asWritten table) t => table.name "Set" ++ "<" ++ name t ++ table.suffix ++ ">"
  | .set .byKey t => "BTreeSet<" ++ name t ++ ">"
  | .record .tuple fs => tupleName (fieldNames fs)
  | .record (.declared name _) _ => name
  | .record (.assembled _) _ => "Dyn"
  | .union name _ => name
  | .recursive r => r.name
/-- The names of the types of fields. -/
def fieldNames : Fields → List String
  | .nil => []
  | .cons _ _ t rest => name t :: fieldNames rest
end

end Ty

/-! ## References by name -/

mutual
/-- The names that a type refers to. -/
def Ty.references : Ty → List Recursive
  | .scalar _ => []
  | .option t => t.references
  | .pointer _ t => t.references
  | .sequence _ t => t.references
  | .deque t => t.references
  | .array t _ => t.references
  | .map _ k v => k.references ++ v.references
  | .set _ t => t.references
  | .record _ fs => fs.references
  | .union _ cs => cs.references
  | .recursive r => [r]
def Fields.references : Fields → List Recursive
  | .nil => []
  | .cons _ _ t rest => t.references ++ rest.references
def Cases.references : Cases → List Recursive
  | .nil => []
  | .cons _ t rest => t.references ++ rest.references
end

/-- A value of the type takes bytes, where its length may be fixed. -/
def Scalar.takesBytes (fixedLen : Option Nat) : Scalar → Bool
  | .uint n => 0 < n
  | .text _ => fixedLen ≠ some 0
  | .bytes => fixedLen ≠ some 0
  | _ => true

mutual
/-- A value of the type takes bytes, the first of them before a name is followed. What is written in front of
the values inside depends on two directives. -/
def Ty.guarded (optional : Bool) (fixedLen : Option Nat) : Ty → Bool
  | .scalar s => s.takesBytes fixedLen
  | .option t => optional || t.guarded optional fixedLen
  | .pointer _ t => t.guarded optional fixedLen
  | .sequence _ t => fixedLen.all fun n => 0 < n && t.guarded false none
  | .deque t => fixedLen.all fun n => 0 < n && t.guarded false none
  | .array t n => 0 < n && t.guarded false none
  | .map _ _ _ => true
  | .set _ _ => true
  | .record _ fs => fs.guarded
  | .union _ _ => true
  | .recursive _ => false
/-- Some field takes bytes before a name is followed, and no name stands in the fields before it. -/
def Fields.guarded : Fields → Bool
  | .nil => false
  | .cons _ (.faulty _) _ _ => true
  | .cons _ (.valid d) t rest =>
      if d.skip then rest.guarded
      else t.guarded d.optional d.fixedLen || (t.references.isEmpty && rest.guarded)
end

/-- What a name stands for: a record or a union. A record takes bytes before a name is followed again, so that
the values of a type that contains itself are not endless; in a union the discriminant comes first. -/
inductive Definition where
  | record (shape : Shape) (fs : Fields) (guarded : fs.guarded = true)
  | union (cs : Cases)

/-- The declarations that names refer to. -/
class Definitions where
  definition : String → Definition

namespace Recursive

variable [Definitions]

/-- What stands behind the name. -/
def body (r : Recursive) : Ty :=
  match Definitions.definition r.name with
  | .record shape fs _ => .record (.declared r.name shape) fs
  | .union cs => .union r.name cs

theorem guarded_body (r : Recursive) (optional : Bool) (fixedLen : Option Nat) :
    r.body.guarded optional fixedLen = true := by
  unfold body
  split
  · next hguarded _ => exact hguarded
  · rfl

end Recursive
end CanonicalWire
