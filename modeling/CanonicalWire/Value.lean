import CanonicalWire.Uint

/-!
# Values

The values of a wire type, as families indexed by the type: an array holds as many items as its type says,
a union value is a case of its union, and a field may be left out only where it is skipped. What declared
types bring along themselves, their defaults and the order of their values, is a parameter.
-/

namespace CanonicalWire

/-- The values of a type without parts. Fixed-width integers are words of their width. -/
def Scalar.Carrier : Scalar → Type
  | .bool => Bool
  | .int k => BitVec (8 * k.width)
  | .u128 => BitVec 128
  | .i128 => BitVec 128
  | .uint n => Uint n
  | .natural => Nat
  | .integer => Int
  | .decimal => Decimal
  | .text _ => String
  | .bytes => Bytes
  | .uuid => Uuid

section Values

variable [Definitions]

mutual
/-- A value of a wire type. -/
inductive Value : Ty → Type where
  | scalar {s : Scalar} (x : s.Carrier) : Value (.scalar s)
  | absent {t : Ty} : Value (.option t)
  | present {t : Ty} (x : Value t) : Value (.option t)
  | pointer {p : Indirection} {t : Ty} (x : Value t) : Value (.pointer p t)
  | sequence {k : SequenceKind} {t : Ty} {n : Nat} (xs : Items t n) : Value (.sequence k t)
  | deque {t : Ty} {m n : Nat} (front : Items t m) (back : Items t n) : Value (.deque t)
  | array {t : Ty} {n : Nat} (xs : Items t n) : Value (.array t n)
  | map {l : Listing} {k v : Ty} (es : Entries k v) : Value (.map l k v)
  | set {l : Listing} {t : Ty} {n : Nat} (xs : Items t n) : Value (.set l t)
  | record {k : RecordKind} {fs : Fields} (xs : Record fs) : Value (.record k fs)
  | union {name : String} {cs : Cases} (c : Choice cs) : Value (.union name cs)
  | recursive {r : Recursive} (x : Value r.body) : Value (.recursive r)
/-- A list of values of one type, with its length. -/
inductive Items : Ty → Nat → Type where
  | nil {t : Ty} : Items t 0
  | cons {t : Ty} {n : Nat} (x : Value t) (xs : Items t n) : Items t (n + 1)
/-- The entries of a map, in the order in which they are listed. -/
inductive Entries : Ty → Ty → Type where
  | nil {k v : Ty} : Entries k v
  | cons {k v : Ty} (key : Value k) (value : Value v) (rest : Entries k v) : Entries k v
/-- What the fields of a record hold. A field that is never written may hold nothing. -/
inductive Record : Fields → Type where
  | nil : Record .nil
  | cons {name : String} {d : Declaration} {t : Ty} {fs : Fields} (x : Value t) (xs : Record fs) :
      Record (.cons name d t fs)
  | omitted {name : String} {d : Declaration} {t : Ty} {fs : Fields} (unheld : d.holds = false)
      (xs : Record fs) : Record (.cons name d t fs)
/-- A case of a union with its payload. -/
inductive Choice : Cases → Type where
  | here {name : String} {t : Ty} {cs : Cases} (x : Value t) : Choice (.cons name t cs)
  | there {name : String} {t : Ty} {cs : Cases} (c : Choice cs) : Choice (.cons name t cs)
end

namespace Choice

/-- The type of the payload. -/
def payload : {cs : Cases} → Choice cs → Ty
  | .cons _ t _, .here _ => t
  | .cons _ _ _, .there c => c.payload

end Choice

/-- The byte of a value of type `u8`; a value of another type has none. -/
def Value.byte? : {t : Ty} → Value t → Option UInt8
  | .scalar (.int .u8), .scalar x => some (UInt8.ofBitVec x)
  | _, _ => none

/-- The value of type `u8` that a byte is. -/
def Value.ofByte (b : UInt8) : Value .byte := .scalar (s := .int .u8) b.toBitVec

namespace Items

variable {t : Ty} {m n : Nat}

def append : {m : Nat} → Items t m → Items t n → Items t (n + m)
  | 0, .nil, ys => ys
  | _ + 1, .cons x xs, ys => .cons x (append xs ys)

/-- The bytes of items of type `u8`. -/
def bytes : {n : Nat} → Items t n → Bytes
  | 0, .nil => []
  | _ + 1, .cons x xs => x.byte?.toList ++ bytes xs

/-- The items of a list that has the given length. -/
def ofLength : {n : Nat} → (xs : List (Value t)) → xs.length = n → Items t n
  | 0, [], _ => .nil
  | _ + 1, x :: xs, h => .cons x (ofLength xs (Nat.succ.inj h))

def ofList (xs : List (Value t)) : Items t xs.length := ofLength xs rfl

/-- The bytes of a block as items. -/
def ofBlock (b : Block n) : Items .byte n :=
  ofLength (b.bytes.map .ofByte) (by rw [List.length_map, b.length_eq])

def replicate (x : Value t) : (n : Nat) → Items t n
  | 0 => .nil
  | n + 1 => .cons x (replicate x n)

def toList : {n : Nat} → Items t n → List (Value t)
  | 0, .nil => []
  | _ + 1, .cons x xs => x :: toList xs

end Items

namespace Entries

variable {k v : Ty}

def toList : Entries k v → List (Value k × Value v)
  | .nil => []
  | .cons key value rest => (key, value) :: toList rest

def ofList : List (Value k × Value v) → Entries k v
  | [] => .nil
  | (key, value) :: rest => .cons key value (ofList rest)

end Entries

/-! ## The derived order -/

/-- Integers by their numbers, texts and bytes lexicographically. -/
def Scalar.compare : (s : Scalar) → s.Carrier → s.Carrier → Ordering
  | .bool, a, b => Ord.compare (α := Bool) a b
  | .int k, a, b => if k.signed then Ord.compare (BitVec.toInt a) (BitVec.toInt b)
      else Ord.compare (BitVec.toNat a) (BitVec.toNat b)
  | .u128, a, b => Ord.compare (BitVec.toNat (w := 128) a) (BitVec.toNat (w := 128) b)
  | .i128, a, b => Ord.compare (BitVec.toInt (n := 128) a) (BitVec.toInt (n := 128) b)
  | .uint _, a, b => Uint.compare a b
  | .natural, a, b => Ord.compare (α := Nat) a b
  | .integer, a, b => Ord.compare (α := Int) a b
  | .decimal, a, b => Decimal.compare a b
  | .text _, a, b => Ord.compare (α := Bytes) (Utf8.encode a) (Utf8.encode b)
  | .bytes, a, b => Ord.compare (α := Bytes) a b
  | .uuid, a, b => Ord.compare (α := Bytes) (Block.bytes a) (Block.bytes b)

mutual
/-- Values are compared lexicographically in their parts, as derived orders compare them. -/
def Value.lexCompare : {t : Ty} → Value t → Value t → Ordering
  | .scalar s, .scalar a, .scalar b => s.compare a b
  | .option _, .absent, .absent => .eq
  | .option _, .absent, .present _ => .lt
  | .option _, .present _, .absent => .gt
  | .option _, .present a, .present b => a.lexCompare b
  | .pointer _ _, .pointer a, .pointer b => a.lexCompare b
  | .sequence _ _, .sequence a, .sequence b => a.lexCompare b
  | .deque _, .deque a b, .deque c d => a.lexCompareThen (fun _ rest => b.lexCompare rest) (c.append d)
  | .array _ _, .array a, .array b => a.lexCompare b
  | .map _ _ _, .map a, .map b => a.lexCompare b
  | .set _ _, .set a, .set b => a.lexCompare b
  | .record _ _, .record a, .record b => a.lexCompare b
  | .union _ _, .union a, .union b => a.lexCompare b
  | .recursive _, .recursive a, .recursive b => a.lexCompare b
termination_by structural _ x => x
/-- Items lexicographically; a proper beginning comes first. -/
def Items.lexCompare : {t : Ty} → {m n : Nat} → Items t m → Items t n → Ordering
  | _, _, _, .nil, .nil => .eq
  | _, _, _, .nil, .cons _ _ => .lt
  | _, _, _, .cons _ _, .nil => .gt
  | _, _, _, .cons x xs, .cons y ys => (x.lexCompare y).then (xs.lexCompare ys)
termination_by structural _ _ _ xs => xs
/-- Compares items with the beginning of others, and goes on with what is left of those. -/
def Items.lexCompareThen : {t : Ty} → {m n : Nat} → Items t m → ((k : Nat) → Items t k → Ordering) →
    Items t n → Ordering
  | _, _, n, .nil, next, ys => next n ys
  | _, _, _, .cons _ _, _, .nil => .gt
  | _, _, _, .cons x xs, next, .cons y ys => (x.lexCompare y).then (xs.lexCompareThen next ys)
termination_by structural _ _ _ xs => xs
def Entries.lexCompare : {k v : Ty} → Entries k v → Entries k v → Ordering
  | _, _, .nil, .nil => .eq
  | _, _, .nil, .cons _ _ _ => .lt
  | _, _, .cons _ _ _, .nil => .gt
  | _, _, .cons k v rest, .cons k' v' rest' =>
      ((k.lexCompare k').then (v.lexCompare v')).then (rest.lexCompare rest')
termination_by structural _ _ es => es
def Record.lexCompare : {fs : Fields} → Record fs → Record fs → Ordering
  | _, .nil, .nil => .eq
  | _, .cons x xs, .cons y ys => (x.lexCompare y).then (xs.lexCompare ys)
  | _, .cons _ _, .omitted _ _ => .gt
  | _, .omitted _ _, .cons _ _ => .lt
  | _, .omitted _ xs, .omitted _ ys => xs.lexCompare ys
termination_by structural _ xs => xs
def Choice.lexCompare : {cs : Cases} → Choice cs → Choice cs → Ordering
  | _, .here x, .here y => x.lexCompare y
  | _, .here _, .there _ => .lt
  | _, .there _, .here _ => .gt
  | _, .there c, .there d => c.lexCompare d
termination_by structural _ c => c
end

end Values

/-! ## What declared types bring along -/

/-- The declared types that names refer to, their defaults, and how the keys of maps and the items of sets are
compared. Equal keys are those that compare as equal. -/
class Declarations extends Definitions where
  /-- The default of a declared type, if it has one. -/
  default? : (t : Ty) → Option (Value t)
  compare : {t : Ty} → Value t → Value t → Ordering

/-- What a type holds before anything is put into it. -/
def Scalar.default : (s : Scalar) → s.Carrier
  | .bool => false
  | .int _ => (0 : BitVec _)
  | .u128 => (0 : BitVec 128)
  | .i128 => (0 : BitVec 128)
  | .uint _ => Uint.zero
  | .natural => (0 : Nat)
  | .integer => (0 : Int)
  | .decimal => Decimal.ofInt 0
  | .text _ => ""
  | .bytes => ([] : Bytes)
  | .uuid => Block.fill 16 0

section

variable [Declarations]

mutual
/-- The default of a type, if it has one. Records that are put together at run time have none. -/
def Ty.default? : (t : Ty) → Option (Value t)
  | .scalar s => some (.scalar s.default)
  | .option _ => some .absent
  | .pointer _ t => t.default?.map .pointer
  | .sequence _ _ => some (.sequence .nil)
  | .deque _ => some (.deque .nil .nil)
  | .array t n => t.default?.map fun x => .array (.replicate x n)
  | .map _ _ _ => some (.map .nil)
  | .set _ _ => some (.set .nil)
  | .record .tuple fs => (Fields.default? fs).map .record
  | .record (.declared name shape) fs => Declarations.default? (.record (.declared name shape) fs)
  | .record (.assembled _) _ => none
  | .union name cs => Declarations.default? (.union name cs)
  | .recursive r => Declarations.default? (.recursive r)
/-- The defaults of all fields, if each has one. -/
def Fields.default? : (fs : Fields) → Option (Record fs)
  | .nil => some .nil
  | .cons _ _ t rest =>
      match t.default?, rest.default? with
      | some x, some xs => some (.cons x xs)
      | _, _ => none
end

/-- How the keys of maps and the items of sets are compared. -/
abbrev Value.compare {t : Ty} (x y : Value t) : Ordering := Declarations.compare x y

/-! ## Maps and sets as they are filled -/

namespace Entries

variable {k v : Ty}

/-- Puts an entry in: it takes the place of an entry with the same key, and goes last if there is none. -/
def put (key : Value k) (value : Value v) : Entries k v → Entries k v
  | .nil => .cons key value .nil
  | .cons key' value' rest =>
      match key.compare key' with
      | .eq => .cons key' value rest
      | _ => .cons key' value' (put key value rest)

/-- Puts an entry in where the order of the keys wants it, or its value to an equal key that is there. -/
def place (key : Value k) (value : Value v) : Entries k v → Entries k v
  | .nil => .cons key value .nil
  | .cons key' value' rest =>
      match key.compare key' with
      | .lt => .cons key value (.cons key' value' rest)
      | .eq => .cons key' value rest
      | .gt => .cons key' value' (place key value rest)

/-- Entries with each key once, where it first stood, with the value that came last. -/
def collect (es : List (Value k × Value v)) : Entries k v :=
  es.foldl (fun filled e => filled.put e.1 e.2) .nil

/-- Entries with each key once, ascending in the keys, with the value that came last. -/
def collectByKey (es : List (Value k × Value v)) : Entries k v :=
  es.foldl (fun filled e => filled.place e.1 e.2) .nil

end Entries

namespace Items

variable {t : Ty}

/-- A value put into a list without repetition, last unless it is there. -/
def putInto (x : Value t) : List (Value t) → List (Value t)
  | [] => [x]
  | y :: ys =>
      match x.compare y with
      | .eq => y :: ys
      | _ => y :: putInto x ys

/-- A value put into an ascending list without repetition. -/
def placeInto (x : Value t) : List (Value t) → List (Value t)
  | [] => [x]
  | y :: ys =>
      match x.compare y with
      | .lt => x :: y :: ys
      | .eq => y :: ys
      | .gt => y :: placeInto x ys

/-- Each value once, where it first stood. -/
def collect (xs : List (Value t)) : List (Value t) := xs.foldl (fun filled x => putInto x filled) []

/-- Each value once, in ascending order. -/
def collectByKey (xs : List (Value t)) : List (Value t) := xs.foldl (fun filled x => placeInto x filled) []

end Items

end
end CanonicalWire
