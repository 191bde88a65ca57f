import CanonicalWire.Codec

/-!
# The catalogue

Declared records and unions that applications share, by name, and the containers among them with the
variants by which they describe their unions. Three of them contain themselves.
-/

namespace CanonicalWire
namespace Catalogue

/-- A field without directives. -/
def plain (name : String) (t : Ty) : String × Declaration × Ty := (name, .none, t)

/-- A field with directives. -/
def field (name : String) (d : Directives) (t : Ty) : String × Declaration × Ty := (name, .valid d, t)

/-- A declared record with named fields. -/
def struct (name : String) (fields : List (String × Declaration × Ty)) : Ty :=
  .record (.declared name .named) (.ofList fields)

def union (name : String) (cases : List (String × Ty)) : Ty := .union name (.ofList cases)

def transfer : Ty := struct "Transfer" [plain "to" (.array .u8 4), plain "amount" .u64]
def vote : Ty := struct "Vote" [plain "proposal" .u32, plain "approve" .bool]
def stake : Ty := struct "Stake" [plain "validator" .u16]
def ping : Ty := struct "Ping" [plain "seq" .u8]

def record : Ty := struct "Record" [plain "a" .u32, plain "b" .string]

def profile : Ty :=
  struct "Profile" [plain "id" .u16,
    field "nickname" { optional := true } (.option .string),
    field "tag" { optional := true, fixedLen := some 4 } (.option (.vector .u8))]

def quote : Ty :=
  struct "Quote" [field "symbol" { fixedLen := some 4 } .string,
    field "bounds" { fixedLen := some 2 } (.vector .u32),
    field "checksum" { fixedLen := some 3 } (.vector .u8)]

def account : Ty :=
  struct "Account" [plain "balance" .u64,
    field "cached_hash" { skip := true } (.option (.array .u8 4)),
    field "dirty" { skip := true } .bool,
    plain "nonce" .u32]

def forward : Ty :=
  struct "Forward" [field "value"
    { unknown := [("since", some "2"), ("note", some "added later"), ("deprecated", none)] } .u8]

def pair : Ty :=
  .record (.declared "Pair" .tuple) (.ofList [plain "0" .u8, field "1" { fixedLen := some 2 } .string])

def marker : Ty := .record (.declared "Marker" .unit) .nil
def empty : Ty := struct "Empty" []
def hidden : Ty := struct "Hidden" [field "note" { skip := true } .u32]

def tagged : Ty := struct "Tagged<Marker>" [plain "value" .u32, field "kind" { skip := true } .unit]

def outer : Ty :=
  struct "Outer" [field "inner" { optional := true } (.option profile), plain "pairs" (.vector pair)]

def ledger : Ty :=
  struct "Ledger" [plain "height" .u64,
    plain "balances" (.map .byKey (.array .u8 2) .u64),
    plain "tags" (.map .byKey .string (.vector .string))]

def coin : Ty :=
  struct "Coin" [field "denom" { fixedLen := some 4 } .string,
    plain "amount" .u128,
    plain "supply" (.scalar (.uint 32))]

def digest : Ty :=
  struct "Digest" [field "text" { fixedLen := some 8 } .string,
    field "raw" { fixedLen := some 8 } (.scalar .bytes)]

def symbol : Ty := struct "Symbol" [field "code" { fixedLen := some 3 } (.scalar (.text .small))]

def session : Ty :=
  struct "Session" [plain "id" (.scalar .uuid),
    field "parent" { optional := true } (.option (.scalar .uuid))]

def lens : Ty :=
  struct "Lens" [field "fixed" { fixedLen := some 3 } (.array .u16 2),
    field "nested" { fixedLen := some 2 } (.vector .string),
    field "boxed" { fixedLen := some 2 } (.boxed (.vector .u8)),
    field "table" { fixedLen := some 1 } (.map .byKey .u8 .string),
    field "pair" { fixedLen := some 2 } (.tuple [.string, .u8]),
    field "queue" { fixedLen := some 2 } (.deque .u16),
    field "shared" { optional := true, fixedLen := some 2 } (.option (.pointer .shared .string)),
    field "number" { fixedLen := some 9 } .u32]

def options : Ty :=
  struct "Options" [plain "pointer" (.option .u8),
    field "double" { optional := true } (.option (.option .u8)),
    plain "items" (.vector (.option .u8)),
    field "list" { optional := true } (.option (.vector (.option .bool))),
    field "fixed" { fixedLen := some 2 } (.option .string)]

def msg : Ty := union "Msg" [("Transfer", transfer), ("Vote", vote), ("Stake", stake)]
def packet : Ty := union "Packet" [("Ping", ping)]

def prim : Ty :=
  union "Prim" [("Byte", .u8), ("Word", .u32), ("Big", .u128), ("Text", .string), ("Blob", .vector .u8),
    ("Unit", .unit), ("Maybe", .option .u16), ("Both", .tuple [.u8, .u16]),
    ("Table", .map .byKey .u8 .u16), ("Names", .set .byKey .string), ("Mark", marker)]

/-- Two cases share a payload type, so only the first of them is ever decoded. -/
def twin : Ty := union "Twin" [("First", .u8), ("Second", .u8), ("Word", .u16)]

def envelope : Ty :=
  struct "Envelope" [plain "nonce" .u32, field "body" { enumGroup := some "Msg" } msg]

def batch : Ty :=
  struct "Batch" [field "items" { enumGroup := some "Msg" } (.vector msg),
    field "reply" { optional := true, enumGroup := some "Msg" } (.option msg),
    field "ballot" { enumGroup := some "Gov" } msg]

def loose : Ty := struct "Loose" [field "body" { enumGroup := some "Msg" } (.option msg)]

def deep : Ty :=
  struct "Deep" [field "fixed" { fixedLen := some 2, enumGroup := some "Msg" } (.vector msg),
    field "array" { enumGroup := some "Msg" } (.array msg 2),
    field "table" { enumGroup := some "Msg" } (.map .byKey .u8 (.vector msg)),
    field "boxed" { enumGroup := some "Msg" } (.boxed msg),
    field "maybe" { optional := true, enumGroup := some "Msg" } (.option (.boxed msg)),
    field "cache" { skip := true } (.map (.asWritten .hash) .u8 .u8),
    field "plain" { enumGroup := some "Msg" } .u8]

def frame : Ty := struct "Frame" [field "packet" { enumGroup := some "Packet" } packet]

def nest : Ty :=
  union "Nest" [("Plain", ping), ("Inner", msg), ("Env", envelope), ("Boxed", .boxed envelope),
    ("Many", .vector msg)]

def either (a b : Ty) : Ty :=
  union ("Either<" ++ a.name ++ ", " ++ b.name ++ ">") [("Left", a), ("Right", b)]

def slot (t : Ty) : Ty :=
  struct ("Slot<" ++ t.name ++ ">")
    [field "side" { enumGroup := some "Side" } (either t .string), plain "tail" t]

/-- A value and more of the same type. -/
def wrapper (t : Ty) : Ty :=
  struct ("Wrapper<" ++ (Ty.pointer .dynamic t).name ++ ">") [plain "head" t, plain "rest" (.vector t)]

/-! ## Types that contain themselves -/

def node : Ty := .recursive ⟨"Node"⟩
def tree : Ty := .recursive ⟨"Tree"⟩
def branch : Ty := .recursive ⟨"Branch"⟩

def nodeFields : Fields := .ofList [plain "value" .u8, plain "children" (.vector (.boxed node))]
def treeCases : Cases := .ofList [("Leaf", .u8), ("Branch", branch)]
def branchFields : Fields := .ofList [field "kids" { enumGroup := some "Tree" } (.vector tree)]

/-- A name that is not declared stands for a union without cases. -/
def definition (name : String) : Definition :=
  if name = "Node" then .record .named nodeFields rfl
  else if name = "Tree" then .union treeCases
  else if name = "Branch" then .record .named branchFields rfl
  else .union .nil

/-- No declared type has a default of its own, and keys are compared in their derived order. -/
instance declarations : Declarations where
  definition := definition
  default? _ := none
  compare := @Value.lexCompare ⟨definition⟩

/-! ## Names -/

/-- The declared types by name. -/
def types : List (String × Ty) :=
  [("Transfer", transfer), ("Vote", vote), ("Stake", stake), ("Ping", ping), ("Record", record),
    ("Profile", profile), ("Quote", quote), ("Account", account), ("Forward", forward), ("Pair", pair),
    ("Marker", marker), ("Empty", empty), ("Hidden", hidden), ("Tagged", tagged),
    ("Tagged<Marker>", tagged), ("Outer", outer), ("Node", node), ("Ledger", ledger),
    ("Coin", coin), ("Digest", digest), ("Symbol", symbol), ("Session", session), ("Lens", lens),
    ("Options", options), ("Msg", msg), ("Packet", packet), ("Prim", prim), ("Twin", twin),
    ("Envelope", envelope), ("Batch", batch), ("Loose", loose), ("Deep", deep), ("Frame", frame),
    ("Nest", nest), ("Tree", tree), ("Branch", branch),
    ("Slot<u16>", slot .u16), ("Slot<u8>", slot .u8),
    ("Either<u16,String>", either .u16 .string), ("Either<u8,String>", either .u8 .string)]

/-- The types that variants may be given as payload, by name. -/
def payloads : List (String × Ty) :=
  [("u8", .u8), ("u16", .u16), ("u32", .u32), ("u128", .u128), ("bool", .bool), ("String", .string),
    ("Vec<u8>", .vector .u8), ("()", .unit), ("Option<u16>", .option .u16), ("(u8,u16)", .tuple [.u8, .u16]),
    ("BTreeMap<u8,u16>", .map .byKey .u8 .u16), ("BTreeSet<String>", .set .byKey .string),
    ("Box<Envelope>", .boxed envelope), ("Vec<Msg>", .vector msg)] ++ types

/-- A container with the variants by which it describes itself. -/
structure Entry where
  name : String
  variants : List Variant

def containers : List Entry :=
  [⟨"Envelope", [⟨"Msg", 0, transfer⟩, ⟨"Msg", 1, vote⟩]⟩,
    ⟨"Batch", [⟨"Msg", 0, transfer⟩, ⟨"Msg", 1, vote⟩, ⟨"Msg", 2, stake⟩, ⟨"Gov", 7, vote⟩]⟩,
    ⟨"Loose", [⟨"Msg", 1, vote⟩]⟩,
    ⟨"Deep", [⟨"Msg", -1, transfer⟩, ⟨"Msg", 2147483647, vote⟩, ⟨"Msg", -2147483648, stake⟩]⟩,
    ⟨"Branch", [⟨"Tree", 1, .u8⟩, ⟨"Tree", 2, branch⟩]⟩,
    ⟨"Slot<u16>", [⟨"Side", 10, .u16⟩, ⟨"Side", 20, .string⟩]⟩,
    ⟨"Slot<u8>", [⟨"Side", 5, .u8⟩, ⟨"Side", 20, .string⟩]⟩,
    ⟨"Frame", [⟨"Packet", 4, ping⟩]⟩,
    ⟨"C0", []⟩, ⟨"C1", []⟩, ⟨"C2", []⟩]

def type? (name : String) : Option Ty := types.lookup name

def payload? (name : String) : Option Ty := payloads.lookup name

/-- The variants of a container; a name that is not in the catalogue has none. -/
def variantsOf (name : String) : List Variant := ((containers.find? (·.name == name)).map (·.variants)).getD []

end Catalogue
end CanonicalWire
