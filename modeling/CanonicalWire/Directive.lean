import CanonicalWire.Text

/-!
# Field directives

A field may declare that it is optional, that it is skipped, that it has a fixed length, and the enum
group of the unions in it. A declaration is written as tokens between commas, each a flag or a key and a
value around its first equals sign. Tokens that are not understood are kept in order and have no effect.
-/

namespace CanonicalWire

/-- How a declaration is malformed. -/
inductive DirectiveError where
  | missingValue (key : String)
  | unexpectedValue (key value : String)
  | invalidLength (value : String)
  | duplicate (key : String)
deriving DecidableEq, Repr

namespace DirectiveError

def message : DirectiveError → String
  | .missingValue key => s!"Directive '{key}' requires a value"
  | .unexpectedValue key value => s!"Directive '{key}' is a flag and takes no value, got '{value}'"
  | .invalidLength value => s!"Invalid length '{value}' in len directive"
  | .duplicate key => s!"Directive '{key}' is declared more than once"

end DirectiveError

/-- The directives of one field. -/
structure Directives where
  optional : Bool := false
  skip : Bool := false
  fixedLen : Option Nat := none
  enumGroup : Option String := none
  /-- Tokens that are not understood, in order. -/
  unknown : List (String × Option String) := []
deriving DecidableEq, Repr

/-- One token of a declaration: a key, and a value if there is an equals sign. -/
structure Token where
  key : String
  value : Option String
deriving DecidableEq, Repr

namespace Token

/-- Splits a text at its first equals sign; key and value have no white space at their ends. -/
def ofChars (cs : List Char) : Token :=
  match splitFirst? '=' cs with
  | some (key, value) => ⟨String.ofList (trim key), some (String.ofList (trim value))⟩
  | none => ⟨String.ofList cs, none⟩

end Token

/-- The tokens of a declaration; blank ones are dropped. -/
def tokens (declaration : String) : List Token :=
  (((splitParts ',' declaration.toList).map trim).filter (· ≠ [])).map Token.ofChars

namespace Directives

/-- A flag takes no value and is set once. -/
def readFlag (token : Token) (set : Bool) : Except DirectiveError Bool :=
  match token.value with
  | some value => .error (.unexpectedValue token.key value)
  | none => if set then .error (.duplicate token.key) else .ok true

/-- The value that a key needs. -/
def readValue (token : Token) : Except DirectiveError String :=
  match token.value with
  | some value => if value = "" then .error (.missingValue token.key) else .ok value
  | none => .error (.missingValue token.key)

/-- What one more token says. A missing or unexpected value is reported before a repetition, a
repetition before a length that cannot be read. -/
def add (d : Directives) (token : Token) : Except DirectiveError Directives :=
  if token.key = "optional" then do
    let optional ← readFlag token d.optional
    return { d with optional := optional }
  else if token.key = "skip" then do
    let skip ← readFlag token d.skip
    return { d with skip := skip }
  else if token.key = "len" then do
    let value ← readValue token
    if d.fixedLen.isSome then throw (.duplicate token.key)
    match readLength? value.toList with
    | some n => return { d with fixedLen := some n }
    | none => throw (.invalidLength value)
  else if token.key = "enum" then do
    let value ← readValue token
    if d.enumGroup.isSome then throw (.duplicate token.key)
    return { d with enumGroup := some value }
  else
    return { d with unknown := d.unknown ++ [(token.key, token.value)] }

/-- Reads a declaration such as `optional,len=32`. -/
def parse (declaration : String) : Except DirectiveError Directives :=
  (tokens declaration).foldlM add {}

/-- Nothing is declared. -/
def isEmpty (d : Directives) : Bool := d == {}

end Directives

/-- What is known of a field's directives before a value is looked at: the directives, or the fault that
is raised when the field is reached. -/
inductive Declaration where
  | valid (d : Directives)
  | faulty (e : DirectiveError)
deriving DecidableEq, Repr

namespace Declaration

/-- Nothing is declared. -/
def none : Declaration := .valid {}

def ofText (declaration : String) : Declaration :=
  match Directives.parse declaration with
  | .ok d => .valid d
  | .error e => .faulty e

def get : Declaration → Except DirectiveError Directives
  | .valid d => .ok d
  | .faulty e => .error e

/-- The field is skipped. -/
def skips : Declaration → Bool
  | .valid d => d.skip
  | .faulty _ => false

/-- The field is written and read, so it has to hold something. -/
def holds : Declaration → Bool
  | .valid d => !d.skip
  | .faulty _ => false

theorem holds_eq_false_of_skips {declared : Declaration} (hskips : declared.skips = true) :
    declared.holds = false := by
  cases declared with
  | valid d => simpa [holds, skips] using hskips
  | faulty e => rfl

end Declaration
end CanonicalWire
