import CanonicalWire.Derive.Item

/-!
# Directives from attributes

Reads the directives of a field from its attributes, when an encoder or decoder is derived. The directives
are those that a declaration gives at run time. Here a key that is not understood may not be repeated
either.
-/

namespace CanonicalWire.Derive

/-- The path of the attributes that declare directives. -/
def attributePath : String := "canon"

/-- The directives read so far, and the keys seen. -/
structure Reading where
  directives : Directives := {}
  seen : List String := []
deriving DecidableEq, Repr

namespace Reading

/-- The length that an integer literal gives. -/
def lengthOf (negative : Bool) (magnitude : Nat) : Except DeriveError Nat :=
  if negative then .error .negativeLength
  else if magnitude < lengthBound then .ok magnitude
  else .error .lengthTooLarge

/-- What one more entry says. -/
def interpret (d : Directives) (key : String) (literal : Option Literal) : Except DeriveError Directives :=
  if key = "optional" then
    match literal with
    | none => .ok { d with optional := true }
    | some _ => .error (.unexpectedValue key)
  else if key = "skip" then
    match literal with
    | none => .ok { d with skip := true }
    | some _ => .error (.unexpectedValue key)
  else if key = "len" then
    match literal with
    | some (.integer negative _ magnitude) =>
        (lengthOf negative magnitude).map fun n => { d with fixedLen := some n }
    | _ => .error .lengthNeeded
  else if key = "enum" then
    match literal with
    | some (.text group) =>
        if group = "" then .error .emptyGroup else .ok { d with enumGroup := some group }
    | _ => .error .groupNeeded
  else .ok { d with unknown := d.unknown ++ [(key, literal.map Literal.kept)] }

/-- One more entry. A key seen before is refused whatever its literal is. -/
def add (r : Reading) (entry : String × Option Literal) : Except DeriveError Reading :=
  if r.seen.contains entry.1 then .error (.duplicate entry.1)
  else (interpret r.directives entry.1 entry.2).map fun d => ⟨d, r.seen ++ [entry.1]⟩

/-- One more attribute. Attributes with another path say nothing. -/
def addAttribute (r : Reading) (a : Attribute) : Except DeriveError Reading :=
  if a.path = attributePath then
    match a.entries with
    | some entries => entries.foldlM add r
    | none => .error (.entriesNeeded a.path)
  else .ok r

end Reading

namespace Field

/-- The directives of a field. Only options may be optional. -/
def directives (f : Field) : Except DeriveError Directives := do
  let r ← f.attributes.foldlM Reading.addAttribute {}
  if r.directives.optional && !isOptionType f.type then throw .optionNeeded
  return r.directives

end Field
end CanonicalWire.Derive
