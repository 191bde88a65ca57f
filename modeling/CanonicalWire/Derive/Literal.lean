import CanonicalWire.Text

/-!
# Literals of attributes

A literal is a string, an integer or something else. An integer has digits in base 2, 8, 10 or 16 among which
underscores do not count, perhaps a minus sign in front and a type behind; a point, or an exponent in base
10, makes it a fraction. The minus sign is a lexeme of its own.
-/

namespace CanonicalWire.Derive

inductive Literal where
  | text (value : String)
  /-- The spelling is the one without sign. -/
  | integer (negative : Bool) (spelling : String) (magnitude : Nat)
  | other (negative : Bool) (spelling : String)
deriving DecidableEq, Repr

namespace Literal

/-- The value of a digit; letters are digits in bases above ten only. -/
def digit? (base : Nat) (c : Char) : Option Nat :=
  if isDigit c then some (c.toNat - 48)
  else if 10 < base ∧ 'a' ≤ c ∧ c ≤ 'f' then some (c.toNat - 87)
  else if 10 < base ∧ 'A' ≤ c ∧ c ≤ 'F' then some (c.toNat - 55)
  else none

/-- What follows the letter of an exponent makes it one: a sign or a digit, after any underscores. -/
def isExponent (seen : Bool) : List Char → Bool
  | [] => seen
  | c :: cs =>
      if c = '_' then isExponent seen cs
      else if c = '-' ∨ c = '+' then true
      else if isDigit c then isExponent true cs
      else seen

/-- The number that digits denote, up to the type behind them; nothing if they are not of an integer. -/
def magnitude? (base value : Nat) (seen : Bool) : List Char → Option Nat
  | [] => if seen then some value else none
  | c :: cs =>
      if c = '_' then magnitude? base value seen cs
      else
        match digit? base c with
        | some d => if d < base then magnitude? base (base * value + d) true cs else none
        | none =>
            if base = 10 ∧ c = '.' then none
            else if base = 10 ∧ (c = 'e' ∨ c = 'E') ∧ isExponent false cs then none
            else if seen then some value else none

/-- The number that the spelling of an integer without sign denotes. -/
def unsigned? : List Char → Option Nat
  | '0' :: 'x' :: cs => magnitude? 16 0 false cs
  | '0' :: 'o' :: cs => magnitude? 8 0 false cs
  | '0' :: 'b' :: cs => magnitude? 2 0 false cs
  | c :: cs => if isDigit c then magnitude? 10 0 false (c :: cs) else none
  | [] => none

/-- Whether a minus sign stands in front, and what follows it. White space may stand around it. -/
def splitSign (cs : List Char) : Bool × List Char :=
  match trim cs with
  | '-' :: digits => (true, trim digits)
  | digits => (false, digits)

/-- Reads a literal that is not a string. -/
def ofSpelling (s : String) : Literal :=
  let (negative, digits) := splitSign s.toList
  match unsigned? digits with
  | some n => .integer negative (String.ofList digits) n
  | none => .other negative (String.ofList digits)

/-- The lexemes of a literal, with a space between two. -/
def spaced (negative : Bool) (spelling : String) : String := if negative then "- " ++ spelling else spelling

/-- What is kept of a literal that is not understood: a string's value, else the lexemes. -/
def kept : Literal → String
  | .text value => value
  | .integer negative spelling _ => spaced negative spelling
  | .other negative spelling => spaced negative spelling

end Literal
end CanonicalWire.Derive
