/-!
# Text

White space, parts of a text, and decimal numerals. Texts are lists of characters here.
-/

namespace CanonicalWire

/-- The code points with the property White_Space, as closed ranges. -/
def whiteSpaceRanges : List (Nat × Nat) :=
  [(0x09, 0x0D), (0x20, 0x20), (0x85, 0x85), (0xA0, 0xA0), (0x1680, 0x1680), (0x2000, 0x200A),
    (0x2028, 0x2029), (0x202F, 0x202F), (0x205F, 0x205F), (0x3000, 0x3000)]

def isWhiteSpace (c : Char) : Bool :=
  whiteSpaceRanges.any fun r => r.1 ≤ c.toNat && c.toNat ≤ r.2

/-- A text without the white space at its ends. -/
def trim (cs : List Char) : List Char :=
  ((cs.dropWhile isWhiteSpace).reverse.dropWhile isWhiteSpace).reverse

/-- The parts between the separators: one more than there are separators, so never none. -/
def splitParts (separator : Char) : List Char → List (List Char)
  | [] => [[]]
  | c :: cs =>
      if c = separator then [] :: splitParts separator cs
      else
        match splitParts separator cs with
        | [] => [[c]]
        | part :: parts => (c :: part) :: parts

/-- What stands before and after the first separator. -/
def splitFirst? (separator : Char) : List Char → Option (List Char × List Char)
  | [] => none
  | c :: cs =>
      if c = separator then some ([], cs)
      else (splitFirst? separator cs).map fun (before, after) => (c :: before, after)

def isDigit (c : Char) : Bool := '0' ≤ c && c ≤ '9'

/-- The number that decimal digits denote. -/
def decimalValue (cs : List Char) : Nat := cs.foldl (fun n c => 10 * n + (c.toNat - 48)) 0

/-- The number that a non-empty run of decimal digits denotes. -/
def readNat? (cs : List Char) : Option Nat :=
  if cs ≠ [] ∧ cs.all isDigit then some (decimalValue cs) else none

/-- Whether a minus sign stands in front, and what follows the sign if there is one. -/
def readSign : List Char → Bool × List Char
  | '-' :: cs => (true, cs)
  | '+' :: cs => (false, cs)
  | cs => (false, cs)

/-- The integer that decimal digits after an optional sign denote. -/
def readInt? (cs : List Char) : Option Int :=
  (readNat? (readSign cs).2).map fun n => if (readSign cs).1 then -(n : Int) else n

/-- Lengths are below this bound. -/
def lengthBound : Nat := UInt64.size

/-- A length: decimal digits, perhaps after one plus sign, that denote a number below the bound. -/
def readLength? (cs : List Char) : Option Nat :=
  let digits :=
    match cs with
    | '+' :: cs => cs
    | cs => cs
  (readNat? digits).filter (· < lengthBound)

end CanonicalWire
