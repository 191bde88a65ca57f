import CanonicalWire.Text

/-!
# Texts of types, parameters and predicates

Declarations name types, generic parameters and predicates by texts. Such a text is a list of lexemes: words,
quoted literals, the two arrows of two characters, and single symbols. White space only separates. Angle
brackets are brackets only where they pair up; inside other brackets they may be operators.
-/

namespace CanonicalWire.Derive

inductive Lexeme where
  | word (w : List Char)
  /-- With its quotation marks. -/
  | quoted (cs : List Char)
  | arrow
  | colons
  | symbol (c : Char)
deriving DecidableEq, Repr

namespace Lexeme

/-- Characters of words: letters, digits, underscores, and the hash of a raw name. -/
def isWordChar (c : Char) : Bool :=
  c.isAlphanum || c == '_' || c == '#' || (127 < c.toNat && !isWhiteSpace c)

/-- A hash begins no word, and a tick that begins no literal begins a lifetime. -/
def beginsWord (c : Char) : Bool := (isWordChar c && c != '#') || c == '\''

/-- What stands up to the first quotation mark that no backslash takes away, the mark included, and what
follows it. -/
def splitQuoted (mark : Char) : List Char → List Char × List Char
  | [] => ([], [])
  | '\\' :: c :: cs => ('\\' :: c :: (splitQuoted mark cs).1, (splitQuoted mark cs).2)
  | c :: cs => if c = mark then ([c], cs) else (c :: (splitQuoted mark cs).1, (splitQuoted mark cs).2)

/-- The lexeme that a character begins, if it is not white space, and what follows it. A tick begins a
character literal if it is closed after one character, and a lifetime otherwise. -/
def next (c : Char) (cs : List Char) : Option Lexeme × List Char :=
  if isWhiteSpace c then (none, cs)
  else
    match c, cs with
    | '-', '>' :: rest => (some .arrow, rest)
    | ':', ':' :: rest => (some .colons, rest)
    | '"', _ => (some (.quoted ('"' :: (splitQuoted '"' cs).1)), (splitQuoted '"' cs).2)
    | '\'', '\\' :: _ => (some (.quoted ('\'' :: (splitQuoted '\'' cs).1)), (splitQuoted '\'' cs).2)
    | '\'', x :: '\'' :: rest => (some (.quoted ['\'', x, '\'']), rest)
    | _, _ =>
        if beginsWord c then (some (.word (c :: cs.takeWhile isWordChar)), cs.dropWhile isWordChar)
        else (some (.symbol c), cs)

theorem length_splitQuoted_le (mark : Char) (cs : List Char) : (splitQuoted mark cs).2.length ≤ cs.length := by
  fun_induction splitQuoted mark cs with
  | case1 => exact Nat.le_refl _
  | case2 c cs ih => exact Nat.le_succ_of_le (Nat.le_succ_of_le ih)
  | case3 cs => exact Nat.le_succ _
  | case4 c cs _ _ ih => exact Nat.le_succ_of_le ih

theorem length_dropWhile_le (p : Char → Bool) (cs : List Char) : (cs.dropWhile p).length ≤ cs.length :=
  (List.dropWhile_suffix p).length_le

/-- Reading a lexeme leaves no more than what stood behind its first character. -/
theorem length_next_le (c : Char) (cs : List Char) : (next c cs).2.length ≤ cs.length := by
  unfold next
  split
  · exact Nat.le_refl _
  · split
    · exact Nat.le_succ _
    · exact Nat.le_succ _
    · exact length_splitQuoted_le _ _
    · exact length_splitQuoted_le _ _
    · exact Nat.le_succ_of_le (Nat.le_succ _)
    · split
      · exact length_dropWhile_le _ _
      · exact Nat.le_refl _

def ofChars : List Char → List Lexeme
  | [] => []
  | c :: cs => (next c cs).1.toList ++ ofChars (next c cs).2
termination_by cs => cs.length
decreasing_by exact Nat.lt_succ_of_le (length_next_le c cs)

def ofText (s : String) : List Lexeme := ofChars s.toList

/-- The text of a word. -/
def word? : Lexeme → Option String
  | .word w => some (String.ofList w)
  | _ => none

def chars : Lexeme → List Char
  | .word w => w
  | .quoted cs => cs
  | .arrow => ['-', '>']
  | .colons => [':', ':']
  | .symbol c => [c]

/-- Puts lexemes one after the other, with a space between two words. -/
def render : List Lexeme → List Char
  | [] => []
  | .word w :: .word v :: ls => w ++ ' ' :: render (.word v :: ls)
  | l :: ls => l.chars ++ render ls

def text (ls : List Lexeme) : String := String.ofList (render ls)

/-- The brackets that are open after a lexeme, innermost first. A closing angle bracket closes nothing
inside other brackets than its own; any other closing bracket ends what was opened inside it as well. -/
def openAfter (opened : List Char) : Lexeme → List Char
  | .symbol '<' => '<' :: opened
  | .symbol '(' => '(' :: opened
  | .symbol '[' => '[' :: opened
  | .symbol '\x7b' => '\x7b' :: opened
  | .symbol '>' => if opened.head? = some '<' then opened.drop 1 else opened
  | .symbol ')' | .symbol ']' | .symbol '\x7d' => (opened.dropWhile (· == '<')).drop 1
  | _ => opened

/-- The parts between separators that stand outside all brackets. -/
def splitTop (separator : Lexeme) (opened : List Char) : List Lexeme → List (List Lexeme)
  | [] => [[]]
  | l :: ls =>
      if opened = [] ∧ l = separator then [] :: splitTop separator [] ls
      else
        match splitTop separator (openAfter opened l) ls with
        | [] => [[l]]
        | part :: parts => (l :: part) :: parts

/-- What stands before the first separator outside all brackets. -/
def beforeTop (separator : Lexeme) (ls : List Lexeme) : List Lexeme := (splitTop separator [] ls).head?.getD []

/-- The lexemes outside all brackets, the brackets left out. -/
def outside (opened : List Char) : List Lexeme → List Lexeme
  | [] => []
  | l :: ls =>
      if opened = [] ∧ openAfter opened l = [] then l :: outside [] ls else outside (openAfter opened l) ls

/-- The attributes in front, each a hash and a group in square brackets, and what follows them. -/
def splitAttributes (opened : List Char) : List Lexeme → List Lexeme × List Lexeme
  | [] => ([], [])
  | l :: ls =>
      if opened ≠ [] ∨ l = .symbol '#' ∨ l = .symbol '[' then
        (l :: (splitAttributes (openAfter opened l) ls).1, (splitAttributes (openAfter opened l) ls).2)
      else ([], l :: ls)

end Lexeme

/-- Words that begin a type which is not a path. -/
def notPaths : List String := ["dyn", "impl", "fn", "for", "unsafe", "extern", "_"]

/-- What a path begins with: a name, two colons, or a type in angle brackets. -/
def opensPath : List Lexeme → Bool
  | .word w :: _ => !notPaths.contains (String.ofList w)
  | .colons :: _ => true
  | .symbol '<' :: _ => true
  | _ => false

/-- What stands outside the brackets of a path. -/
def isName : Lexeme → Bool
  | .word _ | .colons => true
  | _ => false

/-- The last segment of a type that is a path: words with two colons between them, each perhaps with
arguments in brackets, before which two colons may stand as well, and perhaps an arrow with a result type.
Other types have none; a sum of bounds is another type. -/
def lastSegment? (type : String) : Option String :=
  let ls := Lexeme.ofText type
  let path := Lexeme.beforeTop .arrow ls
  let names := Lexeme.outside [] path
  let isSum := (Lexeme.outside [] ls).contains (.symbol '+')
  if opensPath path && names.all isName && !isSum then (names.filterMap Lexeme.word?).getLast? else none

/-- The type is written as an option: a path whose last segment is `Option`. -/
def isOptionType (type : String) : Bool := lastSegment? type == some "Option"

/-- A generic parameter of an item. -/
inductive Parameter where
  | lifetime (name text : String)
  | const (name text : String)
  | type (name : String) (bounds : List String)
deriving DecidableEq, Repr

namespace Parameter

def name : Parameter → String
  | .lifetime name _ => name
  | .const name _ => name
  | .type name _ => name

def isLifetime : Parameter → Bool
  | .lifetime _ _ => true
  | _ => false

/-- The parts between separators, as texts, without empty ones. -/
def texts (separator : Char) (ls : List Lexeme) : List String :=
  ((Lexeme.splitTop (.symbol separator) [] ls).filter (· ≠ [])).map Lexeme.text

/-- Reads a parameter. A default, after an equals sign, is dropped, and so is a colon without bounds. -/
def ofText (s : String) : Parameter :=
  let ls := Lexeme.beforeTop (.symbol '=') (Lexeme.ofText s)
  let (attributes, own) := Lexeme.splitAttributes [] ls
  match own with
  | .word ('\'' :: w) :: bounds =>
      let written := if bounds = [.symbol ':'] then [] else bounds
      .lifetime (String.ofList ('\'' :: w)) (Lexeme.text (attributes ++ .word ('\'' :: w) :: written))
  | .word ['c', 'o', 'n', 's', 't'] :: .word w :: _ => .const (String.ofList w) (Lexeme.text ls)
  | .word w :: .symbol ':' :: bounds => .type (String.ofList w) (texts '+' bounds)
  | own => .type (Lexeme.text own) []

/-- A parameter with more bounds, if it is a type. -/
def addBounds (bounds : List String) : Parameter → Parameter
  | .type name own => .type name (own ++ bounds)
  | p => p

end Parameter

/-- The predicates of a where clause. -/
def predicates (clause : String) : List String := Parameter.texts ',' (Lexeme.ofText clause)

end CanonicalWire.Derive
