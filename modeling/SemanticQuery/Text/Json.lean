import SemanticQuery.Text.Decimal

/-!
JSON values and their compact text. The text is what fingerprints are taken of, so its layout is
fixed: no blanks, members in the order given, control characters escaped, all else verbatim.
-/

namespace SemanticQuery

inductive Json where
  | null
  | bool (value : Bool)
  | int (value : Int)
  | float (value : Float)
  | string (value : String)
  | array (items : List Json)
  | object (members : List (String × Json))
  deriving Inhabited

namespace Json

/-- Exponents from -5 to 15 are positional, larger ones carry their sign, and what is not a number
is `null`. -/
def number : FloatFormat where
  least := -5
  beyond := 16
  plus := true
  tie := .toEven
  nan := "null"
  infinite := "null"
  negativeInfinite := "null"

def escape (c : Char) : List Char :=
  match c with
  | '"' => ['\\', '"']
  | '\\' => ['\\', '\\']
  | '\x08' => ['\\', 'b']
  | '\x0c' => ['\\', 'f']
  | '\n' => ['\\', 'n']
  | '\r' => ['\\', 'r']
  | '\t' => ['\\', 't']
  | c =>
    if c.toNat < 0x20 then
      ['\\', 'u', '0', '0', Nat.digitChar (c.toNat / 16), Nat.digitChar (c.toNat % 16)]
    else [c]

def quoteOnto (rest : List Char) : List Char → List Char
  | [] => '"' :: rest
  | c :: cs => escape c ++ quoteOnto rest cs

def quote (s : String) (rest : List Char) : List Char := '"' :: quoteOnto rest s.toList

def integer (n : Int) : List Char :=
  if n < 0 then '-' :: Nat.toDigits 10 n.natAbs else Nat.toDigits 10 n.natAbs

mutual

def write (rest : List Char) : Json → List Char
  | .null => 'n' :: 'u' :: 'l' :: 'l' :: rest
  | .bool true => 't' :: 'r' :: 'u' :: 'e' :: rest
  | .bool false => 'f' :: 'a' :: 'l' :: 's' :: 'e' :: rest
  | .int n => integer n ++ rest
  | .float x => number.render x ++ rest
  | .string s => quote s rest
  | .array [] => '[' :: ']' :: rest
  | .array (item :: items) => '[' :: write (writeItems rest items) item
  | .object [] => '\x7b' :: '\x7d' :: rest
  | .object (member :: members) => '\x7b' :: writeMember (writeMembers rest members) member

/-- The items after the first, each led by a comma, and the closing bracket. -/
def writeItems (rest : List Char) : List Json → List Char
  | [] => ']' :: rest
  | item :: items => ',' :: write (writeItems rest items) item

def writeMember (rest : List Char) : String × Json → List Char
  | (key, value) => quote key (':' :: write rest value)

/-- The members after the first, each led by a comma, and the closing brace. -/
def writeMembers (rest : List Char) : List (String × Json) → List Char
  | [] => '\x7d' :: rest
  | member :: members => ',' :: writeMember (writeMembers rest members) member

end

def compact (j : Json) : String := String.ofList (j.write [])

def ofOption (f : α → Json) : Option α → Json
  | none => .null
  | some a => f a

def ofList (f : α → Json) (xs : List α) : Json := .array (xs.map f)

def tagged (label : String) (value : Json) : Json := .object [(label, value)]

def ofNat (n : Nat) : Json := .int n

end Json

end SemanticQuery
