import SemanticQuery.Names
import SemanticQuery.Text.Json

/-!
Reading of JSON texts. A number without fraction and exponent is an integer as long as it fits 64
bits, with or without a sign; every other number is a float.
-/

namespace SemanticQuery.Json

/-- What is read from a text, and the rest of it. -/
abbrev Reading (α : Type) := Option (α × List Char)

def isSpace (c : Char) : Bool := c == ' ' || c == '\n' || c == '\t' || c == '\r'

def skipSpace (cs : List Char) : List Char := cs.dropWhile isSpace

def hexDigit? (c : Char) : Option Nat :=
  if c.isDigit then some (c.toNat - '0'.toNat)
  else if 'a' ≤ c ∧ c ≤ 'f' then some (c.toNat - 'a'.toNat + 10)
  else if 'A' ≤ c ∧ c ≤ 'F' then some (c.toNat - 'A'.toNat + 10)
  else none

def unit? (a b c d : Char) : Option Nat := do
  return ((← hexDigit? a) * 16 + (← hexDigit? b)) * 256 + ((← hexDigit? c) * 16 + (← hexDigit? d))

/-- The character of a code unit that is none of the halves of a pair. -/
def unpaired? (unit : Nat) : Option Char :=
  if unit < 0xd800 ∨ 0xdfff < unit then some (Char.ofNat unit) else none

def paired? (high low : Nat) : Option Char :=
  if 0xd800 ≤ high ∧ high < 0xdc00 ∧ 0xdc00 ≤ low ∧ low < 0xe000 then
    some (Char.ofNat (0x10000 + (high - 0xd800) * 0x400 + (low - 0xdc00)))
  else none

def escaped? : Char → Option Char
  | '"' => some '"'
  | '\\' => some '\\'
  | '/' => some '/'
  | 'b' => some '\x08'
  | 'f' => some '\x0c'
  | 'n' => some '\n'
  | 'r' => some '\r'
  | 't' => some '\t'
  | _ => none

def before (c : Char) (r : Reading (List Char)) : Reading (List Char) :=
  r.map fun (cs, rest) => (c :: cs, rest)

def stringRest : List Char → Reading (List Char)
  | [] => none
  | '"' :: cs => some ([], cs)
  | '\\' :: 'u' :: a :: b :: c :: d :: cs =>
    match (unit? a b c d).bind unpaired?, cs with
    | some char, cs => before char (stringRest cs)
    | none, '\\' :: 'u' :: e :: f :: g :: h :: cs =>
      match unit? a b c d, unit? e f g h with
      | some high, some low =>
        match paired? high low with
        | some char => before char (stringRest cs)
        | none => none
      | _, _ => none
    | none, _ => none
  | '\\' :: c :: cs =>
    match escaped? c with
    | some char => before char (stringRest cs)
    | none => none
  | c :: cs => if c.toNat < 0x20 then none else before c (stringRest cs)

def string? : List Char → Reading String
  | '"' :: cs => (stringRest cs).map fun (s, rest) => (String.ofList s, rest)
  | _ => none

def digits? (cs : List Char) : Reading (List Char) :=
  match cs.takeWhile Char.isDigit with
  | [] => none
  | ds => some (ds, cs.dropWhile Char.isDigit)

def ofDigits (ds : List Char) : Nat := ds.foldl (fun n c => n * 10 + (c.toNat - '0'.toNat)) 0

/-- The digits before the point, without leading zeros. -/
def whole? (cs : List Char) : Reading (List Char) :=
  match cs with
  | '0' :: rest => some (['0'], rest)
  | cs => digits? cs

def fraction? : List Char → Reading (Option (List Char))
  | '.' :: cs => (digits? cs).map fun (ds, rest) => (some ds, rest)
  | cs => some (none, cs)

def exponent? : List Char → Reading (Option Int)
  | c :: cs =>
    if c == 'e' || c == 'E' then
      let (negative, cs) :=
        match cs with
        | '+' :: cs => (false, cs)
        | '-' :: cs => (true, cs)
        | cs => (false, cs)
      (digits? cs).map fun (ds, rest) =>
        (some (if negative then -(ofDigits ds : Int) else ofDigits ds), rest)
    else some (none, c :: cs)
  | [] => some (none, [])

/-- The float `mantissa * 10 ^ exponent`, rounded to the nearest, or nothing if it is too large. A
number below `10 ^ -400` is zero, and the power of ten is not taken for it. -/
def scientific? (negative : Bool) (mantissa : Nat) (exponent : Int) : Option Float :=
  let magnitude := (Nat.toDigits 10 mantissa).length + exponent
  let x :=
    if mantissa == 0 || magnitude < -400 then some 0.0
    else if 400 < magnitude then none
    else some (Float.ofScientific mantissa (exponent < 0) exponent.natAbs)
  x.bind fun x => if x.isInf then none else some (if negative then -x else x)

/-- The value of a number. A negative zero is a float. -/
def numberOf? (negative : Bool) (whole : List Char) (fraction : Option (List Char))
    (exponent : Option Int) : Option Json :=
  let n := ofDigits whole
  match fraction, exponent with
  | none, none =>
    if !negative && n < Nat.pow 2 64 then some (.int n)
    else if negative && 0 < n && n ≤ Nat.pow 2 63 then some (.int (-n))
    else (scientific? negative n 0).map .float
  | fraction, exponent =>
    let ds := fraction.getD []
    (scientific? negative (ofDigits (whole ++ ds)) (exponent.getD 0 - ds.length)).map .float

def number? (cs : List Char) : Option (Json × List Char) := do
  let (negative, cs) :=
    match cs with
    | '-' :: cs => (true, cs)
    | cs => (false, cs)
  let (whole, cs) ← whole? cs
  let (fraction, cs) ← fraction? cs
  let (exponent, cs) ← exponent? cs
  return (← numberOf? negative whole fraction exponent, cs)

mutual

/-- A value. The number bounds the steps of the reader. -/
def value? : (steps : Nat) → List Char → Reading Json
  | 0, _ => none
  | steps + 1, cs =>
    match cs with
    | 'n' :: 'u' :: 'l' :: 'l' :: rest => some (.null, rest)
    | 't' :: 'r' :: 'u' :: 'e' :: rest => some (.bool true, rest)
    | 'f' :: 'a' :: 'l' :: 's' :: 'e' :: rest => some (.bool false, rest)
    | '"' :: rest => (stringRest rest).map fun (s, rest) => (.string (String.ofList s), rest)
    | '[' :: rest =>
      match skipSpace rest with
      | ']' :: rest => some (.array [], rest)
      | rest => (items? steps rest).map fun (items, rest) => (.array items, rest)
    | '\x7b' :: rest =>
      match skipSpace rest with
      | '\x7d' :: rest => some (.object [], rest)
      | rest => (members? steps rest).map fun (members, rest) => (.object members, rest)
    | cs => number? cs

def items? : (steps : Nat) → List Char → Reading (List Json)
  | 0, _ => none
  | steps + 1, cs =>
    match value? steps cs with
    | none => none
    | some (item, rest) =>
      match skipSpace rest with
      | ']' :: rest => some ([item], rest)
      | ',' :: rest =>
        (items? steps (skipSpace rest)).map fun (items, rest) => (item :: items, rest)
      | _ => none

def members? : (steps : Nat) → List Char → Reading (List (String × Json))
  | 0, _ => none
  | steps + 1, cs =>
    match string? cs with
    | none => none
    | some (key, rest) =>
      match skipSpace rest with
      | ':' :: rest =>
        match value? steps (skipSpace rest) with
        | none => none
        | some (value, rest) =>
          match skipSpace rest with
          | '\x7d' :: rest => some ([(key, value)], rest)
          | ',' :: rest =>
            (members? steps (skipSpace rest)).map fun (members, rest) =>
              ((key, value) :: members, rest)
          | _ => none
      | _ => none

end

def read? (text : String) : Option Json :=
  let cs := skipSpace text.toList
  match value? (2 * cs.length + 1) cs with
  | some (value, rest) => if (skipSpace rest).isEmpty then some value else none
  | none => none

def member? (key : String) : Json → Option Json
  | .object members => members.reverse.lookup key
  | _ => none

mutual

/-- The same value with the members of every object in the order of their keys, the last of each
key. -/
def sorted : Json → Json
  | .array items => .array (sortedItems items)
  | .object members => .object (NameMap.ofList (sortedMembers members)).entries
  | j => j

def sortedItems : List Json → List Json
  | [] => []
  | item :: items => sorted item :: sortedItems items

def sortedMember : String × Json → String × Json
  | (key, value) => (key, sorted value)

def sortedMembers : List (String × Json) → List (String × Json)
  | [] => []
  | member :: members => sortedMember member :: sortedMembers members

end

end SemanticQuery.Json
