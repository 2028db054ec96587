import SemanticQuery.Toml.Scalar

/-!
Quoted strings. A basic string has escapes, a literal one has none; either may span lines if it is
opened by three quotes.
-/

namespace SemanticQuery.Toml

/-- What is read from a text, and the rest of it. -/
abbrev Reading (α : Type) := Option (α × List Char)

def isBlank (c : Char) : Bool := c == ' ' || c == '\t'

/-- Whether a character may stand in strings and comments: no control character but the tab. -/
def isPlain (c : Char) : Bool := c == '\t' || (0x20 ≤ c.toNat && c.toNat != 0x7f)

def escaped? : Char → Option Char
  | 'b' => some '\x08'
  | 't' => some '\t'
  | 'n' => some '\n'
  | 'f' => some '\x0c'
  | 'r' => some '\r'
  | 'e' => some '\x1b'
  | '"' => some '"'
  | '\\' => some '\\'
  | _ => none

def codePoint? (cs : List Char) : Option Char :=
  if cs.all (isDigitOf 16) then
    let n := ofDigits 16 cs
    if n < 0xd800 ∨ (0xdfff < n ∧ n < 0x110000) then some (Char.ofNat n) else none
  else none

def before (c : Option Char) (r : Reading (List Char)) : Reading (List Char) :=
  match c, r with
  | some c, some (cs, rest) => some (c :: cs, rest)
  | _, _ => none

def basic : List Char → Reading (List Char)
  | [] => none
  | '"' :: cs => some ([], cs)
  | '\\' :: 'x' :: a :: b :: cs => before (codePoint? [a, b]) (basic cs)
  | '\\' :: 'u' :: a :: b :: c :: d :: cs => before (codePoint? [a, b, c, d]) (basic cs)
  | '\\' :: 'U' :: a :: b :: c :: d :: e :: f :: g :: h :: cs =>
    before (codePoint? [a, b, c, d, e, f, g, h]) (basic cs)
  | '\\' :: c :: cs => before (escaped? c) (basic cs)
  | c :: cs => if isPlain c then before (some c) (basic cs) else none

def literal : List Char → Reading (List Char)
  | [] => none
  | '\'' :: cs => some ([], cs)
  | c :: cs => if isPlain c then before (some c) (literal cs) else none

def endsLine (cs : List Char) : Bool :=
  match cs.dropWhile isBlank with
  | '\n' :: _ | '\r' :: '\n' :: _ => true
  | _ => false

def isLineSpace (c : Char) : Bool := isBlank c || c == '\n' || c == '\r'

/-- The rest of a basic string that spans lines. A backslash at the end of a line swallows the
blanks and line ends after it, which is what `trimming` stands for. Up to two quotes may stand
before the closing ones. -/
def basicLines (trimming : Bool) : List Char → Reading (List Char)
  | [] => none
  | '"' :: '"' :: '"' :: '"' :: '"' :: cs => some (['"', '"'], cs)
  | '"' :: '"' :: '"' :: '"' :: cs => some (['"'], cs)
  | '"' :: '"' :: '"' :: cs => some ([], cs)
  | '\\' :: 'x' :: a :: b :: cs => before (codePoint? [a, b]) (basicLines false cs)
  | '\\' :: 'u' :: a :: b :: c :: d :: cs =>
    before (codePoint? [a, b, c, d]) (basicLines false cs)
  | '\\' :: 'U' :: a :: b :: c :: d :: e :: f :: g :: h :: cs =>
    before (codePoint? [a, b, c, d, e, f, g, h]) (basicLines false cs)
  | '\\' :: c :: cs =>
    if isLineSpace c then (if endsLine (c :: cs) then basicLines true cs else none)
    else before (escaped? c) (basicLines false cs)
  | '\r' :: '\n' :: cs =>
    if trimming then basicLines true cs else before (some '\n') (basicLines false cs)
  | c :: cs =>
    if trimming && (isBlank c || c == '\n') then basicLines true cs
    else if isPlain c || c == '\n' then before (some c) (basicLines false cs)
    else none

def literalLines : List Char → Reading (List Char)
  | [] => none
  | '\'' :: '\'' :: '\'' :: '\'' :: '\'' :: cs => some (['\'', '\''], cs)
  | '\'' :: '\'' :: '\'' :: '\'' :: cs => some (['\''], cs)
  | '\'' :: '\'' :: '\'' :: cs => some ([], cs)
  | '\r' :: '\n' :: cs => before (some '\n') (literalLines cs)
  | c :: cs => if isPlain c || c == '\n' then before (some c) (literalLines cs) else none

/-- A line end right after the opening quotes does not belong to the string. -/
def skipLineEnd : List Char → List Char
  | '\n' :: cs => cs
  | '\r' :: '\n' :: cs => cs
  | cs => cs

def quoted? : List Char → Reading String
  | '"' :: cs => (basic cs).map fun (s, rest) => (String.ofList s, rest)
  | '\'' :: cs => (literal cs).map fun (s, rest) => (String.ofList s, rest)
  | _ => none

def string? : List Char → Reading String
  | '"' :: '"' :: '"' :: cs =>
    (basicLines false (skipLineEnd cs)).map fun (s, rest) => (String.ofList s, rest)
  | '\'' :: '\'' :: '\'' :: cs =>
    (literalLines (skipLineEnd cs)).map fun (s, rest) => (String.ofList s, rest)
  | cs => quoted? cs

end SemanticQuery.Toml
