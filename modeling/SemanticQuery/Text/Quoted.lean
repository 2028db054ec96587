import SemanticQuery.Text.Decimal
import SemanticQuery.Text.Invisible

/-!
Texts and numbers as messages show them: strings in quotes with their invisible characters escaped,
lists in brackets, floats in their shortest form.
-/

namespace SemanticQuery.Quoted

/-- Exponents from -4 to 15 are positional, and larger ones carry no plus sign. -/
def float : FloatFormat where
  least := -4
  beyond := 16
  plus := false
  tie := .upward
  nan := "NaN"
  infinite := "inf"
  negativeInfinite := "-inf"

/-- Quotes, backslashes and invisible characters are escaped, the latter by their code points. -/
def escape (c : Char) : List Char :=
  match c with
  | '\x00' => ['\\', '0']
  | '\t' => ['\\', 't']
  | '\r' => ['\\', 'r']
  | '\n' => ['\\', 'n']
  | '"' => ['\\', '"']
  | '\\' => ['\\', '\\']
  | c =>
    if isInvisible c then '\\' :: 'u' :: '\x7b' :: Nat.toDigits 16 c.toNat ++ ['\x7d'] else [c]

def string (s : String) : String := String.ofList ('"' :: s.toList.flatMap escape ++ ['"'])

def list (items : List String) : String := "[" ++ ", ".intercalate items ++ "]"

def strings (items : List String) : String := list (items.map string)

end SemanticQuery.Quoted
