import SemanticQuery.Toml.Table

/-!
Scalars that are written without quotes: booleans, integers, floats and dates.
-/

namespace SemanticQuery.Toml

def digit? (c : Char) : Option Nat :=
  if c.isDigit then some (c.toNat - '0'.toNat)
  else if 'a' ≤ c ∧ c ≤ 'f' then some (c.toNat - 'a'.toNat + 10)
  else if 'A' ≤ c ∧ c ≤ 'F' then some (c.toNat - 'A'.toNat + 10)
  else none

def isDigitOf (base : Nat) (c : Char) : Bool := (digit? c).any (· < base)

/-- Digits with single underscores between them, the underscores left out. -/
def digits? (base : Nat) : List Char → Option (List Char)
  | [] => none
  | [c] => if isDigitOf base c then some [c] else none
  | c :: '_' :: cs => if isDigitOf base c then (digits? base cs).map (c :: ·) else none
  | c :: cs => if isDigitOf base c then (digits? base cs).map (c :: ·) else none

def ofDigits (base : Nat) (cs : List Char) : Nat :=
  cs.foldl (fun n c => n * base + (digit? c).getD 0) 0

/-- A decimal number has no leading zeros. -/
def decimal? (cs : List Char) : Option Nat :=
  match digits? 10 cs with
  | some ['0'] => some 0
  | some ('0' :: _) => none
  | some ds => some (ofDigits 10 ds)
  | none => none

def signed : List Char → Bool × List Char
  | '+' :: cs => (false, cs)
  | '-' :: cs => (true, cs)
  | cs => (false, cs)

def integer? : List Char → Option Int
  | '0' :: 'x' :: cs => (digits? 16 cs).map fun ds => (ofDigits 16 ds : Int)
  | '0' :: 'o' :: cs => (digits? 8 cs).map fun ds => (ofDigits 8 ds : Int)
  | '0' :: 'b' :: cs => (digits? 2 cs).map fun ds => (ofDigits 2 ds : Int)
  | cs =>
    let (negative, body) := signed cs
    (decimal? body).map fun n => if negative then -(n : Int) else n

/-- A number of the form `mantissa * 10 ^ exponent`. -/
structure Scientific where
  mantissa : Nat
  exponent : Int

/-- The exponent after the mark, zero without one. Leading zeros are allowed. -/
def exponent? : List Char → Option Int
  | [] => some 0
  | _ :: cs =>
    let (negative, body) := signed cs
    (digits? 10 body).map fun ds =>
      if negative then -(ofDigits 10 ds : Int) else (ofDigits 10 ds : Int)

def fraction? : List Char → Option (List Char)
  | [] => some []
  | _ :: cs => digits? 10 cs

def isExponentMark (c : Char) : Bool := c == 'e' || c == 'E'

/-- A float without its sign: a decimal number with a fraction, an exponent or both. -/
def scientific? (cs : List Char) : Option Scientific := do
  let mantissa := cs.takeWhile (!isExponentMark ·)
  let exponent ← exponent? (cs.dropWhile (!isExponentMark ·))
  let whole ← decimal? (mantissa.takeWhile (· != '.'))
  let fraction ← fraction? (mantissa.dropWhile (· != '.'))
  if mantissa.length == cs.length && fraction.isEmpty then none
  else
    let mantissa := whole * Nat.pow 10 fraction.length + ofDigits 10 fraction
    return ⟨mantissa, exponent - fraction.length⟩

/-- The number of digits before the point. Zeros that follow the point count as negative. -/
def Scientific.magnitude (s : Scientific) : Int := (Nat.toDigits 10 s.mantissa).length + s.exponent

/-- Whether a number is in the range of floats. Half a unit above the largest float, a number of 309
digits, is the least that is not. The power of ten is only taken for numbers with as many digits, so
that an exponent out of all range costs nothing. -/
def Scientific.isFinite (s : Scientific) : Bool :=
  let bound := (Nat.pow 2 54 - 1) * Nat.pow 2 970
  if s.mantissa == 0 || s.magnitude < 309 then true
  else if 309 < s.magnitude then false
  else s.mantissa * Nat.pow 10 s.exponent.toNat < bound * Nat.pow 10 (-s.exponent).toNat

/-- A float, and whether it can be held. -/
def float? (cs : List Char) : Option Bool :=
  match (signed cs).2 with
  | ['i', 'n', 'f'] | ['n', 'a', 'n'] => some true
  | body => (scientific? body).map (·.isFinite)

/-- A number of exactly `width` digits, in a range. -/
def field? (width least most : Nat) (cs : List Char) : Option Nat :=
  if cs.length == width && cs.all Char.isDigit then
    let n := ofDigits 10 cs
    if least ≤ n && n ≤ most then some n else none
  else none

def isLeapYear (year : Nat) : Bool := year % 4 == 0 && (year % 100 != 0 || year % 400 == 0)

def daysInMonth (year month : Nat) : Nat :=
  if month == 2 then (if isLeapYear year then 29 else 28)
  else if [4, 6, 9, 11].contains month then 30
  else 31

def isDay : List Char → Bool
  | [y₁, y₂, y₃, y₄, '-', m₁, m₂, '-', d₁, d₂] =>
    match field? 4 0 9999 [y₁, y₂, y₃, y₄], field? 2 1 12 [m₁, m₂] with
    | some year, some month => (field? 2 1 (daysInMonth year month) [d₁, d₂]).isSome
    | _, _ => false
  | _ => false

def isSecondFraction : List Char → Bool
  | [] => true
  | '.' :: cs => !cs.isEmpty && cs.all Char.isDigit
  | _ => false

/-- The seconds of a time of the day with a fraction of them, if they are given. A leap second
counts. -/
def isSeconds : List Char → Bool
  | [] => true
  | ':' :: s₁ :: s₂ :: fraction => (field? 2 0 60 [s₁, s₂]).isSome && isSecondFraction fraction
  | _ => false

def isTime : List Char → Bool
  | h₁ :: h₂ :: ':' :: m₁ :: m₂ :: seconds =>
    (field? 2 0 23 [h₁, h₂]).isSome && (field? 2 0 59 [m₁, m₂]).isSome && isSeconds seconds
  | _ => false

def isOffset : List Char → Bool
  | [] | ['Z'] | ['z'] => true
  | [sign, h₁, h₂, ':', m₁, m₂] =>
    (sign == '+' || sign == '-') && (field? 2 0 23 [h₁, h₂]).isSome &&
      (field? 2 0 59 [m₁, m₂]).isSome
  | _ => false

def isTimeChar (c : Char) : Bool := c.isDigit || c == ':' || c == '.'

def isOffsetTime (cs : List Char) : Bool :=
  isTime (cs.takeWhile isTimeChar) && isOffset (cs.dropWhile isTimeChar)

def isDateMark (c : Char) : Bool := c == 'T' || c == 't' || c == ' '

def isDate (cs : List Char) : Bool :=
  isTime cs || isDay cs ||
    (isDay (cs.take 10) &&
      match cs.drop 10 with
      | mark :: time => isDateMark mark && isOffsetTime time
      | [] => false)

def scalar? (cs : List Char) : Option Value :=
  match cs with
  | ['t', 'r', 'u', 'e'] => some (.bool true)
  | ['f', 'a', 'l', 's', 'e'] => some (.bool false)
  | cs =>
    match integer? cs, float? cs with
    | some n, _ => some (.integer n)
    | none, some finite => some (.float finite)
    | none, none => if isDate cs then some .date else none

end SemanticQuery.Toml
