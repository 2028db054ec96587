/-!
Decimal text of binary floating-point numbers: the fewest significant digits that still round to
the number, of those the digits nearest to it, laid out as a `FloatFormat` says.
-/

namespace SemanticQuery

/-- Where a number lies exactly half-way between two equally short decimals. -/
inductive Tie where
  | toEven
  | upward
  deriving DecidableEq

/-- The layout of a float: which decimal exponents are written positionally, how an exponent is
signed, where ties go, and the texts of the values that are not numbers. -/
structure FloatFormat where
  /-- Least decimal exponent written positionally. -/
  least : Int
  /-- First decimal exponent that is too large for positional notation. -/
  beyond : Int
  /-- Whether a positive exponent carries a plus sign. -/
  plus : Bool
  tie : Tie
  nan : String
  infinite : String
  negativeInfinite : String

/-- A positive decimal `digits * 10 ^ exponent`. -/
structure Decimal where
  digits : Nat
  exponent : Int
  deriving DecidableEq

namespace Decimal

/-- A positive number `mantissa * 2 ^ exponent` and the numbers that round to it, as whole
multiples of `2 ^ (exponent - 2)`. -/
structure Rounding where
  mantissa : Nat
  exponent : Int
  /-- The neighbour below is only half as far away as the one above. -/
  narrow : Bool

namespace Rounding

def value (r : Rounding) : Nat := 4 * r.mantissa

def lower (r : Rounding) : Nat := if r.narrow then r.value - 1 else r.value - 2

def upper (r : Rounding) : Nat := r.value + 2

/-- An end of the interval rounds to the number exactly when the mantissa is even. -/
def closed (r : Rounding) : Bool := r.mantissa % 2 == 0

/-- The unit `2 ^ (exponent - 2)` is `scale.1 / scale.2`. -/
def scale (r : Rounding) : Nat × Nat :=
  (Nat.pow 2 (r.exponent - 2).toNat, Nat.pow 2 (2 - r.exponent).toNat)

/-- The decimal exponent `e` with `10 ^ e ≤ value < 10 ^ (e + 1)`. -/
def magnitude (r : Rounding) : Int :=
  let num := r.value * r.scale.1
  let den := r.scale.2
  if den ≤ num then
    ((Nat.toDigits 10 (num / den)).length : Int) - 1
  else
    let places := (Nat.toDigits 10 (den / num)).length
    if den ≤ num * Nat.pow 10 (places - 1) then 1 - (places : Int) else -(places : Int)

/-- The multiple of `10 ^ place` nearest to the number among its two neighbours on that grid that
round to the number. -/
def nearest? (r : Rounding) (tie : Tie) (place : Int) : Option Nat :=
  let num := r.scale.1 * Nat.pow 10 (-place).toNat
  let den := r.scale.2 * Nat.pow 10 place.toNat
  let below := r.value * num / den
  let above := below + 1
  let hits (n : Nat) : Bool :=
    if r.closed then r.lower * num ≤ n * den && n * den ≤ r.upper * num
    else r.lower * num < n * den && n * den < r.upper * num
  match hits below, hits above with
  | false, false => none
  | true, false => some below
  | false, true => some above
  | true, true =>
    let twice := 2 * r.value * num
    let middle := (2 * below + 1) * den
    if twice < middle then some below
    else if middle < twice then some above
    else match tie with
      | .upward => some above
      | .toEven => if below % 2 == 0 then some below else some above

/-- Tries the grids from the coarsest to the finest, `fuel` of them. -/
def shortestFrom (r : Rounding) (tie : Tie) : Nat → Int → Decimal
  | 0, place => ⟨r.value * r.scale.1 / r.scale.2, place⟩
  | fuel + 1, place =>
    match r.nearest? tie place with
    | some digits => ⟨digits, place⟩
    | none => shortestFrom r tie fuel (place - 1)

/-- Seventeen significant digits always suffice for a 53-bit mantissa. -/
def shortest (r : Rounding) (tie : Tie) : Decimal :=
  r.shortestFrom tie 18 r.magnitude

end Rounding

/-- The significant digits, without the zeros that end them, and the exponent of the first. -/
def significand (d : Decimal) : List Char × Int :=
  let digits := Nat.toDigits 10 d.digits
  ((digits.reverse.dropWhile (· == '0')).reverse, d.exponent + digits.length - 1)

/-- Positional notation with at least one digit on either side of the point. -/
def positional (digits : List Char) (exponent : Int) : List Char :=
  if exponent < 0 then
    '0' :: '.' :: List.replicate (-exponent - 1).toNat '0' ++ digits
  else
    let whole := exponent.toNat + 1
    let fraction := digits.drop whole
    digits.take whole ++ List.replicate (whole - digits.length) '0' ++ '.' ::
      (if fraction.isEmpty then ['0'] else fraction)

def scientific (plus : Bool) (digits : List Char) (exponent : Int) : List Char :=
  let lead := digits.take 1
  let rest := digits.drop 1
  lead ++ (if rest.isEmpty then [] else '.' :: rest) ++ 'e' ::
    (if exponent < 0 then ['-'] else if plus then ['+'] else []) ++
    Nat.toDigits 10 exponent.natAbs

def layout (format : FloatFormat) (d : Decimal) : List Char :=
  let (digits, exponent) := d.significand
  if format.least ≤ exponent && exponent < format.beyond then positional digits exponent
  else scientific format.plus digits exponent

end Decimal

/-- Reads the sign, exponent and fraction fields of a 64-bit float and writes its shortest
decimal. -/
def FloatFormat.render (format : FloatFormat) (x : Float) : List Char :=
  let bits : Nat := x.toBits.toNat
  let negative := bits / Nat.pow 2 63 == 1
  let field : Nat := bits / Nat.pow 2 52 % Nat.pow 2 11
  let fraction : Nat := bits % Nat.pow 2 52
  let signed (cs : List Char) := if negative then '-' :: cs else cs
  if field == 2047 then
    if fraction == 0 then (if negative then format.negativeInfinite else format.infinite).toList
    else format.nan.toList
  else if field == 0 && fraction == 0 then signed ['0', '.', '0']
  else
    let rounding : Decimal.Rounding :=
      if field == 0 then ⟨fraction, -1074, false⟩
      else ⟨fraction + Nat.pow 2 52, (field : Int) - 1075, fraction == 0 && field != 1⟩
    signed ((rounding.shortest format.tie).layout format)

end SemanticQuery
