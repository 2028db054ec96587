import SemanticQuery.Sort

/-!
Suggestions for a name that is not known: the known names at the least edit distance. Names are
compared without the namespace that leads them.
-/

namespace SemanticQuery.Suggestion

/-- The part of a name after its first dot, or all of it. -/
def bareName (name : String) : List Char :=
  match name.toList.dropWhile (· != '.') with
  | [] => name.toList
  | _ :: rest => rest

/-- The cells of a row of the distance table after its first, from the cell to the left and the row
above. -/
def nextCells (c : Char) : (left : Nat) → List Char → (above : List Nat) → List Nat
  | left, n :: needle, diagonal :: up :: above =>
    let cell := min (min (up + 1) (left + 1)) (diagonal + if c == n then 0 else 1)
    cell :: nextCells c cell needle (up :: above)
  | _, _, _ => []

def nextRow (needle : List Char) (c : Char) (first : Nat) (above : List Nat) : List Nat :=
  first :: nextCells c first needle above

/-- Carries the distance table over the rest of the value. Once a whole row exceeds the limit, so
does the distance. -/
def distanceFrom (needle : List Char) (limit : Nat) : (row : List Nat) → Nat → List Char → Nat
  | row, _, [] => min (row.getLastD 0) (limit + 1)
  | row, count, c :: value =>
    let row := nextRow needle c (count + 1) row
    if row.all (limit < ·) then limit + 1 else distanceFrom needle limit row (count + 1) value

/-- The edit distance of two texts, or `limit + 1` if it is larger than `limit`. -/
def distanceWithin (limit : Nat) (value needle : List Char) : Nat :=
  distanceFrom needle limit (List.range (needle.length + 1)) 0 value

/-- The largest distance at which a name is suggested: a third of the length, but at least two. -/
def reach (needle : List Char) : Nat := max (needle.length / 3) 2

def precedes (a b : Nat × String) : Bool := a.1 < b.1 || (a.1 == b.1 && a.2 ≤ b.2)

/-- The three nearest candidates within reach of the missing name. -/
def similar (missing : String) (candidates : List String) : List String :=
  let needle := bareName missing
  let scored := candidates.filterMap fun candidate =>
    let distance := distanceWithin (reach needle) (bareName candidate) needle
    if distance ≤ reach needle then some (distance, candidate) else none
  ((sortBy precedes scored).take 3).map (·.2)

end SemanticQuery.Suggestion
