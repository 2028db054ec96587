/-!
Sums of natural numbers.
-/

namespace SemanticQuery

def total : List Nat → Nat
  | [] => 0
  | n :: ns => n + total ns

end SemanticQuery
