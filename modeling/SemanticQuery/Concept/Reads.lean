import SemanticQuery.Concept.Basic

/-!
The concepts that expressions and conditions read, in the order in which they are written.
-/

namespace SemanticQuery

mutual

def Expr.reads : Expr → List Concept
  | .concept c => [c]
  | .literal _ => []
  | .call call => call.reads
  | .aggregate aggregate => aggregate.reads
  | .case branches otherwise => Branch.readsAll branches ++ Expr.readsOption otherwise
  | .datatype _ => []
  | .list _ => []

def Expr.readsAll : List Expr → List Concept
  | [] => []
  | e :: es => e.reads ++ Expr.readsAll es

def Expr.readsOption : Option Expr → List Concept
  | none => []
  | some e => e.reads

def Call.reads : Call → List Concept
  | ⟨_, arguments, _, _⟩ => Expr.readsAll arguments

/-- The arguments of the call, then the concepts that it is grouped by. -/
def Aggregate.reads : Aggregate → List Concept
  | ⟨call, groupBy⟩ => call.reads ++ groupBy

def Branch.reads : Branch → List Concept
  | ⟨condition, result⟩ => condition.reads ++ result.reads

def Branch.readsAll : List Branch → List Concept
  | [] => []
  | b :: bs => b.reads ++ Branch.readsAll bs

def Condition.reads : Condition → List Concept
  | .compare left right _ => left.reads ++ right.reads
  | .combine left right _ => left.reads ++ right.reads
  | .parenthesis inner => inner.reads

end

/-- The content first, then the partitions, then the ordering. -/
def Window.reads (w : Window) : List Concept :=
  w.content :: w.partitions ++ w.orderBy.map (·.concept)

end SemanticQuery
