import SemanticQuery.Concept.Basic

/-!
Agreement of conditions, and the conjunction of two optional conditions. Conditions agree when they
are built alike from concepts, literals and calls that agree.
-/

namespace SemanticQuery

def Literal.agreesAll : List Literal → List Literal → Bool
  | [], [] => true
  | a :: as, b :: bs => a.agrees b && Literal.agreesAll as bs
  | _, _ => false

def Concept.agreesAll : List Concept → List Concept → Bool
  | [], [] => true
  | c :: cs, d :: ds => c.agrees d && Concept.agreesAll cs ds
  | _, _ => false

mutual

def Expr.agrees : Expr → Expr → Bool
  | .concept c, .concept d => c.agrees d
  | .literal a, .literal b => a.agrees b
  | .call f, .call g => f.agrees g
  | .aggregate a, .aggregate b => a.agrees b
  | .case bs o, .case cs p => Branch.agreesAll bs cs && Expr.agreesOption o p
  | .datatype s, .datatype t => s == t
  | .list as, .list bs => Literal.agreesAll as bs
  | _, _ => false

def Expr.agreesAll : List Expr → List Expr → Bool
  | [], [] => true
  | a :: as, b :: bs => a.agrees b && Expr.agreesAll as bs
  | _, _ => false

def Expr.agreesOption : Option Expr → Option Expr → Bool
  | none, none => true
  | some a, some b => a.agrees b
  | _, _ => false

def Call.agrees : Call → Call → Bool
  | ⟨operator, arguments, datatype, purpose⟩, g =>
    operator == g.operator && Expr.agreesAll arguments g.arguments && datatype == g.datatype &&
      purpose == g.purpose

def Aggregate.agrees : Aggregate → Aggregate → Bool
  | ⟨call, groupBy⟩, b => call.agrees b.call && Concept.agreesAll groupBy b.groupBy

def Branch.agrees : Branch → Branch → Bool
  | ⟨condition, result⟩, b => condition.agrees b.condition && result.agrees b.result

def Branch.agreesAll : List Branch → List Branch → Bool
  | [], [] => true
  | a :: as, b :: bs => a.agrees b && Branch.agreesAll as bs
  | _, _ => false

def Condition.agrees : Condition → Condition → Bool
  | .compare a b c, .compare d e f => a.agrees d && b.agrees e && c == f
  | .combine a b c, .combine d e f => a.agrees d && b.agrees e && c == f
  | .parenthesis a, .parenthesis b => a.agrees b
  | _, _ => false

end

namespace Condition

def agreesOption : Option Condition → Option Condition → Bool
  | none, none => true
  | some a, some b => a.agrees b
  | _, _ => false

/-- The conjunction of two conditions, either of which may be absent. Of two that agree one is
kept. -/
def both : Option Condition → Option Condition → Option Condition
  | some left, some right =>
    if left.agrees right then some left else some (.combine left right .and)
  | left, none => left
  | none, right => right

end Condition

end SemanticQuery
