import SemanticQuery.Call
import SemanticQuery.Concept.Declare
import SemanticQuery.Concept.Namespace

/-!
Calendar parts of temporal concepts: month, year, quarter, day and day of the week of a date, and
the date, hour, minute and second of a point in time.
-/

namespace SemanticQuery.DateParts

def ofDate : List Operator := [.month, .year, .quarter, .day, .dayOfWeek]

def ofTime : List Operator := [.date, .hour, .minute, .second]

def operators : DataType → List Operator
  | .date => ofDate
  | .datetime | .timestamp => ofDate ++ ofTime
  | _ => []

def part (c : Concept) (operator : Operator) : Except PlanError Concept := do
  let purpose : Purpose := if c.purpose == .constant then .constant else .property
  let call ← Call.of operator [.concept c]
  let base := c.metadata.description.getD ("a " ++ c.datatype.name)
  let description :=
    "Auto-derived. The " ++ operator.name ++ " derived from " ++ c.name ++ ", " ++ base
  let derived :=
    Concept.derive (c.name ++ "." ++ operator.name) purpose (.call { call with purpose })
  return ((derived.withNamespace c.ns).withKeys [c]).withMetadata (.autoDerived description)

def parts (c : Concept) : Except PlanError (List Concept) :=
  (operators c.datatype).mapM (part c)

end SemanticQuery.DateParts
