import SemanticQuery.Text.Quoted

/-!
What can go wrong while a catalog is assembled, a request is planned or a plan is lowered, and the
message for each cause.
-/

namespace SemanticQuery

inductive PlanError where
  | undefinedConcept (address : String) (suggestions : List String)
  | duplicateConcept (address : String)
  | noDatasource (concepts : List String)
  | ambiguousRelationship (candidates : List (List String))
  | selfJoin (name : String)
  | missingJoinKey (concept source : String) (available : List String)
  | noMutualJoinKeys (left right : String) (leftKeys rightKeys requested : List String)
  | disconnectedJoins (available remaining : List String)
  | grainMismatch (left right leftGrain rightGrain : String)
  | sourceTypeMismatch (left right : String)
  | ambiguousSourceMap (concept : String) (count : Nat)
  | sourceMapMismatch (seen expected : List String)
  | argumentCount (operator expected : String) (got : Nat)
  | invalidArgumentType (operator argument datatype : String)
  | unresolvable (concepts : List String)
  | nodeNotFound (name : String)
  | notWritable (reason : String)
  deriving DecidableEq

namespace PlanError

/-- The name of the cause in answers to programs. -/
def label : PlanError → String
  | undefinedConcept .. => "UndefinedConcept"
  | duplicateConcept .. => "DuplicateConcept"
  | noDatasource .. => "NoDatasource"
  | ambiguousRelationship .. => "AmbiguousRelationship"
  | selfJoin .. => "SelfJoin"
  | missingJoinKey .. => "MissingJoinKey"
  | noMutualJoinKeys .. => "NoMutualJoinKeys"
  | disconnectedJoins .. => "DisconnectedJoins"
  | grainMismatch .. => "GrainMismatch"
  | sourceTypeMismatch .. => "SourceTypeMismatch"
  | ambiguousSourceMap .. => "AmbiguousSourceMap"
  | sourceMapMismatch .. => "SourceMapMismatch"
  | argumentCount .. => "ArgumentCount"
  | invalidArgumentType .. => "InvalidArgumentType"
  | unresolvable .. => "Unresolvable"
  | nodeNotFound .. => "Graph"
  | notWritable .. => "Hash"

def braced (names : List String) : String := "\x7b" ++ ", ".intercalate names ++ "\x7d"

def message : PlanError → String
  | undefinedConcept address suggestions =>
    "Undefined concept: " ++ address ++ "." ++
      (if suggestions.isEmpty then "" else " Suggestions: " ++ ", ".intercalate suggestions)
  | duplicateConcept address =>
    "Assignment to concept '" ++ address ++ "' is a duplicate declaration"
  | noDatasource concepts => "No datasource exists for " ++ ", ".intercalate concepts
  | ambiguousRelationship candidates =>
    "Ambiguous concept join resolution - possible paths = " ++
      " | ".intercalate (candidates.map braced) ++
      ". Include an additional concept to disambiguate"
  | selfJoin name => "Cannot join a datasource to itself, joining " ++ name
  | missingJoinKey concept source available =>
    "Invalid join, missing " ++ concept ++ " on " ++ source ++ ", have " ++
      Quoted.strings available
  | noMutualJoinKeys left right leftKeys rightKeys requested =>
    "No mutual join keys found between " ++ left ++ " and " ++ right ++ ", left_keys " ++
      Quoted.strings leftKeys ++ ", right_keys " ++ Quoted.strings rightKeys ++
      ", provided join concepts " ++ Quoted.strings requested
  | disconnectedJoins available remaining =>
    "Did not find any new joins, available " ++ Quoted.strings available ++
      " remaining is " ++ Quoted.strings remaining
  | grainMismatch left right leftGrain rightGrain =>
    "Can only merge " ++ left ++ " and " ++ right ++ " at identical grain, have " ++ leftGrain ++
      " and " ++ rightGrain
  | sourceTypeMismatch left right =>
    "Can only merge " ++ left ++ " and " ++ right ++ " with identical source type"
  | ambiguousSourceMap concept count =>
    "Source map entry " ++ concept ++ " has multiple values (" ++ toString count ++ ")"
  | sourceMapMismatch seen expected =>
    "Source map has mismatched values: seen " ++ Quoted.strings seen ++ ", expected " ++
      Quoted.strings expected
  | argumentCount operator expected got =>
    "Incorrect argument count to " ++ operator ++ " function, expects " ++ expected ++ ", got " ++
      toString got
  | invalidArgumentType operator argument datatype =>
    "Invalid input datatype " ++ datatype ++ " passed into " ++ operator ++ " from " ++ argument
  | unresolvable concepts =>
    "Could not find any way to associate required concepts " ++ ", ".intercalate concepts
  | nodeNotFound name => "Node not found in reference graph: " ++ name
  | notWritable reason => "Failed to fingerprint value: " ++ reason

end PlanError

end SemanticQuery
