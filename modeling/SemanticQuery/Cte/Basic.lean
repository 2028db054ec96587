import SemanticQuery.Query.Encoding

/-!
Common table expressions, the units that a renderer writes out. Expressions of one name are merged
into the first of them.
-/

namespace SemanticQuery

structure CteJoin where
  left : String
  right : String
  joinType : JoinType
  keys : List Concept

namespace CteJoin

/-- Joins with the same sides and type are taken for the same. -/
def id (j : CteJoin) : String := j.left ++ j.right ++ j.joinType.name

def toJson (j : CteJoin) : Json :=
  .object
    [("left_cte", .string j.left),
     ("right_cte", .string j.right),
     ("join_type", .string j.joinType.label),
     ("joinkeys", .ofList (fun c => .object [("concept", c.toJson)]) j.keys)]

end CteJoin

structure Cte where
  name : String
  source : Query
  outputs : List Concept
  /-- For each address the expression or datasource that it is read from; empty for a concept that
  is computed here. -/
  sourceMap : NameMap String
  grain : Grain
  /-- Whether rows have to be grouped to reach the grain. -/
  grouped : Bool
  /-- The expressions that come before this one. -/
  parents : List String
  joins : List CteJoin
  condition : Option Condition
  partials : List Concept

namespace Cte

/-- Adds to `m` the entries of `other` that it lacks. -/
def complete (m other : NameMap α) : NameMap α :=
  other.entries.foldl (fun m entry => m.insertIfNew entry.1 entry.2) m

def mergeParents (a b : List String) : List String :=
  b.foldl (fun parents p => if parents.contains p then parents else parents ++ [p]) a

def mergeJoins (a b : List CteJoin) : List CteJoin :=
  b.foldl (fun joins j => if joins.any (·.id == j.id) then joins else joins ++ [j]) a

/-- The union of two expressions of the same grain. -/
def merge (a b : Cte) : Except PlanError Cte :=
  if !a.grain.same b.grain then
    .error (.grainMismatch a.name b.name a.grain.display b.grain.display)
  else
    .ok { a with
      partials := Concept.unique (a.partials ++ b.partials)
      parents := mergeParents a.parents b.parents
      sourceMap := complete a.sourceMap b.sourceMap
      outputs := Concept.unique (a.outputs ++ b.outputs)
      joins := mergeJoins a.joins b.joins
      source :=
        { a.source with
          sourceMap := complete a.source.sourceMap b.source.sourceMap
          outputs := Concept.unique (a.source.outputs ++ b.source.outputs) } }

def absorb (incoming : Cte) : List Cte → Except PlanError (List Cte)
  | [] => return [incoming]
  | cte :: ctes =>
    if cte.name == incoming.name then return (← cte.merge incoming) :: ctes
    else return cte :: (← absorb incoming ctes)

/-- Merges expressions of one name into the first of them. -/
def mergeAll (ctes : List Cte) : Except PlanError (List Cte) :=
  ctes.foldlM (fun kept incoming => incoming.absorb kept) []

def datasource? (cte : Cte) : Option Datasource :=
  match cte.source.sources with
  | [.datasource d] => some d
  | _ => none

def firstParent? (cte : Cte) : Option String :=
  match cte.joins with
  | j :: _ => some j.left
  | [] => cte.parents.head?

def baseName (cte : Cte) : String :=
  match cte.datasource? with
  | some d => d.safeLocation
  | none => cte.firstParent?.getD cte.source.identifier

def baseAlias (cte : Cte) : String :=
  match cte.datasource? with
  | some d => Concept.underscored d.fullName
  | none => cte.firstParent?.getD cte.name

/-- Constants alone are written without reading from anything. -/
def readsFrom (cte : Cte) : Bool :=
  !(cte.outputs.all (·.purpose == .constant) && cte.parents.isEmpty && !cte.grouped)

def sourcedOutputs (cte : Cte) : List Concept :=
  cte.outputs.filter fun c => (cte.sourceMap.get? c.address).any (!·.isEmpty)

def toJson (cte : Cte) : Json :=
  .object
    [("name", .string cte.name),
     ("source", cte.source.toJson),
     ("output_columns", .ofList Concept.toJson cte.outputs),
     ("source_map", .object (cte.sourceMap.entries.map fun entry => (entry.1, .string entry.2))),
     ("grain", cte.grain.toJson),
     ("group_to_grain", .bool cte.grouped),
     ("parent_ctes", .ofList .string cte.parents),
     ("joins", .ofList CteJoin.toJson cte.joins),
     ("condition", .ofOption Condition.toJson cte.condition),
     ("partial_concepts", .ofList Concept.toJson cte.partials)]

end Cte

end SemanticQuery
