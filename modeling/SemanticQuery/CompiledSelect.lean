import SemanticQuery.Cte.Lower
import SemanticQuery.Plan.Search
import SemanticQuery.Settings

/-!
Compilation of select statements. A statement is planned, grouped to its own grain if the plan is
not at that grain, and lowered to common table expressions, the last of which carries its condition.
-/

namespace SemanticQuery

structure CompiledSelect where
  outputs : List Concept
  ctes : List Cte
  /-- The expression that yields the rows of the statement. -/
  base : Cte
  grain : Grain
  limit : Option Nat
  condition : Option Condition
  orderBy : Option (List OrderItem)

namespace CompiledSelect

def joins (s : CompiledSelect) : List CteJoin := s.base.joins

def toJson (s : CompiledSelect) : Json :=
  .object
    [("output_columns", .ofList Concept.toJson s.outputs),
     ("ctes", .ofList Cte.toJson s.ctes),
     ("base", s.base.toJson),
     ("joins", .ofList CteJoin.toJson s.joins),
     ("grain", s.grain.toJson),
     ("limit", .ofOption .ofNat s.limit),
     ("where_clause", Condition.toJsonClause s.condition),
     ("order_by", OrderItem.toJsonClause s.orderBy)]

end CompiledSelect

def Planner.of (catalog : Catalog) (settings : Settings) (rowFilter : Option RowFilter) :
    Planner where
  catalog
  graph := Graph.ofCatalog catalog
  acceptPartial := settings.acceptPartial
  acceptPartialOptional := settings.acceptPartialOptional
  rowFilter

namespace Select

def allOutputs (s : Select) : List Concept := s.outputs ++ s.hiddenOutputs

/-- The condition as a filter on what the selected aggregates read. A condition on metrics or
aggregates can only be applied after grouping. -/
def rowFilter? (s : Select) : Option RowFilter := do
  let condition ← s.condition
  let aggregates := Names.ofList
    ((s.allOutputs.filter (·.derivation == .aggregate)).map (·.address))
  if s.conditionReads.any (·.isAggregateLike) || aggregates.isEmpty then none
  else return ⟨condition, aggregates⟩

/-- The query that groups the rows of `root` to the grain of the statement. -/
def regroup (s : Select) (root : Query) : Except PlanError Query :=
  let outputs := s.allOutputs
  let name := root.identifier
  let sourceMap := NameMap.ofList ((root.outputs ++ outputs).map fun c =>
    (c.address, if root.provides c.address then [name] else []))
  Query.of root.outputs outputs sourceMap [.query root] s.grain [] .group

/-- The query of a plan at the grain of the statement, with its condition and limit. -/
def finish (s : Select) (root : Query) : Except PlanError Query := do
  let root ← if root.grain.same s.grain then pure root else s.regroup root
  return { root with condition := Condition.both root.condition s.condition, limit := s.limit }

def compile (s : Select) (catalog : Catalog) (settings : Settings) :
    Except PlanError CompiledSelect := do
  let node ← ((Planner.of catalog settings s.rowFilter?).plan s.inputs 0 {}).1
  let root ← s.finish (← node.resolve)
  let ctes ← root.lower settings.maxCteNameLength
  match ctes.getLast? with
  | none => throw (.noDatasource (s.inputs.map (·.address)))
  | some base =>
    return {
      outputs := s.outputs
      ctes
      base
      grain := s.grain
      limit := s.limit
      condition := s.condition
      orderBy := s.orderBy }

end Select

end SemanticQuery
