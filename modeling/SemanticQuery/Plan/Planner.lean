import SemanticQuery.Graph.Path
import SemanticQuery.Plan.History
import SemanticQuery.Plan.Resolve

/-!
What a search works with: the catalog and its graph, what is accepted of partial sources, a
condition to be pushed below aggregates, and the history that is threaded through the run.
-/

namespace SemanticQuery

/-- A condition on rows that is applied to what some aggregates read. -/
structure RowFilter where
  condition : Condition
  /-- The addresses of the aggregates. -/
  aggregates : List String

def RowFilter.appliesTo (f : RowFilter) (c : Concept) : Bool := f.aggregates.contains c.address

structure Planner where
  catalog : Catalog
  graph : Graph
  acceptPartial : Bool := false
  /-- Whether a plan may lack optional concepts. -/
  acceptPartialOptional : Bool := true
  rowFilter : Option RowFilter := none

inductive Halt where
  | failed (error : PlanError)
  /-- The bound on nested searches is reached. -/
  | exhausted

/-- A step of a search. The history survives a failure. -/
abbrev Search := ExceptT Halt (StateM History)

namespace Search

def ofExcept : Except PlanError α → Search α
  | .ok a => pure a
  | .error e => throw (.failed e)

/-- Runs a step and hands over its outcome instead of failing. -/
def outcome (x : Search α) : Search (Except Halt α) := ExceptT.mk (Except.ok <$> x.run)

end Search

/-- A search for a node that provides all concepts of a request, at a depth, accepting partial
sources or not. -/
abbrev Searcher := List Concept → Nat → Bool → Search (Option Node)

inductive Strategy where
  | multiSelect
  | filter
  | aggregate
  | window
  | basic
  | root
  | constant
  deriving DecidableEq

def Strategy.rank : Strategy → Nat
  | .multiSelect => 0
  | .filter => 1
  | .aggregate => 2
  | .window => 3
  | .basic => 4
  | .root => 5
  | .constant => 6

/-- A concept that a column is bound to is read, any other is computed as its derivation says. -/
def Planner.strategy (p : Planner) (c : Concept) : Strategy :=
  if p.catalog.isMaterialized c.address then .root
  else
    match c.derivation with
    | .multiSelect => .multiSelect
    | .filter => .filter
    | .aggregate => .aggregate
    | .window => .window
    | .constant => .constant
    | .basic => if c.isRoot then .root else .basic

end SemanticQuery
