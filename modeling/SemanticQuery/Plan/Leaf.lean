import SemanticQuery.Combinations
import SemanticQuery.Plan.Planner

/-!
Leaves of a plan: nodes that read straight from a datasource, alone or joined on a concept that
several of them provide.
-/

namespace SemanticQuery

namespace Planner

/-- Whether a path leads from a datasource to an address without passing another datasource or
another concept. -/
def isDirect (path : List String) (address : String) : Bool :=
  (path.filter Vertex.isDatasourceName).length == 1 &&
    (path.filterMap Vertex.addressOfName?).all (· == address)

def reachesDirectly (p : Planner) (d : Datasource) (address : String) : Except PlanError Bool := do
  if !p.graph.contains (Vertex.conceptName address) then return false
  match ← p.graph.datasourcePath d.identifier address with
  | none => return false
  | some path => return isDirect path address

def covers (p : Planner) (d : Datasource) : List Concept → Except PlanError Bool
  | [] => return true
  | c :: cs => do
    if ← p.reachesDirectly d c.address then covers p d cs else return false

/-- The first datasource that covers the concepts, and covers them completely unless partial
sources are accepted. -/
def coveringDatasource? (p : Planner) (cs : List Concept) (acceptPartial : Bool) :
    List Datasource → Except PlanError (Option Datasource)
  | [] => return none
  | d :: ds => do
    if (← p.covers d cs) && (acceptPartial || !cs.any fun c => d.isPartialFor c.address) then
      return some d
    else coveringDatasource? p cs acceptPartial ds

def selectFromTable (p : Planner) (cs : List Concept) (depth : Nat) (acceptPartial : Bool) :
    Except PlanError (Option Node) := do
  if cs.isEmpty then return none
  else if cs.all (·.purpose == .constant) then return some (.of (.select none) cs cs [] depth)
  else
    match ← p.coveringDatasource? cs acceptPartial p.catalog.datasources with
    | some d => return some (.of (.select (some d)) d.concepts cs [] depth)
    | none => return none

structure Leaves where
  nodes : List Node := []
  found : List String := []

def Leaves.cover (leaves : Leaves) (cs : List Concept) : Bool :=
  cs.all fun c => leaves.found.contains c.address

/-- Tries to read a concept together with those of a combination that are not found yet. -/
def tryCombination (p : Planner) (c : Concept) (depth : Nat) (acceptPartial : Bool)
    (leaves : Leaves) (combination : List Concept) : Except PlanError Leaves := do
  match combination.filter fun other => !leaves.found.contains other.address with
  | [] => return leaves
  | remaining =>
    match ← p.selectFromTable (c :: remaining) depth acceptPartial with
    | some node => return ⟨leaves.nodes ++ [node], leaves.found ++ node.outputAddresses⟩
    | none => return leaves

/-- Tries combinations of decreasing size until all optional concepts are found. -/
def gather (p : Planner) (c : Concept) (materialized optional : List Concept) (depth : Nat)
    (acceptPartial : Bool) : (size : Nat) → Leaves → Except PlanError Leaves
  | 0, leaves => return leaves
  | size + 1, leaves => do
    let leaves ← (combinations materialized (size + 1)).foldlM
      (p.tryCombination c depth acceptPartial) leaves
    if leaves.cover optional then return leaves
    else gather p c materialized optional depth acceptPartial size leaves

/-- Reads a concept with as many optional concepts as possible: from one table, or from several that
are joined on the concept, or alone. -/
def selectNode (p : Planner) (c : Concept) (optional : List Concept) (depth : Nat)
    (acceptPartial : Bool) : Except PlanError (Option Node) := do
  let isReadable (c : Concept) := c.purpose == .constant || p.catalog.isMaterialized c.address
  let whole ←
    if (c :: optional).all isReadable then p.selectFromTable (c :: optional) depth acceptPartial
    else pure none
  if whole.isSome then return whole
  if !(c :: optional).all isReadable && !p.catalog.isMaterialized c.address then return none
  let leaves ←
    if ParentJoin.isJoinKey c then
      let materialized := optional.filter fun o => p.catalog.isMaterialized o.address
      p.gather c materialized optional depth acceptPartial materialized.length {}
    else pure {}
  if !leaves.nodes.isEmpty && (leaves.cover optional || p.acceptPartialOptional) then
    match leaves.nodes with
    | [node] => return some node
    | nodes =>
      let outputs := nodes.flatMap (·.outputs)
      return some (.of (.merge []) outputs outputs nodes depth)
  else if p.acceptPartialOptional then p.selectFromTable [c] depth acceptPartial
  else return none

end Planner

end SemanticQuery
