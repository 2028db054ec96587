import SemanticQuery.Plan.Derived

/-!
Nodes for aligned selects. Each select becomes a branch that also puts out the merge concepts of its
outputs, and the branches are joined in full on the merge concepts that they share.
-/

namespace SemanticQuery

structure Planned where
  node : Node
  /-- The outputs of the select if it has a condition, which leaves them partial. -/
  filtered : List Concept

namespace MultiSelect

/-- The planned select with its condition applied and the merge concepts of its outputs added. -/
def branch (multi : MultiSelect) (select : Select) (node : Node) : Planned :=
  let merged := node.outputs.filterMap multi.mergeConcept?
  ⟨(node.withCondition (Condition.both node.condition select.condition)).addOutputs merged,
    if select.condition.isSome then select.outputs else []⟩

def mergedIn (multi : MultiSelect) (node : Node) : List Concept :=
  (multi.align.filter fun item => item.concepts.any fun c => node.provides c.address).map
    (·.mergeConcept multi)

def alignJoin? (left right : List Concept × Nat) : Option ParentJoin :=
  let addresses := Concept.addresses right.1
  match left.1.filter fun c => addresses.contains c.address with
  | [] => none
  | shared => some ⟨left.2, right.2, shared, .full, false⟩

/-- The full joins of all pairs of branches that share a merge concept, in order of attachment. -/
def alignJoins (multi : MultiSelect) (branches : List Node) :
    Except PlanError (List ParentJoin) :=
  let merged := branches.zipIdx.map fun (node, index) => (multi.mergedIn node, index)
  ParentJoin.order ((ParentJoin.pairs merged).filterMap fun (left, right) => alignJoin? left right)
    (branches.map (·.display))

/-- The grain of the merge concepts, or that of the outputs if the merge concepts have none. -/
def alignedGrain (multi : MultiSelect) (outputs : List Concept) : Grain :=
  let grain := Grain.ofSelected multi.mergeConcepts
  if grain.isAbstract then Grain.ofSelected outputs else grain

def additional (multi : MultiSelect) (wanted : List String) : List Concept :=
  multi.reads.filter fun c => wanted.contains c.address

def node (multi : MultiSelect) (planned : List Planned) (wanted : List String) (depth : Nat) :
    Except PlanError Node := do
  let branches := planned.map (·.node)
  let joins ← multi.alignJoins branches
  let filtered := Concept.addresses (planned.flatMap (·.filtered))
  let inputs := branches.flatMap (·.outputs)
  let derived := multi.mergeConcepts.filter fun c => wanted.contains c.address
  let additional := multi.additional wanted
  let outputs := inputs ++ derived ++ additional
  return ((Node.of (.multiSelect joins) inputs outputs branches depth).withGrain
    (multi.alignedGrain outputs)).withPartials
      (additional.filter fun c => filtered.contains c.address)

end MultiSelect

namespace Planner

def planBranches (search : Searcher) (multi : MultiSelect) (depth : Nat) (acceptPartial : Bool) :
    List Select → Search (Option (List Planned))
  | [] => return some []
  | select :: selects => do
    match ← search select.outputs (depth + 1) acceptPartial with
    | none => return none
    | some node =>
      return (← planBranches search multi depth acceptPartial selects).map
        (multi.branch select node :: ·)

def multiSelectNode (search : Searcher) (c : Concept) (multi : MultiSelect)
    (optional : List Concept) (depth : Nat) (acceptPartial : Bool) : Search (Option Node) := do
  match ← planBranches search multi depth acceptPartial multi.selects with
  | none => return none
  | some planned =>
    let wanted := Concept.addresses (optional ++ [c])
    let node ← Search.ofExcept (multi.node planned wanted depth)
    let keys := (multi.additional wanted).filter (·.purpose == .key)
    return some (← enrich search node keys optional depth acceptPartial)

end Planner

end SemanticQuery
