import SemanticQuery.Plan.Node
import SemanticQuery.Query.Merge

/-!
Resolution of plan nodes into queries. Parents that resolve to the same name are merged, the others
are joined, and each concept is read from the first parent that has it complete.
-/

namespace SemanticQuery

/-- Adds a query to queries with different names, and tells its position there. -/
def Query.absorb (incoming : Query) : List Query → Except PlanError (List Query × Nat)
  | [] => return ([incoming], 0)
  | q :: qs => do
    if q.identifier == incoming.identifier then return ((← q.merge incoming) :: qs, 0)
    else
      let (qs, index) ← absorb incoming qs
      return (q :: qs, index + 1)

/-- Merges queries of one name. For each query the position of its merger follows. -/
def Query.dedupe (queries : List Query) : Except PlanError (List Query × List Nat) :=
  queries.foldlM
    (fun (kept, positions) incoming => do
      let (kept, index) ← incoming.absorb kept
      return (kept, positions ++ [index]))
    ([], [])

namespace Node

/-- The grain of a direct select: that of the datasource if some output is a metric or shares its
grain with it, and else that of the outputs. -/
def selectGrain (d : Datasource) (outputs : List Concept) : Grain :=
  if d.grain.isAbstract then d.grain
  else if outputs.any fun c => c.purpose == .metric || !c.defaultGrain.disjoint d.grain then d.grain
  else Grain.ofSelected outputs

def resolveDatasource (n : Node) (d : Datasource) : Except PlanError Query := do
  let sourceMap := NameMap.ofList ((n.inputs ++ n.outputs).map fun c =>
    (c.address, if d.provides c.address then [d.fullName] else []))
  let q ← Query.of n.inputs n.outputs sourceMap [.datasource d]
    (n.grain.getD (selectGrain d n.outputs)) [] .directSelect
  return q.withPartials (n.outputs.filter (fun c => d.isPartialFor c.address) ++ n.partials)

def resolveConstants (n : Node) : Except PlanError Query :=
  Query.of n.inputs n.outputs (.ofList ((n.inputs ++ n.outputs).map fun c => (c.address, [])))
    [] (n.grain.getD ∅) [] .select

/-- The joins that are given, moved to the positions of the merged parents. -/
def movedJoins (joins : List ParentJoin) (positions : List Nat) : List ParentJoin :=
  joins.filterMap fun j =>
    match positions[j.left]?, positions[j.right]? with
    | some left, some right => if left == right then none else some { j with left, right }
    | _, _ => none

def unjoined (joins : List ParentJoin) (names : List String) : List String :=
  let joined := joins.flatMap fun j => [j.left, j.right]
  (names.zipIdx.filter fun (_, index) => !joined.contains index).map (·.1)

/-- The ordered joins of the parents, which have to link all of them. -/
def orderedJoins (given : List ParentJoin) (parents : List Query) (positions : List Nat)
    (names : List String) : Except PlanError (List ParentJoin) :=
  if parents.length < 2 then .ok []
  else do
    let candidates :=
      if given.isEmpty then ParentJoin.derive parents else movedJoins given positions
    let ordered ← ParentJoin.order candidates names
    if ParentJoin.isConnected ordered parents.length then return ordered
    else throw (.disconnectedJoins names (unjoined ordered names))

/-- The name of the parent that an address is read from: the first that has it complete, or else the
first that has it. -/
def provider (named : List (String × Query)) (address : String) : List String :=
  let providers := named.filter (·.2.provides address)
  match providers.find? (!·.2.isPartialFor address) <|> providers.head? with
  | some (name, _) => [name]
  | none => []

/-- Whether all parents that have an address have it partially, and no full join completes it. -/
def isPartialIn (parents : List Query) (fullKeys : List String) (address : String) : Bool :=
  let providers := parents.filter (·.provides address)
  !providers.isEmpty && providers.all (·.isPartialFor address) && !fullKeys.contains address

def resolveParents (n : Node) (resolved : List Query) : Except PlanError Query := do
  let (parents, positions) ← Query.dedupe resolved
  let names := parents.map (·.identifier)
  let joins ← orderedJoins n.kind.joins parents positions names
  let fullKeys := (joins.filter (·.joinType == .full)).flatMap fun j =>
    Concept.addresses j.concepts
  let named := names.zip parents
  let sourceMap := NameMap.ofList ((n.inputs ++ n.outputs).map fun c =>
    (c.address, provider named c.address))
  let partials := n.outputs.filter fun c => isPartialIn parents fullKeys c.address
  let grain :=
    match n.grain, n.kind with
    | some grain, _ => grain
    | none, .group => Grain.ofSelected n.outputs
    | none, _ => Grain.sum (parents.map (·.grain))
  let sources := parents.map Source.query
  let sourceJoins ← joins.mapM (·.toSourceJoin sources)
  let q ← Query.of n.inputs n.outputs sourceMap sources grain sourceJoins n.sourceType
  return q.withPartials (partials ++ n.partials)

end Node

mutual

def Node.resolve : Node → Except PlanError Query
  | ⟨kind, inputs, outputs, partials, parents, depth, condition, grain⟩ => do
    let n : Node := ⟨kind, inputs, outputs, partials, parents, depth, condition, grain⟩
    let q ←
      match kind with
      | .select (some d) => n.resolveDatasource d
      | .select none => n.resolveConstants
      | _ => do n.resolveParents (← Node.resolveAll parents)
    return { q with condition := Condition.both q.condition condition }

def Node.resolveAll : List Node → Except PlanError (List Query)
  | [] => return []
  | n :: ns => return (← n.resolve) :: (← Node.resolveAll ns)

end

end SemanticQuery
