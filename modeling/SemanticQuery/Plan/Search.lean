import SemanticQuery.Plan.Aligned
import SemanticQuery.Plan.JoinPath
import SemanticQuery.Plan.Leaf

/-!
The search for a plan. The requested concepts are taken up one by one, the most derived first, each
with the rest of the request as optional concepts. The nodes are stacked until the stack covers the
request and can be joined. A request that no stack covers is extended by join paths, and at last
tried again with partial sources. Results are remembered, and a request that is met again within
its own search counts as not found there.
-/

namespace SemanticQuery

/-- The number of concepts in a concept: itself, and those in its keys, its derivation and its
grain. -/
def Concept.weight (c : Concept) : Nat :=
  c.fold fun _ parts =>
    let lineage := parts.lineage ()
    1 + total ((parts.keys ()).map (·.2)) + total (lineage.reads.map (·.2)) +
      total (lineage.branches.flatten.map (·.2)) + total ((parts.grain ()).map (·.2))

namespace Planner

def seeds (p : Planner) (request : List Concept) : List Concept :=
  p.catalog.concepts.values ++ p.catalog.datasources.flatMap (·.concepts) ++ request ++
    match p.rowFilter with
    | some rowFilter => rowFilter.condition.reads
    | none => []

/-- A bound on the nesting of searches. The key of a nested search is a new set of concepts at one
of their grains, so there are fewer nested searches than such sets. -/
def searchBound (p : Planner) (request : List Concept) : Nat :=
  Nat.pow 2 (4 * total ((p.seeds request).map Concept.weight) + 2)

/-- A node for one concept, with as many of the optional concepts as the node can have. -/
def generate (p : Planner) (search : Searcher) (c : Concept) (optional : List Concept) (depth : Nat)
    (acceptPartial : Bool) : Search (Option Node) :=
  match p.strategy c, c.lineage with
  | .root, _ => Search.ofExcept (p.selectNode c optional depth acceptPartial)
  | .constant, _ => Search.ofExcept (p.selectFromTable [c] depth acceptPartial)
  | .basic, _ => basicNode search c optional depth acceptPartial
  | .aggregate, _ => p.groupNode search c optional depth acceptPartial
  | .filter, some (.filter content condition) =>
    filterNode search c content condition optional depth acceptPartial
  | .window, some (.window window) => windowNode search c window optional depth acceptPartial
  | .multiSelect, some (.multiSelect multi) =>
    multiSelectNode search c multi optional depth acceptPartial
  | _, _ => return none

/-- A node for one concept, with the optional concepts or else without. -/
def firstNode (p : Planner) (search : Searcher) (c : Concept) (optional : List Concept)
    (depth : Nat) (acceptPartial : Bool) : Search (Option Node) := do
  match ← p.generate search c optional depth acceptPartial with
  | some node => return some node
  | none =>
    if optional.isEmpty then return none else p.generate search c [] depth acceptPartial

/-- Whether queries put out all requested concepts, and completely unless partial sources are
accepted. -/
def provideAll (queries : List Query) (request : List Concept) (acceptPartial : Bool) : Bool :=
  request.all fun c => queries.any fun q =>
    if acceptPartial then q.provides c.address else q.completeAddresses.contains c.address

/-- Whether stacked nodes cover a request and can all be joined. -/
def covered (stack : List Node) (request : List Concept) (acceptPartial : Bool) :
    Except PlanError Bool := do
  if stack.isEmpty then return false
  let queries ← Node.resolveAll stack
  return provideAll queries request acceptPartial &&
    (queries.length == 1 || ParentJoin.isConnected (ParentJoin.derive queries) queries.length)

/-- Stacks nodes for the pending concepts until they cover the request. -/
def stackNodes (p : Planner) (search : Searcher) (request : List Concept) (depth : Nat)
    (acceptPartial : Bool) : (pending : List Concept) → List Node → Search (Option (List Node))
  | [], _ => return none
  | c :: pending, stack => do
    let others := request.filter (·.address != c.address)
    let found ← p.firstNode search c others (depth + 1) acceptPartial
    let stack := stack ++ found.toList
    if ← Search.ofExcept (covered stack request acceptPartial) then return some stack
    else stackNodes p search request depth acceptPartial pending stack

def joinStack (stack : List Node) (request : List Concept) (depth : Nat) : Node :=
  match stack with
  | [node] => node
  | nodes => .of (.merge []) (nodes.flatMap (·.outputs)) request nodes depth

def prioritized (p : Planner) (request : List Concept) : List Concept :=
  sortBy (fun a b => (p.strategy a).rank ≤ (p.strategy b).rank) request

/-- One search, with nested searches left to `search`. -/
def searchStep (p : Planner) (search : Searcher) (request : List Concept) (depth : Nat)
    (acceptPartial : Bool) : Search (Option Node) := do
  match ← p.stackNodes search request depth acceptPartial (p.prioritized request) [] with
  | some stack => return some (joinStack stack request depth)
  | none =>
    match ← p.joinNode search request depth acceptPartial with
    | some node => return some (node.withOutputs request)
    | none => if acceptPartial then return none else search request depth true

/-- Remembers what a search finds under its key, and cuts short a search of a key in flight. A miss
that hangs on a search in flight is not remembered. -/
def remembering (key : String) (step : Search (Option Node)) : Search (Option Node) := do
  let before ← get
  match before.get? key with
  | some result => return result
  | none =>
    if before.isInFlight key then
      set before.shortCircuit
      return none
    else
      set (before.start key)
      let outcome ← Search.outcome step
      let after ← get
      set (after.finish key)
      match outcome with
      | .error halt => throw halt
      | .ok result =>
        if result.isSome || !after.isIncomplete key then
          modify (·.record key result)
        return result

def search (p : Planner) : (bound : Nat) → Searcher
  | 0 => fun _ _ _ => throw .exhausted
  | bound + 1 => fun request depth acceptPartial =>
    let request := Concept.unique request
    remembering (History.key request acceptPartial)
      (p.searchStep (search p bound) request depth acceptPartial)

def plan (p : Planner) (request : List Concept) (depth : Nat) (history : History) :
    Except PlanError Node × History :=
  let notFound := PlanError.noDatasource (request.map (·.address))
  match (p.search (p.searchBound request) request depth p.acceptPartial).run.run history with
  | (.ok (some node), history) => (.ok node, history)
  | (.ok none, history) => (.error notFound, history)
  | (.error (.failed error), history) => (.error error, history)
  | (.error .exhausted, history) => (.error notFound, history)

end Planner

end SemanticQuery
