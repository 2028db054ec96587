import SemanticQuery.Plan.Planner

/-!
Nodes for derived concepts. Each searches for what the derivation reads, computes the concept over
it, and then joins on whatever of the optional concepts the result lacks.
-/

namespace SemanticQuery

def Concept.isAggregateLike (c : Concept) : Bool :=
  c.purpose == .metric || c.derivation == .aggregate

namespace Planner

/-- The left join of a node with one that has the optional concepts it lacks. It becomes a cross
join if that one has none of the keys. -/
def enrichedWith (node extra : Node) (keys missing : List Concept) (depth : Nat) : Node :=
  let shared := keys.filter fun key => extra.provides key.address
  let join : ParentJoin := ⟨0, 1, shared, if shared.isEmpty then .cross else .leftOuter, false⟩
  (Node.of (.merge [join]) (node.outputs ++ extra.outputs) (node.outputs ++ missing) [node, extra]
    depth).withPartials node.partials

/-- Joins the optional concepts that a node lacks onto it, by the keys. The node stays as it is if
they are not found. -/
def enrich (search : Searcher) (node : Node) (keys optional : List Concept) (depth : Nat)
    (acceptPartial : Bool) : Search Node := do
  let missing := optional.filter fun c => !node.provides c.address
  if missing.isEmpty || keys.isEmpty then return node
  match ← search (keys ++ missing) (depth + 1) acceptPartial with
  | none => return node
  | some extra => return enrichedWith node extra keys missing depth

def basicNode (search : Searcher) (c : Concept) (optional : List Concept) (depth : Nat)
    (acceptPartial : Bool) : Search (Option Node) := do
  match ← search (c.reads ++ optional) (depth + 1) acceptPartial with
  | none => return none
  | some parent =>
    return some (.of (.merge []) parent.outputs (c :: parent.outputs) [parent] depth)

/-- Filters the rows of the content. The content itself is not put out: only the rows that pass are
visible, under the name of the concept. -/
def filterNode (search : Searcher) (c content : Concept) (condition : Condition)
    (optional : List Concept) (depth : Nat) (acceptPartial : Bool) : Search (Option Node) := do
  let keys := content.grain.components.filter (·.address != content.address)
  let inputs := content :: Concept.unique condition.reads ++ keys
  match ← search inputs (depth + 1) acceptPartial with
  | none => return none
  | some parent =>
    let grain := if keys.isEmpty then c.grain else Grain.of keys
    let node := ((Node.of .filter inputs (c :: keys) [parent] depth).withCondition
      (some condition)).withGrain grain
    return some (← enrich search node keys optional depth acceptPartial)

/-- Computes a window at the grain of its partitions and its content. -/
def windowNode (search : Searcher) (c : Concept) (window : Window) (optional : List Concept)
    (depth : Nat) (acceptPartial : Bool) : Search (Option Node) := do
  match ← search window.reads (depth + 1) acceptPartial with
  | none => return none
  | some parent =>
    let grain := Grain.of (window.partitions ++ [window.content])
    let node := (Node.of .window window.reads (c :: window.reads) [parent] depth).withGrain grain
    return some (← enrich search node grain.components optional depth acceptPartial)

/-- The grain at which an aggregate is computed: its own, or if that is abstract the grain of the
other optional concepts. -/
def groupGrain (c : Concept) (optional : List Concept) : Grain :=
  if c.grain.isAbstract then Grain.of (optional.filter (!·.isAggregateLike)) else c.grain

def pushedCondition? (p : Planner) (c : Concept) : Option Condition :=
  match p.rowFilter with
  | some rowFilter => if rowFilter.appliesTo c then some rowFilter.condition else none
  | none => none

/-- The parent of an aggregate that reads `inputs`, and what is read from it. With a condition to be
pushed the parent also has what the condition reads, if there is such a parent. -/
def groupParent (p : Planner) (search : Searcher) (c : Concept) (inputs : List Concept)
    (depth : Nat) (acceptPartial : Bool) : Search (Option (Node × List Concept)) := do
  let plain : Search (Option (Node × List Concept)) := do
    return (← search inputs (depth + 1) acceptPartial).map (·, inputs)
  match p.pushedCondition? c with
  | none => plain
  | some condition =>
    let filtered := inputs ++ condition.reads
    match ← search filtered (depth + 1) acceptPartial with
    | none => plain
    | some node =>
      return some (node.withCondition (Condition.both node.condition (some condition)), filtered)

def groupNode (p : Planner) (search : Searcher) (c : Concept) (optional : List Concept)
    (depth : Nat) (acceptPartial : Bool) : Search (Option Node) := do
  let grain := groupGrain c optional
  match ← p.groupParent search c (c.reads ++ grain.components) depth acceptPartial with
  | none => return none
  | some (parent, inputs) =>
    let output := if c.grain.isAbstract && !grain.isAbstract then c.withGrain grain else c
    let node := (Node.of .group inputs (output :: grain.components) [parent] depth).withGrain grain
    return some (← enrich search node grain.components (optional.filter (!·.isAggregateLike)) depth
      acceptPartial)

end Planner

end SemanticQuery
