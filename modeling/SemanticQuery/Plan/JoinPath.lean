import SemanticQuery.Plan.Planner

/-!
Join paths. A request that no stack of nodes covers is extended by the concepts on the shortest
paths from one datasource to all requested concepts, which is what a join through that datasource
needs.
-/

namespace SemanticQuery

abbrev PathSet := List (List String)

namespace PathSet

def totalLength (paths : PathSet) : Nat := total (paths.map List.length)

def addresses (paths : PathSet) : List String :=
  Names.ofList (paths.flatten.filterMap Vertex.addressOfName?)

end PathSet

def isNested (a b : List String) : Bool := Names.subset a b || Names.subset b a

namespace Planner

def pathsFrom (p : Planner) (d : Datasource) :
    List Concept → Except PlanError (Option (List (List String)))
  | [] => return some []
  | c :: cs => do
    if !p.graph.contains (Vertex.conceptName c.address) then return none
    match ← p.graph.datasourcePath d.identifier c.address with
    | none => return none
    | some path => return (← pathsFrom p d cs).map (path :: ·)

/-- The paths from a datasource that has at least one of the concepts, and has none of them
partially unless that is accepted. -/
def joinPaths? (p : Planner) (cs : List Concept) (acceptPartial : Bool) (d : Datasource) :
    Except PlanError (Option PathSet) := do
  match ← p.pathsFrom d cs with
  | none => return none
  | some paths =>
    let direct := paths.any fun path => (path.filter Vertex.isDatasourceName).length == 1
    let isPartial := cs.any fun c => d.isPartialFor c.address
    if direct && (acceptPartial || !isPartial) then return some paths else return none

/-- The different sets of concepts that a join may pass, those of the shortest paths first. -/
def joinCandidates (p : Planner) (cs : List Concept) (acceptPartial : Bool) :
    Except PlanError (List (List String)) := do
  let found ← p.catalog.datasources.mapM (p.joinPaths? cs acceptPartial)
  let sorted := sortBy (fun a b => a.totalLength ≤ b.totalLength) (found.filterMap id)
  return (sorted.map PathSet.addresses).foldl
    (fun sets set => if sets.contains set then sets else sets ++ [set]) []

def smallest? : List (List String) → Option (List String)
  | [] => none
  | set :: sets =>
    match smallest? sets with
    | none => some set
    | some other => if set.length ≤ other.length then some set else some other

/-- The addresses that the request has to be extended by, if there are any. Candidates of which
neither contains the other are ambiguous. -/
def joinExtension (p : Planner) (cs : List Concept) (acceptPartial : Bool) :
    Except PlanError (Option (List String)) := do
  let candidates ← p.joinCandidates cs acceptPartial
  if !(ParentJoin.pairs candidates).all fun (a, b) => isNested a b then
    throw (.ambiguousRelationship candidates)
  let requested := Concept.addresses cs
  match smallest? candidates with
  | none => return none
  | some set =>
    return if Names.same set requested then none else some (set.filter (!requested.contains ·))

def joinNode (p : Planner) (search : Searcher) (cs : List Concept) (depth : Nat)
    (acceptPartial : Bool) : Search (Option Node) := do
  match ← Search.ofExcept (p.joinExtension cs acceptPartial) with
  | none => return none
  | some addresses =>
    let added ← Search.ofExcept (addresses.mapM p.catalog.concept)
    search (cs ++ added) (depth + 1) acceptPartial

end Planner

end SemanticQuery
