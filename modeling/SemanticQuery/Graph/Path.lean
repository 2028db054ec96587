import SemanticQuery.Graph.Basic

/-!
Shortest paths by breadth-first search. Vertices are visited in the order of their names, so that
of several shortest paths the one with the least names is found.
-/

namespace SemanticQuery.Graph

/-- Takes paths, written from their end to their start, off a queue until one ends at the target.
The queue is fed with the extensions of a path to vertices that were not seen before. -/
def searchFrom (g : Graph) (target : String) :
    (fuel : Nat) → (queue : List (List String)) → (seen : List String) → Option (List String)
  | 0, _, _ => none
  | _ + 1, [], _ => none
  | fuel + 1, [] :: queue, seen => searchFrom g target fuel queue seen
  | fuel + 1, (current :: path) :: queue, seen =>
    if current == target then some (current :: path).reverse
    else
      let fresh := (g.successors current).filter fun name => !seen.contains name
      searchFrom g target fuel (queue ++ fresh.map fun name => name :: current :: path)
        (fresh ++ seen)

def neighbors (g : Graph) (name : String) : Except PlanError (List String) :=
  if g.contains name then .ok (g.successors name) else .error (.nodeNotFound name)

/-- The names on the shortest path between two vertices, both included, or nothing if the second
cannot be reached. Every vertex enters the queue at most once. -/
def shortestPath (g : Graph) (source target : String) : Except PlanError (Option (List String)) :=
  if !g.contains source then .error (.nodeNotFound source)
  else if !g.contains target then .error (.nodeNotFound target)
  else .ok (g.searchFrom target (g.vertexCount + 1) [[source]] [source])

def datasourcePath (g : Graph) (identifier address : String) :
    Except PlanError (Option (List String)) :=
  g.shortestPath (Vertex.datasourceName identifier) (Vertex.conceptName address)

end SemanticQuery.Graph
