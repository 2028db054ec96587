import SemanticQuery.Query.Basic

/-!
Merging of queries that have the same grain and source type. Sources of one name are merged in
turn, and an output counts as complete as soon as one side has it complete.
-/

namespace SemanticQuery

mutual

/-- How deep queries are nested in a query, itself included. -/
def Query.depth : Query → Nat
  | ⟨_, _, _, sources, _, _, _, _, _, _⟩ => Source.depthAll sources + 1

def Source.depth : Source → Nat
  | .datasource _ => 0
  | .query q => q.depth

def Source.depthAll : List Source → Nat
  | [] => 0
  | s :: ss => max s.depth (Source.depthAll ss)

end

/-- Adds a source to sources with different names. A query is merged with the query of its name. -/
def Source.absorb (mergeNested : Query → Query → Except PlanError Query) (incoming : Source) :
    List Source → Except PlanError (List Source)
  | [] => return [incoming]
  | s :: ss =>
    if s.name == incoming.name then
      match s, incoming with
      | .query q, .query r => return .query (← mergeNested q r) :: ss
      | _, _ => return s :: ss
    else return s :: (← absorb mergeNested incoming ss)

namespace Query

/-- The entries of `a`, completed by those of `b` where `a` has none or an empty one. -/
def mergeSourceMaps (a b : SourceMap) : SourceMap :=
  b.entries.foldl
    (fun merged entry =>
      match merged.get? entry.1 with
      | some (_ :: _) => merged
      | _ => merged.insert entry.1 entry.2)
    a

def mergeJoins (a b : List SourceJoin) : List SourceJoin :=
  b.foldl (fun joins j => if joins.any (·.id == j.id) then joins else joins ++ [j]) a

def mergeWith (mergeNested : Query → Query → Except PlanError Query) (a b : Query) :
    Except PlanError Query := do
  if !a.grain.same b.grain then
    throw (.grainMismatch a.identifier b.identifier a.grain.display b.grain.display)
  if a.sourceType != b.sourceType then
    throw (.sourceTypeMismatch a.identifier b.identifier)
  let sources ← (a.sources ++ b.sources).foldlM
    (fun kept incoming => incoming.absorb mergeNested kept) []
  let merged ← of (a.inputs ++ b.inputs) (a.outputs ++ b.outputs)
    (mergeSourceMaps a.sourceMap b.sourceMap) sources a.grain (mergeJoins a.joins b.joins)
    a.sourceType
  let partials :=
    a.partials.filter (fun c => !b.completeAddresses.contains c.address) ++
      b.partials.filter (fun c => !a.completeAddresses.contains c.address)
  return { merged.withPartials partials with
    condition := Condition.both a.condition b.condition
    limit := a.limit <|> b.limit }

/-- Merges queries that are nested at most `depth` deep. -/
def mergeWithin : (depth : Nat) → Query → Query → Except PlanError Query
  | 0, a, _ => return a
  | depth + 1, a, b => mergeWith (mergeWithin depth) a b

def merge (a b : Query) : Except PlanError Query := mergeWithin (max a.depth b.depth) a b

end Query

end SemanticQuery
