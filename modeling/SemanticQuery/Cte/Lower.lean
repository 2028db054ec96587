import SemanticQuery.Cte.Basic

/-!
Lowering of queries to common table expressions, the sources of a query before the query. A query
over a single datasource reads it directly; any other reads an expression for each of its sources.
-/

namespace SemanticQuery

/-- The longest base that leaves room for the fingerprint and an underscore. -/
def Cte.baseLength (maxLength : Nat) : Nat := maxLength - 9

/-- The name of the expression of a query: its identifier in letters, digits and underscores, cut to
fit, and the fingerprint of the whole identifier. -/
def Query.cteName (maxLength : Nat) (q : Query) : String :=
  let identifier := q.identifier
  let base := ("cte_" ++ identifier).toList.map fun c => if c.isAlphanum then c else '_'
  String.ofList (base.take (Cte.baseLength maxLength)) ++ "_" ++
    (Json.string identifier).fingerprint

/-- The expression of a query, given the expressions of its sources by name. Without them the names
in the source map stand for datasources. -/
def Query.toCte (maxLength : Nat) (q : Query) (parents : Option (List (String × String))) : Cte :=
  let parentMap := NameMap.ofList (parents.getD [])
  let rename (sources : List String) : String :=
    match sources, parents with
    | [], _ => ""
    | name :: _, none => name
    | name :: _, some _ => (parentMap.get? name).getD ""
  let cteFor (name : String) : String := (parentMap.get? name).getD name
  { name := q.cteName maxLength
    source := q
    outputs := q.outputs
    sourceMap := q.sourceMap.map fun _ sources => rename sources
    grain := q.grain
    grouped := q.groupRequired
    parents := (parents.getD []).map (·.2)
    joins := q.joins.map fun j => ⟨cteFor j.left, cteFor j.right, j.joinType, j.concepts⟩
    condition := q.condition
    partials := q.partials }

def Source.cteOf (s : Source) (ctes : List Cte) : Option (String × String) :=
  ctes.getLast?.map fun cte => (s.name, cte.name)

def Source.isDirect : List Source → Bool
  | [] | [.datasource _] => true
  | _ => false

mutual

def Query.lower (maxLength : Nat) : Query → Except PlanError (List Cte)
  | ⟨inputs, outputs, sourceMap, sources, grain, joins, sourceType, partials, condition, limit⟩ =>
    let q : Query :=
      ⟨inputs, outputs, sourceMap, sources, grain, joins, sourceType, partials, condition, limit⟩
    if Source.isDirect sources then Cte.mergeAll [q.toCte maxLength none]
    else do
      let (parents, ctes) ← Source.lowerAll maxLength sources
      Cte.mergeAll (ctes ++ [q.toCte maxLength (some parents)])

def Source.lower (maxLength : Nat) : Source → Except PlanError (List Cte)
  | .datasource d => do
    let q ← Query.ofDatasource d
    Cte.mergeAll [q.toCte maxLength none]
  | .query q => q.lower maxLength

/-- The expressions of sources, and for each source the name of its last expression. -/
def Source.lowerAll (maxLength : Nat) :
    List Source → Except PlanError (List (String × String) × List Cte)
  | [] => return ([], [])
  | s :: ss => do
    let ctes ← s.lower maxLength
    let (parents, more) ← Source.lowerAll maxLength ss
    return ((s.cteOf ctes).toList ++ parents, ctes ++ more)

end

end SemanticQuery
