import SemanticQuery.Query.Basic

/-!
The JSON form of queries and their sources.
-/

namespace SemanticQuery

def SourceJoin.toJson (j : SourceJoin) : Json :=
  .object
    [("left", .string j.left),
     ("right", .string j.right),
     ("concepts", .ofList Concept.toJson j.concepts),
     ("join_type", .string j.joinType.label)]

def SourceMap.toJson (m : SourceMap) : Json :=
  .object (m.entries.map fun entry => (entry.1, .ofList .string entry.2))

mutual

def Query.toJson : Query → Json
  | ⟨inputs, outputs, sourceMap, sources, grain, joins, sourceType, partials, condition, limit⟩ =>
    .object
      [("input_concepts", .ofList Concept.toJson inputs),
       ("output_concepts", .ofList Concept.toJson outputs),
       ("source_map", SourceMap.toJson sourceMap),
       ("datasources", .array (Source.toJsonAll sources)),
       ("grain", grain.toJson),
       ("joins", .ofList SourceJoin.toJson joins),
       ("source_type", .string sourceType.label),
       ("partial_concepts", .ofList Concept.toJson partials),
       ("condition", .ofOption Condition.toJson condition),
       ("limit", .ofOption .ofNat limit)]

def Source.toJson : Source → Json
  | .datasource d => .tagged "Datasource" d.toJson
  | .query q => .tagged "Query" q.toJson

def Source.toJsonAll : List Source → List Json
  | [] => []
  | s :: ss => s.toJson :: Source.toJsonAll ss

end

end SemanticQuery
