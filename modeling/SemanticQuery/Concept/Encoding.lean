import SemanticQuery.Concept.Basic
import SemanticQuery.Fingerprint

/-!
The JSON form of concepts and of all that can stand in them. Fingerprints are taken of this form,
so the names and the order of the members are part of every name that contains a fingerprint.
-/

namespace SemanticQuery

def Metadata.toJson (m : Metadata) : Json :=
  .object
    [("description", .ofOption .string m.description),
     ("line_number", .ofOption .ofNat m.line),
     ("concept_source", .string m.source.label)]

def Literal.toJson : Literal → Json
  | .string s => .tagged "String" (.string s)
  | .integer n => .tagged "Integer" (.int n)
  | .float x => .tagged "Float" (.float x)
  | .bool b => .tagged "Bool" (.bool b)
  | .null => .string "Null"

def Modifier.toJson (m : Modifier) : Json := .string m.label

mutual

def Concept.toJson : Concept → Json
  | ⟨name, datatype, purpose, metadata, lineage, ns, keys, grain⟩ =>
    .object
      [("name", .string name),
       ("datatype", .string datatype.label),
       ("purpose", .string purpose.label),
       ("metadata", metadata.toJson),
       ("lineage", Lineage.toJsonOption lineage),
       ("namespace", .string ns),
       ("keys", .array (Concept.toJsonAll keys)),
       ("grain", grain.toJson)]

def Concept.toJsonAll : List Concept → List Json
  | [] => []
  | c :: cs => c.toJson :: Concept.toJsonAll cs

def Grain.toJson : Grain → Json
  | ⟨components, nested⟩ =>
    .object [("components", .array (Concept.toJsonAll components)), ("nested", .bool nested)]

def Lineage.toJsonOption : Option Lineage → Json
  | none => .null
  | some lineage => lineage.toJson

def Lineage.toJson : Lineage → Json
  | .call call => .tagged "Function" call.toJson
  | .window window => .tagged "Window" window.toJson
  | .filter content condition =>
    .tagged "Filter"
      (.object
        [("content", content.toJson),
         ("where_clause", .object [("conditional", condition.toJson)])])
  | .aggregate aggregate => .tagged "Aggregate" aggregate.toJson
  | .multiSelect multi => .tagged "MultiSelect" multi.toJson

def Call.toJson : Call → Json
  | ⟨operator, arguments, datatype, purpose⟩ =>
    .object
      [("operator", .string operator.label),
       ("arguments", .array (Expr.toJsonAll arguments)),
       ("output_datatype", .string datatype.label),
       ("output_purpose", .string purpose.label)]

def Aggregate.toJson : Aggregate → Json
  | ⟨call, groupBy⟩ =>
    .object [("function", call.toJson), ("by", .array (Concept.toJsonAll groupBy))]

def Expr.toJson : Expr → Json
  | .concept c => .tagged "Concept" c.toJson
  | .literal l => .tagged "Literal" l.toJson
  | .call call => .tagged "Function" call.toJson
  | .aggregate aggregate => .tagged "Aggregate" aggregate.toJson
  | .case branches otherwise =>
    .tagged "Case"
      (.object
        [("whens", .array (Branch.toJsonAll branches)),
         ("otherwise", Expr.toJsonOption otherwise)])
  | .datatype t => .tagged "DataType" (.string t.label)
  | .list items => .tagged "List" (.ofList Literal.toJson items)

def Expr.toJsonAll : List Expr → List Json
  | [] => []
  | e :: es => e.toJson :: Expr.toJsonAll es

def Expr.toJsonOption : Option Expr → Json
  | none => .null
  | some e => e.toJson

def Branch.toJson : Branch → Json
  | ⟨condition, result⟩ => .object [("condition", condition.toJson), ("result", result.toJson)]

def Branch.toJsonAll : List Branch → List Json
  | [] => []
  | b :: bs => b.toJson :: Branch.toJsonAll bs

def Condition.toJson : Condition → Json
  | .compare left right comparator =>
    .tagged "Comparison"
      (.object
        [("left", left.toJson), ("right", right.toJson), ("operator", .string comparator.label)])
  | .combine left right connective =>
    .tagged "Conditional"
      (.object
        [("left", left.toJson), ("right", right.toJson), ("operator", .string connective.label)])
  | .parenthesis inner => .tagged "Parenthetical" inner.toJson

def Window.toJson : Window → Json
  | ⟨kind, content, orderBy, partitions, index⟩ =>
    .object
      [("window_type", .string kind.label),
       ("content", content.toJson),
       ("order_by", .array (OrderItem.toJsonAll orderBy)),
       ("over", .array (Concept.toJsonAll partitions)),
       ("index", .ofOption .int index)]

def OrderItem.toJson : OrderItem → Json
  | ⟨concept, direction⟩ =>
    .object [("expr", concept.toJson), ("order", .string direction.label)]

def OrderItem.toJsonAll : List OrderItem → List Json
  | [] => []
  | item :: items => item.toJson :: OrderItem.toJsonAll items

def OrderItem.toJsonClause : Option (List OrderItem) → Json
  | none => .null
  | some items => .object [("items", .array (OrderItem.toJsonAll items))]

def Condition.toJsonClause : Option Condition → Json
  | none => .null
  | some condition => .object [("conditional", condition.toJson)]

def SelectItem.toJson : SelectItem → Json
  | .concept c modifiers =>
    .object
      [("content", .tagged "Concept" c.toJson),
       ("modifiers", .ofList Modifier.toJson modifiers)]
  | .transform call output modifiers =>
    .object
      [("content",
        .tagged "Transform" (.object [("function", call.toJson), ("output", output.toJson)])),
       ("modifiers", .ofList Modifier.toJson modifiers)]

def SelectItem.toJsonAll : List SelectItem → List Json
  | [] => []
  | item :: items => item.toJson :: SelectItem.toJsonAll items

def Select.toJson : Select → Json
  | ⟨selection, condition, orderBy, limit⟩ =>
    .object
      [("selection", .array (SelectItem.toJsonAll selection)),
       ("where_clause", Condition.toJsonClause condition),
       ("order_by", OrderItem.toJsonClause orderBy),
       ("limit", .ofOption .ofNat limit)]

def Select.toJsonAll : List Select → List Json
  | [] => []
  | s :: ss => s.toJson :: Select.toJsonAll ss

def AlignItem.toJson : AlignItem → Json
  | ⟨name, concepts⟩ =>
    .object [("alias", .string name), ("concepts", .array (Concept.toJsonAll concepts))]

def AlignItem.toJsonAll : List AlignItem → List Json
  | [] => []
  | item :: items => item.toJson :: AlignItem.toJsonAll items

def MultiSelect.toJson : MultiSelect → Json
  | ⟨selects, align, ns⟩ =>
    .object
      [("selects", .array (Select.toJsonAll selects)),
       ("align", .object [("items", .array (AlignItem.toJsonAll align))]),
       ("namespace", .string ns)]

end

def Condition.fingerprint (condition : Condition) : String := condition.toJson.fingerprint

end SemanticQuery
