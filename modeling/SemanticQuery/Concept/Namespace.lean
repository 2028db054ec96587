import SemanticQuery.Concept.Basic

/-!
Moving concepts to another namespace. The derivation and the grain move along; the keys of a
concept and the selects that a concept is aligned from stay where they are.
-/

namespace SemanticQuery

mutual

def Concept.withNamespace (space : String) : Concept → Concept
  | ⟨name, datatype, purpose, metadata, lineage, _, keys, grain⟩ =>
    ⟨name, datatype, purpose, metadata, Lineage.withNamespaceOption space lineage, space, keys,
      grain.withNamespace space⟩

def Concept.withNamespaceAll (space : String) : List Concept → List Concept
  | [] => []
  | c :: cs => c.withNamespace space :: Concept.withNamespaceAll space cs

def Grain.withNamespace (space : String) : Grain → Grain
  | ⟨components, nested⟩ => ⟨Concept.withNamespaceAll space components, nested⟩

def Lineage.withNamespaceOption (space : String) : Option Lineage → Option Lineage
  | none => none
  | some lineage => some (lineage.withNamespace space)

def Lineage.withNamespace (space : String) : Lineage → Lineage
  | .call call => .call (call.withNamespace space)
  | .window window => .window (window.withNamespace space)
  | .filter content condition =>
    .filter (content.withNamespace space) (condition.withNamespace space)
  | .aggregate aggregate => .aggregate (aggregate.withNamespace space)
  | .multiSelect multi => .multiSelect multi

def Call.withNamespace (space : String) : Call → Call
  | ⟨operator, arguments, datatype, purpose⟩ =>
    ⟨operator, Expr.withNamespaceAll space arguments, datatype, purpose⟩

def Aggregate.withNamespace (space : String) : Aggregate → Aggregate
  | ⟨call, groupBy⟩ => ⟨call.withNamespace space, Concept.withNamespaceAll space groupBy⟩

def Expr.withNamespace (space : String) : Expr → Expr
  | .concept c => .concept (c.withNamespace space)
  | .literal l => .literal l
  | .call call => .call (call.withNamespace space)
  | .aggregate aggregate => .aggregate (aggregate.withNamespace space)
  | .case branches otherwise =>
    .case (Branch.withNamespaceAll space branches) (Expr.withNamespaceOption space otherwise)
  | .datatype t => .datatype t
  | .list items => .list items

def Expr.withNamespaceAll (space : String) : List Expr → List Expr
  | [] => []
  | e :: es => e.withNamespace space :: Expr.withNamespaceAll space es

def Expr.withNamespaceOption (space : String) : Option Expr → Option Expr
  | none => none
  | some e => some (e.withNamespace space)

def Branch.withNamespace (space : String) : Branch → Branch
  | ⟨condition, result⟩ => ⟨condition.withNamespace space, result.withNamespace space⟩

def Branch.withNamespaceAll (space : String) : List Branch → List Branch
  | [] => []
  | b :: bs => b.withNamespace space :: Branch.withNamespaceAll space bs

def Condition.withNamespace (space : String) : Condition → Condition
  | .compare left right comparator =>
    .compare (left.withNamespace space) (right.withNamespace space) comparator
  | .combine left right connective =>
    .combine (left.withNamespace space) (right.withNamespace space) connective
  | .parenthesis inner => .parenthesis (inner.withNamespace space)

def Window.withNamespace (space : String) : Window → Window
  | ⟨kind, content, orderBy, partitions, index⟩ =>
    ⟨kind, content.withNamespace space, OrderItem.withNamespaceAll space orderBy,
      Concept.withNamespaceAll space partitions, index⟩

def OrderItem.withNamespace (space : String) : OrderItem → OrderItem
  | ⟨concept, direction⟩ => ⟨concept.withNamespace space, direction⟩

def OrderItem.withNamespaceAll (space : String) : List OrderItem → List OrderItem
  | [] => []
  | item :: items => item.withNamespace space :: OrderItem.withNamespaceAll space items

end

end SemanticQuery
