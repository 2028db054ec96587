import SemanticQuery.Call
import SemanticQuery.Concept.Declare

/-!
Binding of references. Every placeholder is replaced by the concept that a resolver finds for its
address; calls around it are checked again, and types and grains that were unknown are filled in.
-/

namespace SemanticQuery

abbrev Resolver := String → Except PlanError Concept

/-- A call over bound arguments. A result type that was declared, and does not follow from the old
arguments, is kept. -/
def Call.rebuild (operator : Operator) (old new : List Expr) (datatype : DataType) :
    Except PlanError Call := do
  let rebuilt ← Call.of operator new
  if datatype == .unknown then return rebuilt
  let plain ← Call.of operator old
  return if plain.datatype == datatype then rebuilt else { rebuilt with datatype }

/-- A concept over bound keys and derivation. A grain in which a placeholder stood is computed
again. -/
def Concept.rebuild (old : Concept) (lineage : Option Lineage) (keys : List Concept) : Concept :=
  let datatype :=
    match lineage, old.datatype with
    | some lineage, .unknown => lineage.datatype
    | _, datatype => datatype
  let c : Concept := { old with datatype, lineage, keys, grain := ∅ }
  c.withGrain (if old.grain.hasPlaceholders then c.declaredGrain else old.grain)

mutual

def Concept.rebind (resolve : Resolver) : Concept → Except PlanError Concept
  | ⟨name, datatype, purpose, metadata, lineage, ns, keys, grain⟩ =>
    let old : Concept := ⟨name, datatype, purpose, metadata, lineage, ns, keys, grain⟩
    if old.isPlaceholder then resolve old.address
    else do
      let lineage ← Lineage.rebindOption resolve lineage
      let keys ← Concept.rebindAll resolve keys
      return old.rebuild lineage keys

def Concept.rebindAll (resolve : Resolver) : List Concept → Except PlanError (List Concept)
  | [] => return []
  | c :: cs => return (← c.rebind resolve) :: (← Concept.rebindAll resolve cs)

def Lineage.rebindOption (resolve : Resolver) : Option Lineage → Except PlanError (Option Lineage)
  | none => return none
  | some lineage => return some (← lineage.rebind resolve)

def Lineage.rebind (resolve : Resolver) : Lineage → Except PlanError Lineage
  | .call call => return .call (← call.rebind resolve)
  | .window window => return .window (← window.rebind resolve)
  | .filter content condition =>
    return .filter (← content.rebind resolve) (← condition.rebind resolve)
  | .aggregate aggregate => return .aggregate (← aggregate.rebind resolve)
  | .multiSelect multi => return .multiSelect multi

def Call.rebind (resolve : Resolver) : Call → Except PlanError Call
  | ⟨operator, arguments, datatype, _⟩ => do
    let bound ← Expr.rebindAll resolve arguments
    Call.rebuild operator arguments bound datatype

def Aggregate.rebind (resolve : Resolver) : Aggregate → Except PlanError Aggregate
  | ⟨call, groupBy⟩ => return ⟨← call.rebind resolve, ← Concept.rebindAll resolve groupBy⟩

def Expr.rebind (resolve : Resolver) : Expr → Except PlanError Expr
  | .concept c => return .concept (← c.rebind resolve)
  | .literal l => return .literal l
  | .call call => return .call (← call.rebind resolve)
  | .aggregate aggregate => return .aggregate (← aggregate.rebind resolve)
  | .case branches otherwise =>
    return .case (← Branch.rebindAll resolve branches) (← Expr.rebindOption resolve otherwise)
  | .datatype t => return .datatype t
  | .list items => return .list items

def Expr.rebindAll (resolve : Resolver) : List Expr → Except PlanError (List Expr)
  | [] => return []
  | e :: es => return (← e.rebind resolve) :: (← Expr.rebindAll resolve es)

def Expr.rebindOption (resolve : Resolver) : Option Expr → Except PlanError (Option Expr)
  | none => return none
  | some e => return some (← e.rebind resolve)

def Branch.rebind (resolve : Resolver) : Branch → Except PlanError Branch
  | ⟨condition, result⟩ => return ⟨← condition.rebind resolve, ← result.rebind resolve⟩

def Branch.rebindAll (resolve : Resolver) : List Branch → Except PlanError (List Branch)
  | [] => return []
  | b :: bs => return (← b.rebind resolve) :: (← Branch.rebindAll resolve bs)

def Condition.rebind (resolve : Resolver) : Condition → Except PlanError Condition
  | .compare left right comparator =>
    return .compare (← left.rebind resolve) (← right.rebind resolve) comparator
  | .combine left right connective =>
    return .combine (← left.rebind resolve) (← right.rebind resolve) connective
  | .parenthesis inner => return .parenthesis (← inner.rebind resolve)

def Window.rebind (resolve : Resolver) : Window → Except PlanError Window
  | ⟨kind, content, orderBy, partitions, index⟩ =>
    return ⟨kind, ← content.rebind resolve, ← OrderItem.rebindAll resolve orderBy,
      ← Concept.rebindAll resolve partitions, index⟩

def OrderItem.rebind (resolve : Resolver) : OrderItem → Except PlanError OrderItem
  | ⟨concept, direction⟩ => return ⟨← concept.rebind resolve, direction⟩

def OrderItem.rebindAll (resolve : Resolver) :
    List OrderItem → Except PlanError (List OrderItem)
  | [] => return []
  | item :: items => return (← item.rebind resolve) :: (← OrderItem.rebindAll resolve items)

end

end SemanticQuery
