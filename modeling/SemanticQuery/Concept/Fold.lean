import SemanticQuery.Concept.Basic

/-!
Folds over a concept. A fold sees a concept with its parts: its keys, the concepts in its
derivation, and the components of its grain. The results for the parts are computed on demand.
-/

namespace SemanticQuery

/-- The concepts in a derivation, each with the result of a fold. -/
structure LineageParts (β : Type) where
  /-- What the derivation reads, in order; the grouping concepts of an aggregate come last. -/
  reads : List (Concept × β) := []
  /-- The concepts that an aggregate is grouped by. -/
  groupBy : List (Concept × β) := []
  /-- The items of each aligned select. -/
  branches : List (List (SelectItem × β)) := []

/-- The parts of a concept, each with the result of a fold. -/
structure Parts (β : Type) where
  keys : Unit → List (Concept × β)
  lineage : Unit → LineageParts β
  grain : Unit → List (Concept × β)

mutual

def Concept.fold (f : Concept → Parts β → β) : Concept → β
  | ⟨name, datatype, purpose, metadata, lineage, ns, keys, grain⟩ =>
    f ⟨name, datatype, purpose, metadata, lineage, ns, keys, grain⟩
      ⟨fun _ => Concept.foldAll f keys, fun _ => Lineage.foldOption f lineage,
        fun _ => grain.fold f⟩

def Concept.foldAll (f : Concept → Parts β → β) : List Concept → List (Concept × β)
  | [] => []
  | c :: cs => (c, c.fold f) :: Concept.foldAll f cs

def Grain.fold (f : Concept → Parts β → β) : Grain → List (Concept × β)
  | ⟨components, _⟩ => Concept.foldAll f components

def Lineage.foldOption (f : Concept → Parts β → β) : Option Lineage → LineageParts β
  | none => {}
  | some lineage => lineage.fold f

def Lineage.fold (f : Concept → Parts β → β) : Lineage → LineageParts β
  | .call call => { reads := call.fold f }
  | .window window => { reads := window.fold f }
  | .filter content condition =>
    { reads := (content, content.fold f) ::
        Names.uniqueOn (fun part => part.1.address) (condition.fold f) }
  | .aggregate ⟨call, groupBy⟩ =>
    let groups := Concept.foldAll f groupBy
    { reads := call.fold f ++ groups, groupBy := groups }
  | .multiSelect multi => { branches := multi.fold f }

def Call.fold (f : Concept → Parts β → β) : Call → List (Concept × β)
  | ⟨_, arguments, _, _⟩ => Expr.foldAll f arguments

def Aggregate.fold (f : Concept → Parts β → β) : Aggregate → List (Concept × β)
  | ⟨call, groupBy⟩ => call.fold f ++ Concept.foldAll f groupBy

def Expr.fold (f : Concept → Parts β → β) : Expr → List (Concept × β)
  | .concept c => [(c, c.fold f)]
  | .literal _ => []
  | .call call => call.fold f
  | .aggregate aggregate => aggregate.fold f
  | .case branches otherwise => Branch.foldAll f branches ++ Expr.foldOption f otherwise
  | .datatype _ => []
  | .list _ => []

def Expr.foldAll (f : Concept → Parts β → β) : List Expr → List (Concept × β)
  | [] => []
  | e :: es => e.fold f ++ Expr.foldAll f es

def Expr.foldOption (f : Concept → Parts β → β) : Option Expr → List (Concept × β)
  | none => []
  | some e => e.fold f

def Branch.fold (f : Concept → Parts β → β) : Branch → List (Concept × β)
  | ⟨condition, result⟩ => condition.fold f ++ result.fold f

def Branch.foldAll (f : Concept → Parts β → β) : List Branch → List (Concept × β)
  | [] => []
  | b :: bs => b.fold f ++ Branch.foldAll f bs

def Condition.fold (f : Concept → Parts β → β) : Condition → List (Concept × β)
  | .compare left right _ => left.fold f ++ right.fold f
  | .combine left right _ => left.fold f ++ right.fold f
  | .parenthesis inner => inner.fold f

def Window.fold (f : Concept → Parts β → β) : Window → List (Concept × β)
  | ⟨_, content, orderBy, partitions, _⟩ =>
    (content, content.fold f) :: Concept.foldAll f partitions ++ OrderItem.foldAll f orderBy

def OrderItem.fold (f : Concept → Parts β → β) : OrderItem → Concept × β
  | ⟨concept, _⟩ => (concept, concept.fold f)

def OrderItem.foldAll (f : Concept → Parts β → β) : List OrderItem → List (Concept × β)
  | [] => []
  | item :: items => item.fold f :: OrderItem.foldAll f items

def MultiSelect.fold (f : Concept → Parts β → β) : MultiSelect → List (List (SelectItem × β))
  | ⟨selects, _, _⟩ => Select.foldAll f selects

def Select.fold (f : Concept → Parts β → β) : Select → List (SelectItem × β)
  | ⟨selection, _, _, _⟩ => SelectItem.foldAll f selection

def Select.foldAll (f : Concept → Parts β → β) : List Select → List (List (SelectItem × β))
  | [] => []
  | s :: ss => s.fold f :: Select.foldAll f ss

def SelectItem.fold (f : Concept → Parts β → β) : SelectItem → β
  | .concept c _ => c.fold f
  | .transform _ output _ => output.fold f

def SelectItem.foldAll (f : Concept → Parts β → β) : List SelectItem → List (SelectItem × β)
  | [] => []
  | item :: items => (item, item.fold f) :: SelectItem.foldAll f items

end

end SemanticQuery
