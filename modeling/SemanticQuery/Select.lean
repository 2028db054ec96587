import SemanticQuery.Grain

/-!
Select statements and aligned selects: the grain of a statement, its visible and hidden outputs, and
the merge concepts under which the outputs of several selects are aligned.
-/

namespace SemanticQuery

namespace SelectItem

def selected (items : List SelectItem) : List Concept := Concept.unique (items.map output)

/-- The grain of a statement: its keys and the properties that they do not own. -/
def statementGrain (items : List SelectItem) : Grain := Grain.ofSelected (selected items)

def hide (item : SelectItem) : SelectItem :=
  if item.isHidden then item
  else match item with
    | .concept c modifiers => .concept c (modifiers ++ [.hidden])
    | .transform call c modifiers => .transform call c (modifiers ++ [.hidden])

end SelectItem

namespace Select

def grain (s : Select) : Grain := SelectItem.statementGrain s.selection

/-- The visible outputs at the grain of the statement, in the order of selection. -/
def outputs (s : Select) : List Concept :=
  Concept.unique ((s.selection.filter (!·.isHidden)).map (·.output.regrain s.grain))

def hiddenOutputs (s : Select) : List Concept :=
  (s.selection.filter (·.isHidden)).map (·.output.regrain s.grain)

def conditionReads (s : Select) : List Concept :=
  match s.condition with
  | none => []
  | some condition => Concept.unique condition.reads

/-- Everything that has to be planned: the outputs, the hidden items and what the condition
reads. -/
def inputs (s : Select) : List Concept :=
  Concept.unique (s.outputs ++ s.hiddenOutputs ++ s.conditionReads)

def locals (s : Select) : List Concept :=
  s.selection.filterMap fun
    | .transform _ output _ => some output
    | .concept _ _ => none

end Select

/-- The grain of the keys that a condition reads. -/
def Condition.grain (condition : Condition) : Grain :=
  Grain.of ((Concept.unique condition.reads).filter (·.purpose == .key))

namespace AlignItem

def aligns (item : AlignItem) (c : Concept) : Bool :=
  item.concepts.any (·.address == c.address)

/-- The merge concept that the item stands for: typed like the first concept that is aligned, and
its own grain if it is a key. -/
def mergeConcept (item : AlignItem) (multi : MultiSelect) : Concept :=
  let first := item.concepts.head?
  let purpose := (first.map (·.purpose)).getD .key
  let c : Concept :=
    { Concept.placeholder multi.ns item.name with
      datatype := (first.map (·.datatype)).getD .unknown
      purpose := purpose
      lineage := some (.multiSelect multi) }
  match purpose with
  | .key => c.withDefaultGrain
  | _ => c

end AlignItem

namespace MultiSelect

def mergeConcepts (multi : MultiSelect) : List Concept :=
  multi.align.map (·.mergeConcept multi)

def mergeConcept? (multi : MultiSelect) (c : Concept) : Option Concept :=
  (multi.align.find? (·.aligns c)).map (·.mergeConcept multi)

def reads (multi : MultiSelect) : List Concept :=
  Concept.unique (multi.selects.flatMap (·.outputs))

end MultiSelect

end SemanticQuery
