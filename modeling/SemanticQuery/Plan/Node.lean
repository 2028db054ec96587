import SemanticQuery.Plan.Join

/-!
The nodes of a plan. A node reads a datasource, or reshapes or joins the rows of its parents.
-/

namespace SemanticQuery

inductive NodeKind where
  /-- Reads a datasource, or nothing if all outputs are constant. -/
  | select (datasource : Option Datasource)
  /-- Aggregates the rows of its parent. -/
  | group
  | window
  /-- Keeps the rows that satisfy a condition. -/
  | filter
  /-- Joins its parents, on what they share unless joins are given. -/
  | merge (joins : List ParentJoin)
  /-- Joins aligned selects. -/
  | multiSelect (joins : List ParentJoin)

namespace NodeKind

def sourceType : NodeKind → SourceType
  | .select (some _) => .directSelect
  | .select none => .select
  | .group => .group
  | .window => .window
  | .filter => .filter
  | .merge _ | .multiSelect _ => .merge

def label : NodeKind → String
  | .select _ => "SelectNode"
  | .group => "GroupNode"
  | .window => "WindowNode"
  | .filter => "FilterNode"
  | .merge _ => "MergeNode"
  | .multiSelect _ => "MultiSelectNode"

def joins : NodeKind → List ParentJoin
  | .merge joins | .multiSelect joins => joins
  | _ => []

end NodeKind

structure Node where
  kind : NodeKind
  inputs : List Concept
  outputs : List Concept
  /-- Outputs that are partial whatever the parents report. -/
  partials : List Concept
  parents : List Node
  /-- The depth of the search at which the node was made. -/
  depth : Nat
  condition : Option Condition
  /-- The grain of the rows, if it does not follow from the parents. -/
  grain : Option Grain

namespace Node

def of (kind : NodeKind) (inputs outputs : List Concept) (parents : List Node) (depth : Nat) :
    Node :=
  ⟨kind, Concept.unique inputs, Concept.unique outputs, [], parents, depth, none, none⟩

def withPartials (n : Node) (partials : List Concept) : Node :=
  { n with partials := Concept.unique partials }

def withCondition (n : Node) (condition : Option Condition) : Node := { n with condition }

def withGrain (n : Node) (grain : Grain) : Node := { n with grain := some grain }

/-- Replaces the outputs. What was partial stays so if it is still an output. -/
def withOutputs (n : Node) (outputs : List Concept) : Node :=
  let outputs := Concept.unique outputs
  let addresses := Concept.addresses outputs
  { n with outputs, partials := n.partials.filter fun c => addresses.contains c.address }

def addOutputs (n : Node) (outputs : List Concept) : Node :=
  { n with outputs := Concept.unique (n.outputs ++ outputs) }

def sourceType (n : Node) : SourceType := n.kind.sourceType

def outputAddresses (n : Node) : List String := Concept.addresses n.outputs

def provides (n : Node) (address : String) : Bool := n.outputs.any (·.address == address)

def display (n : Node) : String :=
  n.kind.label ++ "<" ++ ",".intercalate n.outputAddresses ++ ">"

end Node

end SemanticQuery
