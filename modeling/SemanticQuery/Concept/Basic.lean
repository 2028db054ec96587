import SemanticQuery.Names
import SemanticQuery.Operator
import SemanticQuery.Sort

/-!
Concepts, the named and typed columns of the semantic model, with everything that can stand in
their derivation: calls, aggregates, windows, filters, conditions and aligned selects. A concept
carries its grain, the concepts that identify one row of it.
-/

namespace SemanticQuery

def defaultNamespace : String := "local"

structure Metadata where
  description : Option String := none
  line : Option Nat := none
  source : ConceptSource := .manual
  deriving DecidableEq

def Metadata.autoDerived (description : String) : Metadata := ⟨some description, none, .autoDerived⟩

inductive Literal where
  | string (value : String)
  | integer (value : Int)
  | float (value : Float)
  | bool (value : Bool)
  | null

mutual

structure Concept where
  name : String
  datatype : DataType
  purpose : Purpose
  metadata : Metadata
  lineage : Option Lineage
  ns : String
  /-- The concepts that own a property. -/
  keys : List Concept
  grain : Grain

/-- The concepts that identify a row. A grain without components is abstract: a single row. -/
structure Grain where
  components : List Concept
  /-- Set on the grain that a key is of itself, which is kept as it is given. -/
  nested : Bool

inductive Lineage where
  | call (call : Call)
  | window (window : Window)
  /-- The rows of `content` that satisfy a condition. -/
  | filter (content : Concept) (condition : Condition)
  | aggregate (aggregate : Aggregate)
  /-- One of the outputs that several selects are aligned on. -/
  | multiSelect (multi : MultiSelect)

structure Call where
  operator : Operator
  arguments : List Expr
  datatype : DataType
  purpose : Purpose

/-- A call evaluated at an explicit grain. -/
structure Aggregate where
  call : Call
  groupBy : List Concept

inductive Expr where
  | concept (concept : Concept)
  | literal (literal : Literal)
  | call (call : Call)
  | aggregate (aggregate : Aggregate)
  | case (branches : List Branch) (otherwise : Option Expr)
  /-- The target of a cast. -/
  | datatype (datatype : DataType)
  | list (items : List Literal)

structure Branch where
  condition : Condition
  result : Expr

inductive Condition where
  | compare (left right : Expr) (comparator : Comparator)
  | combine (left right : Condition) (connective : Connective)
  | parenthesis (inner : Condition)

structure OrderItem where
  concept : Concept
  direction : Direction

structure Window where
  kind : WindowKind
  content : Concept
  orderBy : List OrderItem
  /-- The concepts that the rows are partitioned by. -/
  partitions : List Concept
  /-- How far a lag or lead looks. -/
  index : Option Int

/-- A selected concept, or a call whose result is selected under a new name. -/
inductive SelectItem where
  | concept (concept : Concept) (modifiers : List Modifier)
  | transform (call : Call) (output : Concept) (modifiers : List Modifier)

structure Select where
  selection : List SelectItem
  condition : Option Condition
  orderBy : Option (List OrderItem)
  limit : Option Nat

/-- Concepts of several selects that become one output. -/
structure AlignItem where
  name : String
  concepts : List Concept

/-- Independent selects whose outputs are aligned. -/
structure MultiSelect where
  selects : List Select
  align : List AlignItem
  ns : String

end

namespace Grain

def empty : Grain := ⟨[], false⟩

instance : EmptyCollection Grain := ⟨empty⟩

def isAbstract (g : Grain) : Bool := g.components.isEmpty

end Grain

namespace Concept

/-- The key of a concept in a catalog: its namespace and name with a dot between. -/
def address (c : Concept) : String := c.ns ++ "." ++ c.name

def addresses (cs : List Concept) : List String := cs.map address

/-- The first concept of each address, in order. -/
def unique (cs : List Concept) : List Concept := Names.uniqueOn address cs

def underscored (s : String) : String := s.map fun c => if c == '.' then '_' else c

/-- The address as an identifier, without the default namespace. -/
def safeAddress (c : Concept) : String :=
  if c.ns == defaultNamespace || c.ns.isEmpty then underscored c.name
  else underscored c.ns ++ "_" ++ underscored c.name

def withGrain (c : Concept) (grain : Grain) : Concept := { c with grain }

/-- A reference to a concept that is not declared yet. -/
def placeholder (ns name : String) : Concept :=
  ⟨name, .unknown, .auto, {}, none, ns, [], ∅⟩

def isPlaceholder (c : Concept) : Bool :=
  c.datatype == .unknown && c.purpose == .auto && c.lineage.isNone

def isRoot (c : Concept) : Bool := c.lineage.isNone

def derivation (c : Concept) : Derivation :=
  match c.lineage with
  | some (.window _) => .window
  | some (.filter _ _) => .filter
  | some (.aggregate _) => .aggregate
  | some (.multiSelect _) => .multiSelect
  | some (.call call) =>
    if call.operator.isAggregate then .aggregate
    else if c.purpose == .constant then .constant
    else .basic
  | none => if c.purpose == .constant then .constant else .basic

end Concept

namespace Grain

def addresses (g : Grain) : List String := Names.ofList (Concept.addresses g.components)

def contains (g : Grain) (address : String) : Bool := g.components.any (·.address == address)

/-- Grains are the same when they have the same addresses. -/
def same (g h : Grain) : Bool :=
  Names.same (Concept.addresses g.components) (Concept.addresses h.components)

def subset (g h : Grain) : Bool :=
  Names.subset (Concept.addresses g.components) (Concept.addresses h.components)

def disjoint (g h : Grain) : Bool :=
  Names.disjoint (Concept.addresses g.components) (Concept.addresses h.components)

def hasPlaceholders (g : Grain) : Bool := g.components.any (·.isPlaceholder)

def identifier (g : Grain) : String :=
  if g.isAbstract then "abstract"
  else "_".intercalate (sortBy (· ≤ ·) (g.components.map (·.safeAddress)))

def display (g : Grain) : String :=
  if g.isAbstract then "Grain<Abstract>"
  else "Grain<" ++ ",".intercalate (Concept.addresses g.components) ++ ">"

end Grain

namespace Concept

def display (c : Concept) : String :=
  c.address ++ "<" ++ ",".intercalate (addresses c.grain.components) ++ ">"

/-- Concepts agree when they have the same name, type, purpose, namespace and grain. -/
def agrees (c d : Concept) : Bool :=
  c.name == d.name && c.datatype == d.datatype && c.purpose == d.purpose && c.ns == d.ns &&
    c.grain.same d.grain

end Concept

namespace Literal

def datatype? : Literal → Option DataType
  | .string _ => some .string
  | .integer _ => some .integer
  | .float _ => some .float
  | .bool _ => some .bool
  | .null => none

/-- Equality of values; a float that is not a number agrees with nothing. -/
def agrees : Literal → Literal → Bool
  | .string a, .string b => a == b
  | .integer a, .integer b => a == b
  | .float a, .float b => a == b
  | .bool a, .bool b => a == b
  | .null, .null => true
  | _, _ => false

end Literal

namespace SelectItem

def output : SelectItem → Concept
  | .concept c _ => c
  | .transform _ c _ => c

def modifiers : SelectItem → List Modifier
  | .concept _ m => m
  | .transform _ _ m => m

def isHidden (item : SelectItem) : Bool := item.modifiers.contains .hidden

end SelectItem

end SemanticQuery
