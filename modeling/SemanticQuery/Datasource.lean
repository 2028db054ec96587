import SemanticQuery.Concept.Encoding
import SemanticQuery.Condition
import SemanticQuery.Grain

/-!
Datasources: tables or subqueries whose columns are bound to concepts.
-/

namespace SemanticQuery

inductive Location where
  | table (name : String)
  /-- The text of a query that is read as a subquery. -/
  | query (text : String)
  deriving DecidableEq

def Location.text : Location → String
  | .table name => name
  | .query text => text

def Location.isQuery : Location → Bool
  | .table _ => false
  | .query _ => true

structure Column where
  name : String
  concept : Concept
  modifiers : List Modifier

namespace Column

def isPartial (c : Column) : Bool := c.modifiers.contains .incomplete

def withModifier (c : Column) (modifier : Modifier) : Column :=
  if c.modifiers.contains modifier then c else { c with modifiers := c.modifiers ++ [modifier] }

def agrees (c d : Column) : Bool :=
  c.name == d.name && c.concept.agrees d.concept && c.modifiers == d.modifiers

def agreesAll : List Column → List Column → Bool
  | [], [] => true
  | c :: cs, d :: ds => c.agrees d && agreesAll cs ds
  | _, _ => false

def toJson (c : Column) : Json :=
  .object
    [("alias", .string c.name),
     ("concept", c.concept.toJson),
     ("modifiers", .ofList Modifier.toJson c.modifiers)]

end Column

structure Datasource where
  identifier : String
  columns : List Column
  location : Location
  grain : Grain
  ns : String

namespace Datasource

def keyGrain (columns : List Column) : Grain :=
  Grain.of ((columns.filter (·.concept.purpose == .key)).map (·.concept))

def of (identifier : String) (location : Location) (columns : List Column) : Datasource :=
  ⟨identifier, columns, location, keyGrain columns, defaultNamespace⟩

def table (identifier : String) (columns : List Column) : Datasource :=
  of identifier (.table identifier) columns

/-- The identifier, led by the namespace unless that is the default one. -/
def fullName (d : Datasource) : String :=
  if d.ns == defaultNamespace || d.ns.isEmpty then d.identifier else d.ns ++ "_" ++ d.identifier

/-- The location as it stands in a query: the name of a table, or a subquery in parentheses. -/
def safeLocation (d : Datasource) : String :=
  match d.location with
  | .table name => name
  | .query text => "(" ++ text ++ ")"

def concepts (d : Datasource) : List Concept := d.columns.map (·.concept)

def partialConcepts (d : Datasource) : List Concept :=
  (d.columns.filter (·.isPartial)).map (·.concept)

def column? (d : Datasource) (address : String) : Option Column :=
  d.columns.find? (·.concept.address == address)

def provides (d : Datasource) (address : String) : Bool := (d.column? address).isSome

def isPartialFor (d : Datasource) (address : String) : Bool :=
  (d.column? address).any (·.isPartial)

def agrees (d e : Datasource) : Bool :=
  d.identifier == e.identifier && Column.agreesAll d.columns e.columns &&
    d.location == e.location && d.grain.same e.grain && d.ns == e.ns

def toJson (d : Datasource) : Json :=
  .object
    [("identifier", .string d.identifier),
     ("columns", .ofList Column.toJson d.columns),
     ("address",
      match d.location with
      | .table name => .tagged "Table" (.string name)
      | .query text => .tagged "Query" (.string text)),
     ("grain", d.grain.toJson),
     ("namespace", .string d.ns)]

end Datasource

end SemanticQuery
