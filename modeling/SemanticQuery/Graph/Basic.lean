import SemanticQuery.Catalog.Basic
import SemanticQuery.Concept.Lineage
import SemanticQuery.Count

/-!
The reference graph of a catalog. Datasources and the concepts of their columns are linked both
ways, and a derived concept is linked to what it reads.
-/

namespace SemanticQuery

inductive Vertex where
  | concept (address : String)
  | datasource (identifier : String)
  deriving DecidableEq

namespace Vertex

def conceptName (address : String) : String := "c~" ++ address

def datasourceName (identifier : String) : String := "ds~" ++ identifier

def name : Vertex → String
  | .concept address => conceptName address
  | .datasource identifier => datasourceName identifier

def isDatasource : Vertex → Bool
  | .concept _ => false
  | .datasource _ => true

def address? : Vertex → Option String
  | .concept address => some address
  | .datasource _ => none

def isDatasourceName (name : String) : Bool :=
  match name.toList with
  | 'd' :: 's' :: '~' :: _ => true
  | _ => false

def addressOfName? (name : String) : Option String :=
  match name.toList with
  | 'c' :: '~' :: address => some (String.ofList address)
  | _ => none

/-- The vertex of a name. A name without a mark is that of a datasource. -/
def ofName (name : String) : Vertex :=
  match name.toList with
  | 'c' :: '~' :: address => .concept (String.ofList address)
  | 'd' :: 's' :: '~' :: identifier => .datasource (String.ofList identifier)
  | _ => .datasource name

end Vertex

inductive EdgeKind where
  /-- From a datasource to the concept of one of its columns. -/
  | provides
  /-- From the concept of a column to its datasource. -/
  | boundTo
  /-- From a derived concept to a concept that it reads. -/
  | derivesFrom
  deriving DecidableEq

namespace EdgeKind

def all : List EdgeKind := [.provides, .boundTo, .derivesFrom]

def label : EdgeKind → String
  | .provides => "Provides"
  | .boundTo => "BoundTo"
  | .derivesFrom => "DerivesFrom"

end EdgeKind

/-- A vertex with the kinds of its outgoing edges by the name of their target. -/
structure Links where
  vertex : Vertex
  targets : NameMap (List EdgeKind)

structure Graph where
  links : NameMap Links

namespace Graph

def empty : Graph := ⟨∅⟩

instance : EmptyCollection Graph := ⟨empty⟩

def addVertex (g : Graph) (v : Vertex) : Graph := ⟨g.links.insertIfNew v.name ⟨v, ∅⟩⟩

/-- Adds an edge between two vertices, which are added as well, unless it is there already. -/
def addEdge (g : Graph) (source target : Vertex) (kind : EdgeKind) : Graph :=
  let g := (g.addVertex source).addVertex target
  match g.links.get? source.name with
  | none => g
  | some l =>
    let kinds := (l.targets.get? target.name).getD []
    if kinds.contains kind then g
    else
      let targets := l.targets.insert target.name (kinds ++ [kind])
      ⟨g.links.insert source.name { l with targets }⟩

def contains (g : Graph) (name : String) : Bool := g.links.contains name

def vertex? (g : Graph) (name : String) : Option Vertex := (g.links.get? name).map (·.vertex)

def vertexCount (g : Graph) : Nat := g.links.size

def edgeCount (g : Graph) : Nat :=
  total (g.links.values.map fun l => total (l.targets.values.map List.length))

def successors (g : Graph) (name : String) : List String :=
  ((g.links.get? name).map (·.targets.keys)).getD []

def addColumns (g : Graph) (d : Datasource) : Graph :=
  d.concepts.foldl
    (fun g c =>
      let datasource := Vertex.datasource d.identifier
      let concept := Vertex.concept c.address
      (g.addEdge datasource concept .provides).addEdge concept datasource .boundTo)
    (g.addVertex (.datasource d.identifier))

def addReads (g : Graph) (c : Concept) : Graph :=
  c.reads.foldl (fun g read => g.addEdge (.concept c.address) (.concept read.address) .derivesFrom)
    (g.addVertex (.concept c.address))

def ofCatalog (catalog : Catalog) : Graph :=
  catalog.concepts.values.foldl addReads (catalog.datasources.foldl addColumns ∅)

end Graph

end SemanticQuery
