import SemanticQuery.Catalog.Suggestion
import SemanticQuery.Datasource
import SemanticQuery.Error

/-!
The finished catalog: the declared concepts by address, and the datasources in the order of their
declaration.
-/

namespace SemanticQuery

/-- Adds the default namespace to a reference that is not a known address as it stands. A reference
with a dot is left alone unless the longer address is known. -/
def qualify (known : String → Bool) (reference : String) : String :=
  let inDefault := defaultNamespace ++ "." ++ reference
  if known reference then reference
  else if known inDefault || !reference.toList.contains '.' then inDefault
  else reference

namespace NameMap

def resolve (concepts : NameMap Concept) (reference : String) : Except PlanError Concept :=
  let address := qualify concepts.contains reference
  match concepts.get? address with
  | some c => .ok c
  | none => .error (.undefinedConcept address (Suggestion.similar address concepts.keys))

end NameMap

structure Catalog where
  concepts : NameMap Concept
  datasources : List Datasource
  /-- The addresses of the declared concepts that some column is bound to, in increasing order. -/
  materialized : List String

namespace Catalog

def of (concepts : NameMap Concept) (datasources : List Datasource) : Catalog :=
  let bound := datasources.flatMap fun d => Concept.addresses d.concepts
  ⟨concepts, datasources, Names.ofList (bound.filter concepts.contains)⟩

def qualify (catalog : Catalog) (reference : String) : String :=
  SemanticQuery.qualify catalog.concepts.contains reference

def concept (catalog : Catalog) (reference : String) : Except PlanError Concept :=
  catalog.concepts.resolve reference

def get? (catalog : Catalog) (reference : String) : Option Concept :=
  catalog.concepts.get? (catalog.qualify reference)

def contains (catalog : Catalog) (reference : String) : Bool := (catalog.get? reference).isSome

def datasource? (catalog : Catalog) (identifier : String) : Option Datasource :=
  catalog.datasources.find? (·.identifier == identifier)

def isMaterialized (catalog : Catalog) (address : String) : Bool :=
  catalog.materialized.contains address

end Catalog

end SemanticQuery
