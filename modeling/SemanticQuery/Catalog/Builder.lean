import SemanticQuery.Catalog.Basic
import SemanticQuery.Catalog.DateParts
import SemanticQuery.Concept.Binding

/-!
Assembly of a catalog. Declarations may come in any order: a reference to a concept that is not
declared yet is a placeholder, and placeholders are bound when the catalog is built.
-/

namespace SemanticQuery

inductive Lookup where
  | defined (concept : Concept)
  /-- A placeholder that is bound when the catalog is built. -/
  | undefined (concept : Concept)

namespace Lookup

def concept : Lookup → Concept
  | .defined c => c
  | .undefined c => c

def isDefined : Lookup → Bool
  | .defined _ => true
  | .undefined _ => false

end Lookup

structure Builder where
  concepts : NameMap Concept := ∅
  datasources : List Datasource := []
  /-- The placeholders that were handed out and not declared since. -/
  pending : NameMap Concept := ∅
  failOnMissing : Bool := false
  deriveDateParts : Bool := true

namespace Builder

/-- Declares a concept. An address may be declared again if that is allowed explicitly or its first
declaration was derived. -/
def addConcept (b : Builder) (c : Concept) (allowDuplicate : Bool) : Except PlanError Builder :=
  let declared := (b.concepts.get? c.address).any (·.metadata.source != .autoDerived)
  if declared && !allowDuplicate then .error (.duplicateConcept c.address)
  else
    .ok { b with
      concepts := b.concepts.insert c.address c
      pending := b.pending.erase c.address }

/-- Declares the concept of a column unless its address is declared or it is a placeholder. -/
def addColumn (b : Builder) (column : Column) : Except PlanError Builder :=
  if b.concepts.contains column.concept.address || column.concept.isPlaceholder then .ok b
  else b.addConcept column.concept false

/-- Puts a datasource in the place of the one with its identifier, or at the end. -/
def placeDatasource (d : Datasource) : List Datasource → List Datasource
  | [] => [d]
  | e :: rest => if e.identifier == d.identifier then d :: rest else e :: placeDatasource d rest

/-- Declares a datasource and those concepts of its columns that are not declared yet. -/
def addDatasource (b : Builder) (d : Datasource) : Except PlanError Builder := do
  let b ← d.columns.foldlM addColumn b
  return { b with datasources := placeDatasource d b.datasources }

/-- A placeholder for an address, whose namespace ends at the first dot. -/
def placeholderOf (address : String) : Concept :=
  let ns := address.toList.takeWhile (· != '.')
  match address.toList.dropWhile (· != '.') with
  | [] => Concept.placeholder defaultNamespace address
  | _ :: name => Concept.placeholder (String.ofList ns) (String.ofList name)

/-- The concept of a reference, or a placeholder that is remembered as undefined. -/
def lookup (b : Builder) (reference : String) : Except PlanError (Lookup × Builder) :=
  let address := qualify b.concepts.contains reference
  match b.concepts.get? address with
  | some c => .ok (.defined c, b)
  | none =>
    if b.failOnMissing then
      .error (.undefinedConcept address (Suggestion.similar address b.concepts.keys))
    else
      match b.pending.get? address with
      | some c => .ok (.undefined c, b)
      | none =>
        let c := placeholderOf address
        .ok (.undefined c, { b with pending := b.pending.insert address c })

def undefined (b : Builder) : List String := b.pending.keys

/-- The entries in which a placeholder is reachable. -/
def unbound (concepts : NameMap Concept) : List (String × Concept) :=
  concepts.entries.filter (·.2.hasPlaceholders)

/-- Binds the placeholders in every entry to the entries as they are. -/
def bindOnce (concepts : NameMap Concept) : Except PlanError (NameMap Concept) :=
  (unbound concepts).foldlM
    (fun bound entry => return bound.insert entry.1 (← entry.2.rebind concepts.resolve)) concepts

/-- Binds the entries in at most `passes` passes, each of which goes one reference deeper. -/
def bindWithin : (passes : Nat) → NameMap Concept → Except PlanError (NameMap Concept)
  | 0, concepts =>
    match unbound concepts with
    | [] => .ok concepts
    | unresolved => .error (.unresolvable (unresolved.map (·.1)))
  | passes + 1, concepts =>
    if (unbound concepts).isEmpty then .ok concepts
    else do bindWithin passes (← bindOnce concepts)

def bind (concepts : NameMap Concept) : Except PlanError (NameMap Concept) :=
  bindWithin (concepts.size + 1) concepts

/-- Adds the calendar parts of the declared temporal concepts, where their addresses are free. -/
def addDateParts (concepts : NameMap Concept) : Except PlanError (NameMap Concept) := do
  let temporal := concepts.values.filter fun c =>
    c.datatype.isTemporal && c.metadata.source != .autoDerived
  let parts ← temporal.mapM DateParts.parts
  return parts.flatten.foldl (fun concepts c => concepts.insertIfNew c.address c) concepts

def bindColumn (concepts : NameMap Concept) (column : Column) : Except PlanError Column := do
  if column.concept.hasPlaceholders then
    return { column with concept := ← column.concept.rebind concepts.resolve }
  else return column

def bindColumns (concepts : NameMap Concept) (d : Datasource) : Except PlanError Datasource :=
  return { d with columns := ← d.columns.mapM (bindColumn concepts) }

def build (b : Builder) : Except PlanError Catalog := do
  let bound ← bind b.concepts
  let concepts ← if b.deriveDateParts then addDateParts bound else pure bound
  let datasources ← b.datasources.mapM (bindColumns concepts)
  return Catalog.of concepts datasources

end Builder

end SemanticQuery
