import SemanticQuery.Datasource
import SemanticQuery.Error

/-!
Queries, the units of a resolved plan. A query reads sources, which are datasources or other
queries, joins them, and records for each concept which source it is read from.
-/

namespace SemanticQuery

structure SourceJoin where
  left : String
  right : String
  concepts : List Concept
  joinType : JoinType

namespace SourceJoin

/-- Joins with the same sides and type are taken for the same. -/
def id (j : SourceJoin) : String := j.left ++ j.right ++ j.joinType.name

def agrees (j k : SourceJoin) : Bool :=
  j.left == k.left && j.right == k.right && Concept.agreesAll j.concepts k.concepts &&
    j.joinType == k.joinType

def agreesAll : List SourceJoin → List SourceJoin → Bool
  | [], [] => true
  | j :: js, k :: ks => j.agrees k && agreesAll js ks
  | _, _ => false

end SourceJoin

/-- For each address the names of the sources that it is read from; a concept that is computed has
none. -/
abbrev SourceMap := NameMap (List String)

mutual

structure Query where
  inputs : List Concept
  outputs : List Concept
  sourceMap : SourceMap
  sources : List Source
  grain : Grain
  joins : List SourceJoin
  sourceType : SourceType
  /-- The outputs that do not cover every row. -/
  partials : List Concept
  condition : Option Condition
  limit : Option Nat

inductive Source where
  | datasource (datasource : Datasource)
  | query (query : Query)

end

namespace Query

/-- What reshapes the rows of its source never shares a name with what selects them. -/
def shape : SourceType → String
  | .group => "_grouped"
  | .window => "_windowed"
  | .filter => "_filtered"
  | _ => ""

/-- The name of a query, from the names of its sources, its grain, its shape and its condition. -/
def nameOf (sources : List String) (grain : Grain) (sourceType : SourceType)
    (condition : Option Condition) : String :=
  (if sources.isEmpty then "constant" else "_join_".intercalate sources) ++
    "_at_" ++ grain.identifier ++ shape sourceType ++
    (match condition with
      | some condition => "_filtered_by_" ++ condition.fingerprint
      | none => "")

end Query

mutual

def Query.identifier : Query → String
  | ⟨_, _, _, sources, grain, _, sourceType, _, condition, _⟩ =>
    Query.nameOf (Source.names sources) grain sourceType condition

def Source.name : Source → String
  | .datasource d => d.fullName
  | .query q => q.identifier

def Source.names : List Source → List String
  | [] => []
  | s :: ss => s.name :: Source.names ss

end

namespace Source

def outputs : Source → List Concept
  | .datasource d => d.concepts
  | .query q => q.outputs

def grain : Source → Grain
  | .datasource d => d.grain
  | .query q => q.grain

def provides (s : Source) (address : String) : Bool :=
  match s with
  | .datasource d => d.provides address
  | .query q => q.outputs.any (·.address == address)

/-- Whether the source can be joined without a key: all its outputs are constant, or all stand at
the abstract grain. -/
def isKeyless (s : Source) : Bool :=
  s.outputs.all (·.purpose == .constant) || s.outputs.all (·.grain.isAbstract)

end Source

namespace SourceJoin

/-- The first side that lacks a join key, in the order of the keys. -/
def missing? (left right : Source) (concepts : List Concept) : Option PlanError :=
  concepts.findSome? fun c =>
    if !left.provides c.address then
      some (.missingJoinKey c.address left.name (Concept.addresses left.outputs))
    else if !right.provides c.address then
      some (.missingJoinKey c.address right.name (Concept.addresses right.outputs))
    else none

/-- A join on keys that both sides provide. With `mutualOnly` other keys are dropped; otherwise a
key that a side lacks is an error. When no key is left, one side has to be keyless. -/
def of (left right : Source) (concepts : List Concept) (joinType : JoinType) (mutualOnly : Bool) :
    Except PlanError SourceJoin :=
  if left.name == right.name then .error (.selfJoin left.name)
  else
    let shared :=
      concepts.filter fun c => left.provides c.address && right.provides c.address
    match if mutualOnly then none else missing? left right concepts with
    | some error => .error error
    | none =>
      if shared.isEmpty && !concepts.isEmpty && !left.isKeyless && !right.isKeyless then
        .error (.noMutualJoinKeys left.name right.name (Concept.addresses left.outputs)
          (Concept.addresses right.outputs) (Concept.addresses concepts))
      else .ok ⟨left.name, right.name, shared, joinType⟩

end SourceJoin

namespace Query

/-- What is wrong with a source map: an entry with several sources, or addresses other than those of
the inputs and outputs. -/
def misfit? (sourceMap : SourceMap) (inputs outputs : List Concept) : Option PlanError :=
  match sourceMap.entries.find? (1 < ·.2.length) with
  | some (address, sources) => some (.ambiguousSourceMap address sources.length)
  | none =>
    let expected := Names.ofList (Concept.addresses (outputs ++ inputs))
    if sourceMap.keys == expected then none
    else some (.sourceMapMismatch sourceMap.keys expected)

/-- A query whose source map covers exactly its inputs and outputs, with at most one source each. -/
def of (inputs outputs : List Concept) (sourceMap : SourceMap) (sources : List Source)
    (grain : Grain) (joins : List SourceJoin) (sourceType : SourceType) : Except PlanError Query :=
  let inputs := Concept.unique inputs
  let outputs := Concept.unique outputs
  match misfit? sourceMap inputs outputs with
  | some error => .error error
  | none => .ok ⟨inputs, outputs, sourceMap, sources, grain, joins, sourceType, [], none, none⟩

def withPartials (q : Query) (partials : List Concept) : Query :=
  { q with partials := Concept.unique partials }

def groupRequired (q : Query) : Bool :=
  match q.sourceType with
  | .group | .filter => true
  | .directSelect => !(Grain.sum (q.sources.map (·.grain))).same q.grain
  | _ => false

def isPartialFor (q : Query) (address : String) : Bool := q.partials.any (·.address == address)

def provides (q : Query) (address : String) : Bool := q.outputs.any (·.address == address)

def completeAddresses (q : Query) : List String :=
  (Concept.addresses q.outputs).filter fun address => !q.isPartialFor address

def sourceFor? (q : Query) (address : String) : Option Source :=
  match q.sourceMap.get? address with
  | some (name :: _) => q.sources.find? (·.name == name)
  | _ => none

def ofDatasource (d : Datasource) : Except PlanError Query :=
  of d.concepts d.concepts (.ofList (d.concepts.map fun c => (c.address, [d.fullName])))
    [.datasource d] d.grain [] .directSelect

end Query

mutual

def Query.agrees : Query → Query → Bool
  | ⟨inputs, outputs, sourceMap, sources, grain, joins, sourceType, partials, condition, limit⟩,
    r =>
    Concept.agreesAll inputs r.inputs && Concept.agreesAll outputs r.outputs &&
      sourceMap.entries == r.sourceMap.entries && Source.agreesAll sources r.sources &&
      grain.same r.grain && SourceJoin.agreesAll joins r.joins && sourceType == r.sourceType &&
      Concept.agreesAll partials r.partials && Condition.agreesOption condition r.condition &&
      limit == r.limit

def Source.agrees : Source → Source → Bool
  | .datasource d, .datasource e => d.agrees e
  | .query q, .query r => q.agrees r
  | _, _ => false

def Source.agreesAll : List Source → List Source → Bool
  | [], [] => true
  | s :: ss, t :: ts => s.agrees t && Source.agreesAll ss ts
  | _, _ => false

end

end SemanticQuery
