import SemanticQuery.Concept.Lineage

/-!
Declarations of concepts: keys, properties, metrics and concepts derived from others, each at the
grain that its declaration gives it.
-/

namespace SemanticQuery

namespace Concept

/-- The grain of a declaration: the default grain, save that a constant has none. -/
def declaredGrain (c : Concept) : Grain :=
  match c.purpose with
  | .constant => ∅
  | _ => c.defaultGrain

def declare (name : String) (datatype : DataType) (purpose : Purpose) : Concept :=
  withDefaultGrain ⟨name, datatype, purpose, {}, none, defaultNamespace, [], ∅⟩

def withKeys (c : Concept) (keys : List Concept) : Concept :=
  let owned := { c with keys }
  owned.withGrain owned.declaredGrain

def key (name : String) (datatype : DataType) : Concept := declare name datatype .key

def property (name : String) (datatype : DataType) (keys : List Concept) : Concept :=
  (declare name datatype .property).withKeys keys

def metric (name : String) (datatype : DataType) : Concept := declare name datatype .metric

/-- The keys of a derived concept: a window that is a property belongs to its content. -/
def derivedKeys (purpose : Purpose) : Lineage → List Concept
  | .window w => if purpose == .property then [w.content] else []
  | _ => []

/-- A concept computed by a derivation, which gives its type and, if the purpose is left open, its
purpose. -/
def derive (name : String) (purpose : Purpose) (lineage : Lineage) : Concept :=
  let purpose := if purpose == .auto then lineage.purpose else purpose
  let c : Concept :=
    ⟨name, lineage.datatype, purpose, {}, some lineage, defaultNamespace,
      derivedKeys purpose lineage, ∅⟩
  c.withGrain c.declaredGrain

def withMetadata (c : Concept) (metadata : Metadata) : Concept := { c with metadata }

def withDescription (c : Concept) (description : String) : Concept :=
  { c with metadata := { c.metadata with description := some description } }

end Concept

def SelectItem.named (name : String) (call : Call) : SelectItem :=
  .transform call (Concept.derive name .auto (.call call)) []

end SemanticQuery
