import SemanticQuery.Concept.Fold
import SemanticQuery.Concept.Reads

/-!
Default grains and canonical grains. The default grain of a concept is the grain at which it lives
by nature: a key is its own grain, a property is owned by its keys or by the grains of what it
reads, and a metric is abstract unless it is aggregated by explicit concepts. A canonical grain
keeps each component at its default grain and leaves out constants and the properties that its keys
own.
-/

namespace SemanticQuery

namespace Grain

/-- Leaves out the constants, and the properties whose grain lies within the keys of the list. -/
def canonical (components : List Concept) : List Concept :=
  let keys := Concept.addresses (components.filter (·.purpose == .key))
  components.filter fun c =>
    match c.purpose with
    | .key | .metric | .auto => true
    | .constant => false
    | .property =>
      let owners := Concept.addresses c.grain.components
      owners.isEmpty || !Names.subset owners keys

end Grain

/-- The default grain of a concept together with its components, each at its own default grain. -/
structure Graded where
  grain : Grain
  settled : List Concept

namespace Graded

/-- The canonical grain of concepts that stand at their default grains already. -/
def settle (cs : List Concept) : Graded :=
  let components := Grain.canonical (Concept.unique cs)
  ⟨⟨components, false⟩, components⟩

def regrade (part : Concept × Graded) : Concept := part.1.withGrain part.2.grain

end Graded

def Concept.hasGroupBy (c : Concept) : Bool :=
  match c.lineage with
  | some (.aggregate aggregate) => !aggregate.groupBy.isEmpty
  | _ => false

/-- An aggregate that names no grouping is evaluated at the grain of the statement. -/
def Concept.regrain (grain : Grain) (c : Concept) : Concept :=
  if c.derivation == .aggregate && !c.hasGroupBy then c.withGrain grain else c

namespace Graded

def statement (items : List (SelectItem × Graded)) : Grain :=
  let selected := (Names.uniqueOn (·.1.address) (items.map fun item => (item.1.output, item.2)))
  (settle ((selected.filter (·.1.purpose != .metric)).map regrade)).grain

/-- The visible outputs of a select among aligned ones. Only constants and undecided concepts take
their default grain from the grain that they were given. -/
def outputs (items : List (SelectItem × Graded)) : List (Concept × Graded) :=
  let grain := statement items
  let regrained (item : SelectItem × Graded) : Concept × Graded :=
    let c := item.1.output.regrain grain
    match c.purpose with
    | .constant | .auto =>
      if item.1.output.derivation == .aggregate && !item.1.output.hasGroupBy then
        (c, ⟨grain, grain.components⟩)
      else (c, item.2)
    | _ => (c, item.2)
  Names.uniqueOn (·.1.address) ((items.filter (!·.1.isHidden)).map regrained)

def reads (parts : LineageParts Graded) : List (Concept × Graded) :=
  parts.reads ++ Names.uniqueOn (·.1.address) (parts.branches.flatMap outputs)

def ofParts (c : Concept) (parts : Parts Graded) : Graded :=
  match c.purpose with
  | .key =>
    let bare := c.withGrain ∅
    let grain : Grain := ⟨[bare], true⟩
    ⟨grain, [bare.withGrain grain]⟩
  | .property =>
    if c.keys.isEmpty then settle ((reads (parts.lineage ())).flatMap (·.2.settled))
    else settle ((parts.keys ()).map regrade)
  | .metric =>
    if c.hasGroupBy then settle ((parts.lineage ()).groupBy.map regrade) else ⟨∅, []⟩
  | .constant | .auto => ⟨c.grain, (parts.grain ()).map regrade⟩

end Graded

def Concept.graded (c : Concept) : Graded := c.fold Graded.ofParts

def Concept.defaultGrain (c : Concept) : Grain := c.graded.grain

def Concept.withDefaultGrain (c : Concept) : Concept := c.withGrain c.defaultGrain

namespace Grain

def of (cs : List Concept) : Grain :=
  ⟨canonical ((Concept.unique cs).map (·.withDefaultGrain)), false⟩

/-- A grain that is kept as it is given, save for repetitions. -/
def nest (cs : List Concept) : Grain := ⟨Concept.unique cs, true⟩

/-- The grain of the concepts that a statement selects. Metrics do not contribute. -/
def ofSelected (cs : List Concept) : Grain := of (cs.filter (·.purpose != .metric))

def add (g h : Grain) : Grain := of (g.components ++ h.components)

instance : Add Grain := ⟨add⟩

def sum (gs : List Grain) : Grain := gs.foldl (· + ·) ∅

def intersection (g h : Grain) : Grain :=
  of (g.components.filter fun c => h.contains c.address)

end Grain

end SemanticQuery
