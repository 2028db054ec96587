import SemanticQuery.Select

/-!
What a derivation reads and what it yields, and the questions about a concept that follow its
derivation to the end: its sources, and whether a reference in it is not bound yet.
-/

namespace SemanticQuery

def Lineage.reads : Lineage → List Concept
  | .call f => f.reads
  | .window w => w.reads
  | .filter content condition => content :: Concept.unique condition.reads
  | .aggregate a => a.reads
  | .multiSelect multi => multi.reads

def MultiSelect.firstAligned (multi : MultiSelect) : Option Concept :=
  multi.align.head?.bind (·.concepts.head?)

def Lineage.datatype : Lineage → DataType
  | .call f => f.datatype
  | .window w =>
    match w.kind with
    | .rowNumber | .rank => .integer
    | .lag | .lead => w.content.datatype
  | .filter content _ => content.datatype
  | .aggregate a => a.call.datatype
  | .multiSelect multi => (multi.firstAligned.map (·.datatype)).getD .unknown

def Lineage.purpose : Lineage → Purpose
  | .call f => f.purpose
  | .window _ => .property
  | .filter content _ => content.purpose
  | .aggregate _ => .metric
  | .multiSelect multi => (multi.firstAligned.map (·.purpose)).getD .key

namespace LineageParts

def outputs (items : List (SelectItem × β)) : List (Concept × β) :=
  let grain := SelectItem.statementGrain (items.map (·.1))
  Names.uniqueOn (·.1.address)
    ((items.filter (!·.1.isHidden)).map fun item => (item.1.output.regrain grain, item.2))

def allReads (parts : LineageParts β) : List (Concept × β) :=
  parts.reads ++ Names.uniqueOn (·.1.address) (parts.branches.flatMap outputs)

end LineageParts

namespace Concept

def reads (c : Concept) : List Concept :=
  match c.lineage with
  | none => []
  | some lineage => lineage.reads

/-- Every concept that this one is derived from, each followed by its own sources. -/
def sources (c : Concept) : List Concept :=
  c.fold fun _ parts => (parts.lineage ()).allReads.flatMap fun (read, sources) => read :: sources

/-- Whether a placeholder is reachable by keys and derivation, the grain of `c` itself apart. -/
def hasPlaceholdersInside (c : Concept) : Bool :=
  c.fold fun c parts =>
    let reaches : Concept × Bool → Bool := fun (part, inside) =>
      inside || part.grain.hasPlaceholders
    c.isPlaceholder || (parts.keys ()).any reaches || (parts.lineage ()).allReads.any reaches

/-- Whether a placeholder is reachable by keys, derivation or grain. -/
def hasPlaceholders (c : Concept) : Bool :=
  c.grain.hasPlaceholders || c.hasPlaceholdersInside

end Concept

end SemanticQuery
