import SemanticQuery.Graph.Path
import SemanticQuery.Proofs.NameMaps

/-!
The edges of a reference graph. Adding vertices and edges adds just those, so the edges of the graph
of a catalog link each datasource with the concepts of its columns, both ways, and each derived
concept with what it reads.
-/

namespace SemanticQuery

namespace Vertex

theorem toList_conceptName (address : String) :
    (conceptName address).toList = 'c' :: '~' :: address.toList := by
  simp [conceptName]

theorem toList_datasourceName (identifier : String) :
    (datasourceName identifier).toList = 'd' :: 's' :: '~' :: identifier.toList := by
  simp [datasourceName]

@[simp] theorem addressOfName?_conceptName (address : String) :
    addressOfName? (conceptName address) = some address := by
  simp [addressOfName?, toList_conceptName]

@[simp] theorem addressOfName?_datasourceName (identifier : String) :
    addressOfName? (datasourceName identifier) = none := by
  simp [addressOfName?, toList_datasourceName]

theorem addressOfName?_eq_some {name address : String} :
    addressOfName? name = some address ↔ name = conceptName address := by
  constructor
  · intro found
    unfold addressOfName? at found
    split at found
    · next chars =>
      cases found
      rw [← String.toList_inj, toList_conceptName, chars, String.toList_ofList]
    · cases found
  · rintro rfl
    exact addressOfName?_conceptName address

@[simp] theorem isDatasourceName_datasourceName (identifier : String) :
    isDatasourceName (datasourceName identifier) = true := by
  simp [isDatasourceName, toList_datasourceName]

@[simp] theorem isDatasourceName_conceptName (address : String) :
    isDatasourceName (conceptName address) = false := by
  simp [isDatasourceName, toList_conceptName]

theorem datasourceName_ne_conceptName (identifier address : String) :
    datasourceName identifier ≠ conceptName address := by
  intro same
  have chars := congrArg String.toList same
  simp [toList_conceptName, toList_datasourceName] at chars

theorem datasourceName_injective {a b : String} (same : datasourceName a = datasourceName b) :
    a = b := by
  have chars := congrArg String.toList same
  simpa [toList_datasourceName, String.toList_inj] using chars

end Vertex

namespace Graph

variable {g : Graph} {start finish : String}

theorem mem_successors {name : String} :
    finish ∈ g.successors name ↔ ∃ l, g.links.get? name = some l ∧ finish ∈ l.targets.keys := by
  unfold successors
  cases g.links.get? name <;> simp

theorem not_mem_successors_empty : ¬ finish ∈ (∅ : Graph).successors start := List.not_mem_nil

theorem pairwise_successors (g : Graph) (name : String) :
    (g.successors name).Pairwise (· < ·) := by
  rw [successors]
  cases g.links.get? name with
  | none => exact .nil
  | some links => exact NameMap.increasing_keys links.targets

theorem get?_addVertex (g : Graph) (v : Vertex) (name : String) :
    (g.addVertex v).links.get? name =
      if name = v.name ∧ g.links.get? name = none then some ⟨v, ∅⟩ else g.links.get? name := by
  unfold addVertex NameMap.insertIfNew
  split
  · next present =>
    have held : ¬ (name = v.name ∧ g.links.get? name = none) := by
      rintro ⟨rfl, absent⟩
      exact NameMap.get?_eq_none_iff.mp absent (NameMap.contains_iff.mp present)
    rw [if_neg held]
  · next missing =>
    have absent : g.links.get? v.name = none :=
      NameMap.get?_eq_none_iff.mpr fun member => missing (NameMap.contains_iff.mpr member)
    rw [NameMap.get?_insert]
    by_cases same : name = v.name
    · rw [if_pos same, if_pos ⟨same, same ▸ absent⟩]
    · rw [if_neg same, if_neg fun both => same both.1]

@[simp] theorem successors_addVertex (g : Graph) (v : Vertex) (name : String) :
    (g.addVertex v).successors name = g.successors name := by
  unfold successors
  rw [get?_addVertex]
  split
  · next fresh =>
    rw [fresh.2]
    rfl
  · rfl

/-- A vertex that was added is there. -/
theorem exists_get?_addVertex (g : Graph) (v : Vertex) :
    ∃ l, (g.addVertex v).links.get? v.name = some l := by
  rw [get?_addVertex]
  cases held : g.links.get? v.name <;> simp

/-- Adding an edge adds its ends, and changes what is kept at its source. -/
theorem addEdge_eq (g : Graph) (source target : Vertex) (kind : EdgeKind) :
    ∃ l, ((g.addVertex source).addVertex target).links.get? source.name = some l ∧
      g.addEdge source target kind =
        if ((l.targets.get? target.name).getD []).contains kind then
          (g.addVertex source).addVertex target
        else ⟨((g.addVertex source).addVertex target).links.insert source.name { l with
          targets := l.targets.insert target.name
            ((l.targets.get? target.name).getD [] ++ [kind]) }⟩ := by
  obtain ⟨l, held⟩ : ∃ l,
      ((g.addVertex source).addVertex target).links.get? source.name = some l := by
    obtain ⟨l, held⟩ := exists_get?_addVertex g source
    refine ⟨l, ?_⟩
    rw [get?_addVertex, held]
    simp
  refine ⟨l, held, ?_⟩
  simp only [addEdge]
  rw [held]

/-- Adding an edge adds one successor of its source. -/
theorem mem_successors_addEdge {source target : Vertex} {kind : EdgeKind} :
    finish ∈ (g.addEdge source target kind).successors start ↔
      (start = source.name ∧ finish = target.name) ∨ finish ∈ g.successors start := by
  obtain ⟨l, held, added⟩ := addEdge_eq g source target kind
  have before (name : String) :
      ((g.addVertex source).addVertex target).successors name = g.successors name := by simp
  have own : ((g.addVertex source).addVertex target).successors source.name = l.targets.keys := by
    rw [successors, held]
    rfl
  rw [added, ← before start]
  split
  · next linked =>
    -- an edge that is there already
    have listed : target.name ∈ l.targets.keys := by
      refine Decidable.not_not.mp fun missing => ?_
      rw [NameMap.get?_eq_none_iff.mpr missing] at linked
      simp at linked
    constructor
    · exact .inr
    · rintro (⟨rfl, rfl⟩ | member)
      · rwa [own]
      · exact member
  · rw [mem_successors]
    simp only [NameMap.get?_insert]
    by_cases same : start = source.name
    · subst same
      rw [own]
      simp [NameMap.mem_keys_insert]
    · simp only [same, false_and, false_or]
      exact mem_successors.symm

theorem contains_iff {name : String} :
    g.contains name = true ↔ ∃ l, g.links.get? name = some l := by
  rw [contains, NameMap.contains_iff]
  constructor
  · intro member
    cases held : g.links.get? name with
    | none => exact absurd member (NameMap.get?_eq_none_iff.mp held)
    | some l => exact ⟨l, rfl⟩
  · rintro ⟨l, held⟩
    by_contra absent
    rw [NameMap.get?_eq_none_iff.mpr absent] at held
    cases held

theorem contains_addVertex {v : Vertex} {name : String} :
    (g.addVertex v).contains name = true ↔ name = v.name ∨ g.contains name = true := by
  rw [contains_iff, contains_iff, get?_addVertex]
  by_cases same : name = v.name
  · cases held : g.links.get? name <;> simp [same]
  · simp [same]

theorem contains_addEdge {source target : Vertex} {kind : EdgeKind} {name : String} :
    (g.addEdge source target kind).contains name = true ↔
      name = source.name ∨ name = target.name ∨ g.contains name = true := by
  obtain ⟨l, held, added⟩ := addEdge_eq g source target kind
  have ends : ((g.addVertex source).addVertex target).contains name = true ↔
      name = source.name ∨ name = target.name ∨ g.contains name = true := by
    rw [contains_addVertex, contains_addVertex, or_left_comm]
  rw [← ends, added]
  split
  · rfl
  · rw [contains_iff, contains_iff, NameMap.get?_insert]
    by_cases same : name = source.name
    · simp [same, held]
    · simp [same]

/-- What holds after a fold, if each step adds what `adds` says. -/
theorem foldl_iff {P : Graph → Prop} {f : Graph → α → Graph} {adds : α → Prop}
    (step : ∀ g a, P (f g a) ↔ adds a ∨ P g) (items : List α) (g : Graph) :
    P (items.foldl f g) ↔ (∃ a ∈ items, adds a) ∨ P g := by
  induction items generalizing g with
  | nil => simp
  | cons a items ih =>
    simp only [List.foldl_cons, ih, step, List.mem_cons, exists_eq_or_imp]
    rw [or_assoc, or_left_comm]

theorem mem_successors_addColumns {d : Datasource} :
    finish ∈ (g.addColumns d).successors start ↔
      (∃ c ∈ d.concepts,
        (start = Vertex.conceptName c.address ∧ finish = Vertex.datasourceName d.identifier) ∨
        (start = Vertex.datasourceName d.identifier ∧ finish = Vertex.conceptName c.address)) ∨
      finish ∈ g.successors start := by
  unfold addColumns
  rw [foldl_iff (P := (finish ∈ ·.successors start)), successors_addVertex]
  intro g c
  simp only [mem_successors_addEdge, Vertex.name]
  rw [or_assoc]

theorem mem_successors_addReads {c : Concept} :
    finish ∈ (g.addReads c).successors start ↔
      (∃ read ∈ c.reads,
        start = Vertex.conceptName c.address ∧ finish = Vertex.conceptName read.address) ∨
      finish ∈ g.successors start := by
  unfold addReads
  rw [foldl_iff (P := (finish ∈ ·.successors start)), successors_addVertex]
  intro g read
  simp only [mem_successors_addEdge, Vertex.name]

theorem contains_addColumns {d : Datasource} {name : String} :
    (g.addColumns d).contains name = true ↔
      (∃ c ∈ d.concepts,
        name = Vertex.conceptName c.address ∨ name = Vertex.datasourceName d.identifier) ∨
      name = Vertex.datasourceName d.identifier ∨ g.contains name = true := by
  unfold addColumns
  rw [foldl_iff (P := (·.contains name = true)), contains_addVertex]
  · rfl
  · intro g c
    simp only [contains_addEdge, Vertex.name]
    tauto

theorem contains_addReads {c : Concept} {name : String} :
    (g.addReads c).contains name = true ↔
      ((∃ read ∈ c.reads,
          name = Vertex.conceptName c.address ∨ name = Vertex.conceptName read.address) ∨
        name = Vertex.conceptName c.address) ∨ g.contains name = true := by
  unfold addReads
  rw [foldl_iff (P := (·.contains name = true)), contains_addVertex]
  · rw [or_assoc]
    rfl
  · intro g read
    simp only [contains_addEdge, Vertex.name]
    rw [or_assoc]

/-- The vertices of a catalog are its concepts, what they read, its datasources and the concepts of
their columns. -/
theorem contains_ofCatalog_iff {catalog : Catalog} {name : String} :
    (ofCatalog catalog).contains name = true ↔
      (∃ c ∈ catalog.concepts.values, (∃ read ∈ c.reads,
          name = Vertex.conceptName c.address ∨ name = Vertex.conceptName read.address) ∨
        name = Vertex.conceptName c.address) ∨
      ∃ d ∈ catalog.datasources, (∃ c ∈ d.concepts,
          name = Vertex.conceptName c.address ∨ name = Vertex.datasourceName d.identifier) ∨
        name = Vertex.datasourceName d.identifier := by
  unfold ofCatalog
  rw [foldl_iff (P := (·.contains name = true)) (f := addReads) fun g c => contains_addReads,
    foldl_iff (P := (·.contains name = true)) (f := addColumns) fun g d =>
      contains_addColumns.trans or_assoc.symm]
  have none : (∅ : Graph).contains name = false := rfl
  simp only [none, Bool.false_eq_true, or_false]

/-- A datasource and the concepts of its columns are vertices. -/
theorem contains_ofCatalog {catalog : Catalog} {d : Datasource} (declared : d ∈ catalog.datasources)
    {name : String}
    (own : name = Vertex.datasourceName d.identifier ∨
      ∃ c ∈ d.concepts, name = Vertex.conceptName c.address) :
    (ofCatalog catalog).contains name = true := by
  rw [contains_ofCatalog_iff]
  refine .inr ⟨d, declared, ?_⟩
  rcases own with same | ⟨c, listed, same⟩
  · exact .inr same
  · exact .inl ⟨c, listed, .inl same⟩

theorem mem_successors_ofCatalog {catalog : Catalog} :
    finish ∈ (ofCatalog catalog).successors start ↔
      (∃ c ∈ catalog.concepts.values, ∃ read ∈ c.reads,
        start = Vertex.conceptName c.address ∧ finish = Vertex.conceptName read.address) ∨
      ∃ d ∈ catalog.datasources, ∃ c ∈ d.concepts,
        (start = Vertex.conceptName c.address ∧ finish = Vertex.datasourceName d.identifier) ∨
        (start = Vertex.datasourceName d.identifier ∧ finish = Vertex.conceptName c.address) := by
  rw [ofCatalog,
    foldl_iff (P := (finish ∈ ·.successors start)) (f := addReads)
      fun g c => mem_successors_addReads,
    foldl_iff (P := (finish ∈ ·.successors start)) (f := addColumns)
      fun g d => mem_successors_addColumns]
  simp only [not_mem_successors_empty, or_false]

/-- Every edge of a catalog leads to a vertex. -/
theorem contains_of_mem_successors {catalog : Catalog}
    (edge : finish ∈ (ofCatalog catalog).successors start) :
    (ofCatalog catalog).contains finish = true := by
  apply contains_ofCatalog_iff.mpr
  rcases mem_successors_ofCatalog.mp edge with
    ⟨c, listed, read, member, -, rfl⟩ | ⟨d, declared, c, listed, ends⟩
  · exact .inl ⟨c, listed, .inl ⟨read, member, .inr rfl⟩⟩
  · rcases ends with ⟨-, rfl⟩ | ⟨-, rfl⟩
    · exact .inr ⟨d, declared, .inr rfl⟩
    · exact .inr ⟨d, declared, .inl ⟨c, listed, .inl rfl⟩⟩

/-- From a datasource the graph leads to the concepts of its columns only. -/
theorem mem_successors_datasource {catalog : Catalog} {identifier : String} :
    finish ∈ (ofCatalog catalog).successors (Vertex.datasourceName identifier) ↔
      ∃ d ∈ catalog.datasources, d.identifier = identifier ∧
        ∃ c ∈ d.concepts, finish = Vertex.conceptName c.address := by
  have apart := Vertex.datasourceName_ne_conceptName identifier
  rw [mem_successors_ofCatalog]
  simp only [apart, false_and, and_false, exists_false, false_or]
  constructor
  · rintro ⟨d, declared, c, listed, same, rfl⟩
    exact ⟨d, declared, (Vertex.datasourceName_injective same).symm, c, listed, rfl⟩
  · rintro ⟨d, declared, rfl, c, listed, rfl⟩
    exact ⟨d, declared, c, listed, rfl, rfl⟩

end Graph

end SemanticQuery
