import SemanticQuery.Plan.Leaf
import SemanticQuery.Proofs.Assembly
import SemanticQuery.Proofs.ShortestPaths

/-!
What a datasource covers. It is linked to the concepts of its columns and to nothing else, so it
reaches directly exactly the concepts that it has columns for: the search through the graph answers
as a look at the columns would. The datasource that covers concepts is the first that provides them.
-/

namespace SemanticQuery

theorem Datasource.provides_iff {d : Datasource} {address : String} :
    d.provides address = true ↔ ∃ column ∈ d.columns, column.concept.address = address := by
  simp [provides, column?]

namespace Graph

variable {g : Graph}

theorem walk_of_datasourcePath {identifier address : String} {found : List String}
    (ends : g.datasourcePath identifier address = .ok (some found)) :
    ∃ path, found = (Vertex.conceptName address :: path).reverse ∧
      g.Walk (Vertex.datasourceName identifier) (Vertex.conceptName address :: path) := by
  unfold datasourcePath shortestPath at ends
  split at ends
  · cases ends
  · split at ends
    · cases ends
    · refine walk_of_searchFrom ?_ (Except.ok.inj ends)
      intro path member
      rw [List.mem_singleton.mp member]
      exact .start

end Graph

namespace Planner

variable {p : Planner} {d : Datasource}

theorem reachesDirectly_of_path {address : String} {answer : Option (List String)}
    (target : p.graph.contains (Vertex.conceptName address) = true)
    (found : p.graph.datasourcePath d.identifier address = .ok answer) :
    p.reachesDirectly d address = .ok (answer.any (isDirect · address)) := by
  unfold reachesDirectly
  rw [target, found]
  cases answer <;> rfl

/-- A datasource that is not shadowed by another of its identifier has a column for every address
that it reaches directly. -/
theorem provides_of_reachesDirectly {address : String}
    (graph : p.graph = Graph.ofCatalog p.catalog)
    (alone : ∀ e ∈ p.catalog.datasources, e.identifier = d.identifier → e = d)
    (reaches : p.reachesDirectly d address = .ok true) : d.provides address = true := by
  unfold reachesDirectly at reaches
  split at reaches
  · cases reaches
  · obtain ⟨answer, found, direct⟩ := bind_eq_ok.mp reaches
    cases answer with
    | none => cases direct
    | some path =>
      have within : isDirect path address = true := pure_eq_ok.mp direct
      obtain ⟨steps, rfl, walk⟩ := Graph.walk_of_datasourcePath found
      obtain ⟨next, successor, passed⟩ := walk.exists_successor
        (Ne.symm (Vertex.datasourceName_ne_conceptName d.identifier address))
      rw [graph, Graph.mem_successors_datasource] at successor
      obtain ⟨e, declared, same, c, listed, rfl⟩ := successor
      cases alone e declared same
      -- the only concept on the way is the one that is looked for
      have reached : c.address = address := by
        simp only [isDirect, Bool.and_eq_true, List.all_eq_true, beq_iff_eq] at within
        refine within.2 _ (List.mem_filterMap.mpr ⟨_, List.mem_reverse.mpr passed, ?_⟩)
        exact Vertex.addressOfName?_conceptName c.address
      obtain ⟨column, bound, rfl⟩ := List.mem_map.mp listed
      exact Datasource.provides_iff.mpr ⟨column, bound, reached⟩

theorem provides_of_covers {cs : List Concept} (graph : p.graph = Graph.ofCatalog p.catalog)
    (alone : ∀ e ∈ p.catalog.datasources, e.identifier = d.identifier → e = d)
    (covers : p.covers d cs = .ok true) : ∀ c ∈ cs, d.provides c.address = true := by
  induction cs with
  | nil => simp
  | cons c cs ih =>
    rw [Planner.covers] at covers
    obtain ⟨reached, reaches, others⟩ := bind_eq_ok.mp covers
    cases reached with
    | false => cases others
    | true =>
      intro x member
      rcases List.mem_cons.mp member with rfl | member
      · exact provides_of_reachesDirectly graph alone reaches
      · exact ih others x member

section Declared

variable (graph : p.graph = Graph.ofCatalog p.catalog)
  (alone : ∀ d ∈ p.catalog.datasources, ∀ e ∈ p.catalog.datasources,
    e.identifier = d.identifier → e = d)

include graph alone

/-- A declared datasource reaches directly the addresses that it has a column for. -/
theorem reachesDirectly_eq (declared : d ∈ p.catalog.datasources) (address : String) :
    p.reachesDirectly d address = .ok (d.provides address) := by
  have bound : d.provides address = true →
      ∃ c ∈ d.concepts, Vertex.conceptName address = Vertex.conceptName c.address := by
    intro provides
    obtain ⟨column, listed, same⟩ := Datasource.provides_iff.mp provides
    exact ⟨column.concept, List.mem_map_of_mem listed, by rw [same]⟩
  by_cases target : p.graph.contains (Vertex.conceptName address) = true
  · have source : p.graph.contains (Vertex.datasourceName d.identifier) = true := by
      rw [graph]
      exact Graph.contains_ofCatalog declared (.inl rfl)
    have closed : ∀ name, ∀ next ∈ p.graph.successors name, p.graph.contains next = true := by
      rw [graph]
      exact fun name next edge => Graph.contains_of_mem_successors edge
    obtain ⟨answer, found, finds⟩ := Graph.finds_shortestPath closed source target
    have reaches := reachesDirectly_of_path (d := d) target found
    rw [reaches]
    apply congrArg
    apply Bool.eq_iff_iff.mpr
    constructor
    · intro direct
      rw [direct] at reaches
      exact provides_of_reachesDirectly graph (alone d declared) reaches
    · intro provides
      have edge : Vertex.conceptName address ∈
          p.graph.successors (Vertex.datasourceName d.identifier) := by
        rw [graph, Graph.mem_successors_datasource]
        exact ⟨d, declared, rfl, bound provides⟩
      cases answer with
      | none => exact absurd (.step .start edge) (finds _)
      | some path =>
        obtain ⟨rest, rfl, foremost⟩ := finds
        obtain rfl := foremost.eq_of_successor edge
          (Ne.symm (Vertex.datasourceName_ne_conceptName d.identifier address))
        simp [isDirect]
  · have lacks : d.provides address = false := by
      apply Bool.eq_false_iff.mpr
      intro provides
      apply target
      rw [graph]
      exact Graph.contains_ofCatalog declared (.inr (bound provides))
    simp [reachesDirectly, target, lacks, pure, Except.pure]

theorem covers_eq (declared : d ∈ p.catalog.datasources) (cs : List Concept) :
    p.covers d cs = .ok (cs.all fun c => d.provides c.address) := by
  induction cs with
  | nil => rfl
  | cons c cs ih =>
    rw [covers, reachesDirectly_eq graph alone declared, List.all_cons]
    cases d.provides c.address with
    | true =>
      change p.covers d cs = _
      rw [ih, Bool.true_and]
    | false => rfl

/-- The datasource that covers concepts is the first that provides all of them, and completely
unless partial sources are accepted. -/
theorem coveringDatasource?_eq (cs : List Concept) (acceptPartial : Bool) {ds : List Datasource}
    (declared : ∀ d ∈ ds, d ∈ p.catalog.datasources) :
    p.coveringDatasource? cs acceptPartial ds = .ok (ds.find? fun d =>
      (cs.all fun c => d.provides c.address) &&
        (acceptPartial || !cs.any fun c => d.isPartialFor c.address)) := by
  induction ds with
  | nil => rfl
  | cons d ds ih =>
    obtain ⟨first, rest⟩ := List.forall_mem_cons.mp declared
    rw [coveringDatasource?, covers_eq graph alone first]
    change (if _ then _ else _) = _
    rw [List.find?_cons]
    split
    · next fits =>
      rw [fits]
      rfl
    · next lacks =>
      rw [Bool.eq_false_iff.mpr lacks]
      exact ih rest

end Declared

/-- A declared datasource of an assembled catalog covers concepts if and only if it has a column for
the address of each of them, and the search for that never fails. -/
theorem covers_iff_bound (p : Planner) (d : Datasource) (cs : List Concept)
    (assembled : p.catalog.Assembled) (graph : p.graph = Graph.ofCatalog p.catalog)
    (declared : d ∈ p.catalog.datasources) :
    (∃ answer, p.covers d cs = .ok answer) ∧
      (p.covers d cs = .ok true ↔
        ∀ c ∈ cs, ∃ column ∈ d.columns, column.concept.address = c.address) ∧
      p.covers d cs = .ok (cs.all fun c => d.provides c.address) := by
  have alone : ∀ d ∈ p.catalog.datasources, ∀ e ∈ p.catalog.datasources,
      e.identifier = d.identifier → e = d :=
    fun d own e other => assembled.alone own other
  have covers := covers_eq graph alone declared cs
  refine ⟨⟨_, covers⟩, ?_, covers⟩
  simp [covers, Datasource.provides_iff]

end Planner

namespace Harbour

def vessel : Concept := .key "vessel" .integer

def berth : Concept := .key "berth" .integer

def pier : Concept := .key "pier" .integer

/-- A table of all moorings, by the pier of their berth. -/
def moorings : Datasource :=
  .table "moorings" [⟨"vessel", vessel, []⟩, ⟨"berth", berth, []⟩, ⟨"pier", pier, []⟩]

def arrivals : Datasource :=
  .table "arrivals" [⟨"vessel", vessel, []⟩, ⟨"berth", berth, [.incomplete]⟩]

def concepts : NameMap Concept :=
  .ofList [(vessel.address, vessel), (berth.address, berth), (pier.address, pier)]

def catalog : Catalog := .of concepts [moorings, arrivals]

def planner : Planner := { catalog, graph := Graph.ofCatalog catalog }

theorem assembled_catalog : catalog.Assembled := by
  let first : Builder := { concepts, datasources := [moorings] }
  let second : Builder := { concepts, datasources := [moorings, arrivals] }
  have one : Builder.addDatasource {} moorings = .ok first := rfl
  have two : first.addDatasource arrivals = .ok second := rfl
  exact ⟨second, .addDatasource (.addDatasource (.fresh false true) one) two, rfl⟩

end Harbour

/-- A way through a shared berth is not enough to cover the pier. -/
theorem Planner.covers_iff_bound_harbour :
    Harbour.planner.catalog.Assembled ∧
      Harbour.arrivals ∈ Harbour.planner.catalog.datasources ∧
      Harbour.planner.covers Harbour.arrivals [Harbour.vessel, Harbour.berth] = .ok true ∧
      Harbour.planner.covers Harbour.arrivals [Harbour.vessel, Harbour.pier] = .ok false := by
  have assembled : Harbour.planner.catalog.Assembled := Harbour.assembled_catalog
  have declared : Harbour.arrivals ∈ Harbour.planner.catalog.datasources :=
    List.mem_cons_of_mem _ List.mem_cons_self
  have both := covers_iff_bound Harbour.planner Harbour.arrivals [Harbour.vessel, Harbour.berth]
    assembled rfl declared
  have other := covers_iff_bound Harbour.planner Harbour.arrivals [Harbour.vessel, Harbour.pier]
    assembled rfl declared
  have provided : ∀ c ∈ [Harbour.vessel, Harbour.berth],
      ∃ column ∈ Harbour.arrivals.columns, column.concept.address = c.address := by
    decide +kernel
  have lacking : ([Harbour.vessel, Harbour.pier].all fun c =>
      Harbour.arrivals.provides c.address) = false := by
    decide +kernel
  rw [lacking] at other
  exact ⟨assembled, declared, both.2.1.mpr provided, other.2.2⟩

end SemanticQuery
