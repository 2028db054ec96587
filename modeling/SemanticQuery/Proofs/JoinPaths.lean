import Mathlib.Data.List.Perm.Subperm
import SemanticQuery.Concept.Declare
import SemanticQuery.Plan.JoinPath
import SemanticQuery.Proofs.Coverage
import SemanticQuery.Proofs.JoinOrder
import SemanticQuery.Proofs.Program

/-!
The concepts that a request is joined through. A join may start from any datasource that reaches all
of the request, and passes the concepts on the shortest paths from there. If two such sets of
concepts are incomparable the request is ambiguous, and otherwise it is extended to the least of
them. Neither the paths nor the answer depend on the order in which datasources are declared.
-/

namespace SemanticQuery

namespace Graph

variable {g h : Graph}

/-- Two graphs with the same vertices and edges. -/
structure Alike (g h : Graph) : Prop where
  contains (name : String) : g.contains name = h.contains name
  successors (name : String) : g.successors name = h.successors name

/-- The order of the datasources leaves no trace in the graph. -/
theorem alike_ofCatalog {a b : Catalog} (concepts : b.concepts = a.concepts)
    (datasources : b.datasources.Perm a.datasources) : (ofCatalog b).Alike (ofCatalog a) where
  contains name := by
    rw [Bool.eq_iff_iff, contains_ofCatalog_iff, contains_ofCatalog_iff, concepts]
    simp only [datasources.mem_iff]
  successors name := by
    refine Names.eq_of_increasing (pairwise_successors _ _) (pairwise_successors _ _)
      fun finish => ?_
    rw [mem_successors_ofCatalog, mem_successors_ofCatalog, concepts]
    simp only [datasources.mem_iff]

theorem Alike.vertexCount (alike : g.Alike h) : g.vertexCount = h.vertexCount := by
  have keys : g.links.keys = h.links.keys := by
    refine Names.eq_of_increasing (NameMap.increasing_keys _) (NameMap.increasing_keys _) ?_
    intro name
    rw [← NameMap.contains_iff, ← NameMap.contains_iff]
    exact Bool.eq_iff_iff.mp (alike.contains name)
  simpa [NameMap.keys, Graph.vertexCount, NameMap.size] using congrArg List.length keys

theorem Alike.searchFrom (alike : g.Alike h) (target : String) (fuel : Nat)
    (queue : List (List String)) (seen : List String) :
    g.searchFrom target fuel queue seen = h.searchFrom target fuel queue seen := by
  induction fuel generalizing queue seen with
  | zero => rfl
  | succ fuel ih =>
    match queue with
    | [] => rfl
    | [] :: queue => exact ih queue seen
    | (current :: path) :: queue =>
      simp only [Graph.searchFrom, alike.successors, ih]

theorem Alike.datasourcePath (alike : g.Alike h) (identifier address : String) :
    g.datasourcePath identifier address = h.datasourcePath identifier address := by
  simp only [Graph.datasourcePath, shortestPath, alike.contains, alike.vertexCount,
    alike.searchFrom]

theorem contains_of_datasourcePath {identifier address : String} {path : Option (List String)}
    (found : g.datasourcePath identifier address = .ok path) :
    g.contains (Vertex.conceptName address) = true := by
  rw [Graph.datasourcePath, shortestPath] at found
  split at found
  · cases found
  · split at found
    · cases found
    · next target => simpa using target

theorem exists_datasourcePath {identifier address : String}
    (source : g.contains (Vertex.datasourceName identifier) = true)
    (target : g.contains (Vertex.conceptName address) = true) :
    ∃ path, g.datasourcePath identifier address = .ok path := by
  simp [Graph.datasourcePath, shortestPath, source, target]

end Graph

namespace Planner

variable {p q : Planner} {cs : List Concept} {acceptPartial : Bool} {d : Datasource}

/-- The shortest path from a datasource to a concept. -/
def Path (p : Planner) (d : Datasource) (c : Concept) (path : List String) : Prop :=
  p.graph.datasourcePath d.identifier c.address = .ok (some path)

/-- A datasource that a join may start from. -/
structure Hub (p : Planner) (cs : List Concept) (acceptPartial : Bool) (d : Datasource) :
    Prop where
  declared : d ∈ p.catalog.datasources
  reaches : ∀ c ∈ cs, ∃ path, p.Path d c path
  /-- One of the concepts is reached without the help of another datasource. -/
  direct : ∃ c ∈ cs, ∃ path, p.Path d c path ∧ (path.filter Vertex.isDatasourceName).length = 1
  whole : acceptPartial = true ∨ ∀ c ∈ cs, d.isPartialFor c.address = false

/-- The concepts on the paths from a datasource that a join may start from, in increasing order. -/
def JoinSet (p : Planner) (cs : List Concept) (acceptPartial : Bool) (set : List String) : Prop :=
  set.Pairwise (· < ·) ∧ ∃ d, p.Hub cs acceptPartial d ∧
    ∀ address, address ∈ set ↔ ∃ c ∈ cs, ∃ path, p.Path d c path ∧
      Vertex.conceptName address ∈ path

/-- Two of the sets that a join may pass are incomparable. -/
def Ambiguous (p : Planner) (cs : List Concept) (acceptPartial : Bool) : Prop :=
  ∃ a b, p.JoinSet cs acceptPartial a ∧ p.JoinSet cs acceptPartial b ∧ ¬ a ⊆ b ∧ ¬ b ⊆ a

/-- A set that a join may pass and that is part of every other one. -/
def LeastJoinSet (p : Planner) (cs : List Concept) (acceptPartial : Bool) (set : List String) :
    Prop :=
  p.JoinSet cs acceptPartial set ∧ ∀ other, p.JoinSet cs acceptPartial other → set ⊆ other

/-- A path ends at its concept. -/
theorem Path.mem {c : Concept} {path : List String} (found : p.Path d c path) :
    Vertex.conceptName c.address ∈ path := by
  obtain ⟨steps, rfl, _⟩ := Graph.walk_of_datasourcePath found
  simp

theorem JoinSet.requested {set : List String} (joins : p.JoinSet cs acceptPartial set) :
    Concept.addresses cs ⊆ set := by
  obtain ⟨_, d, hub, passes⟩ := joins
  intro address listed
  obtain ⟨c, request, rfl⟩ := List.mem_map.mp listed
  obtain ⟨path, found⟩ := hub.reaches c request
  exact (passes _).mpr ⟨c, request, path, found, found.mem⟩

theorem LeastJoinSet.unique {a b : List String} (least : p.LeastJoinSet cs acceptPartial a)
    (other : p.LeastJoinSet cs acceptPartial b) : a = b :=
  Names.eq_of_increasing least.1.1 other.1.1 fun _ =>
    ⟨fun member => least.2 b other.1 member, fun member => other.2 a least.1 member⟩

section Candidates

/-!
The candidates are the sets that a join may pass, each once.
-/

theorem pathsFrom_eq_some {paths : PathSet} :
    p.pathsFrom d cs = .ok (some paths) ↔
      paths.map (fun path => .ok (some path)) =
        cs.map fun c => p.graph.datasourcePath d.identifier c.address := by
  induction cs generalizing paths with
  | nil =>
    rw [pathsFrom, pure_eq_ok, Option.some.injEq, List.map_nil, List.map_eq_nil_iff]
    exact eq_comm
  | cons c cs ih =>
    rw [pathsFrom, List.map_cons, List.map_eq_cons_iff]
    constructor
    · intro found
      split at found
      · cases found
      · obtain ⟨answer, first, found⟩ := bind_eq_ok.mp found
        cases answer with
        | none => cases found
        | some path =>
          obtain ⟨answer, later, found⟩ := bind_eq_ok.mp found
          obtain ⟨rest, rfl, rfl⟩ := Option.map_eq_some_iff.mp (Except.ok.inj found)
          exact ⟨path, rest, rfl, first.symm, ih.mp later⟩
    · rintro ⟨path, rest, rfl, first, later⟩
      have vertex := Graph.contains_of_datasourcePath first.symm
      rw [if_neg (by simp [vertex]), ← first, ih.mpr later]
      rfl

theorem exists_pathsFrom (source : p.graph.contains (Vertex.datasourceName d.identifier) = true) :
    ∃ answer, p.pathsFrom d cs = .ok answer := by
  induction cs with
  | nil => exact ⟨_, rfl⟩
  | cons c cs ih =>
    rw [pathsFrom]
    split
    · exact ⟨none, rfl⟩
    · next target =>
      obtain ⟨answer, found⟩ := Graph.exists_datasourcePath source (by simpa using target)
      obtain ⟨rest, later⟩ := ih
      rw [found, later]
      cases answer with
      | none => exact ⟨none, rfl⟩
      | some path => exact ⟨rest.map (path :: ·), rfl⟩

/-- The paths from a datasource are the shortest ones to the concepts. -/
theorem mem_of_pathsFrom {paths : PathSet} (found : p.pathsFrom d cs = .ok (some paths))
    {path : List String} : path ∈ paths ↔ ∃ c ∈ cs, p.Path d c path := by
  have listed : (Except.ok (some path) : Except PlanError (Option (List String))) ∈
      paths.map (fun path => .ok (some path)) ↔ ∃ c ∈ cs, p.Path d c path := by
    rw [pathsFrom_eq_some.mp found]
    exact List.mem_map
  rw [← listed]
  simp

theorem exists_paths_iff :
    (∃ paths, p.pathsFrom d cs = .ok (some paths)) ↔ ∀ c ∈ cs, ∃ path, p.Path d c path := by
  simp only [pathsFrom_eq_some]
  change cs.map _ ∈ Set.range (List.map _) ↔ _
  rw [Set.range_list_map, Set.mem_ofPred_eq, List.forall_mem_map]
  exact forall₂_congr fun c _ => exists_congr fun path => eq_comm

theorem joinPaths?_eq_some {paths : PathSet} :
    p.joinPaths? cs acceptPartial d = .ok (some paths) ↔
      p.pathsFrom d cs = .ok (some paths) ∧
        (∃ path ∈ paths, (path.filter Vertex.isDatasourceName).length = 1) ∧
        (acceptPartial = true ∨ ∀ c ∈ cs, d.isPartialFor c.address = false) := by
  have admitted : ((paths.any fun path => (path.filter Vertex.isDatasourceName).length == 1) &&
        (acceptPartial || !cs.any fun c => d.isPartialFor c.address)) = true ↔
      (∃ path ∈ paths, (path.filter Vertex.isDatasourceName).length = 1) ∧
        (acceptPartial = true ∨ ∀ c ∈ cs, d.isPartialFor c.address = false) := by
    simp
  rw [joinPaths?, bind_eq_ok, ← admitted]
  constructor
  · rintro ⟨answer, found, taken⟩
    cases answer with
    | none => cases taken
    | some others =>
      dsimp only at taken
      split at taken
      · next accepted =>
        cases taken
        exact ⟨found, accepted⟩
      · cases taken
  · rintro ⟨found, accepted⟩
    exact ⟨some paths, found, if_pos accepted⟩

theorem exists_joinPaths? (source : p.graph.contains (Vertex.datasourceName d.identifier) = true) :
    ∃ answer, p.joinPaths? cs acceptPartial d = .ok answer := by
  obtain ⟨answer, found⟩ : ∃ answer, p.pathsFrom d cs = .ok answer := exists_pathsFrom source
  rw [joinPaths?, found]
  cases answer with
  | none => exact ⟨none, rfl⟩
  | some paths =>
    by_cases accepted : (paths.any fun path => (path.filter Vertex.isDatasourceName).length == 1) &&
        (acceptPartial || !cs.any fun c => d.isPartialFor c.address)
    · exact ⟨some paths, if_pos accepted⟩
    · exact ⟨none, if_neg accepted⟩

theorem mem_addresses {paths : PathSet} {address : String} :
    address ∈ paths.addresses ↔ ∃ path ∈ paths, Vertex.conceptName address ∈ path := by
  simp [PathSet.addresses, Vertex.addressOfName?_eq_some]

/-- A datasource is accepted if a join may start from it. -/
theorem hub_iff (declared : d ∈ p.catalog.datasources) :
    p.Hub cs acceptPartial d ↔ ∃ paths, p.joinPaths? cs acceptPartial d = .ok (some paths) := by
  constructor
  · intro hub
    obtain ⟨paths, found⟩ := exists_paths_iff.mpr hub.reaches
    obtain ⟨c, listed, path, way, single⟩ := hub.direct
    have member := (mem_of_pathsFrom found).mpr ⟨c, listed, way⟩
    exact ⟨paths, joinPaths?_eq_some.mpr ⟨found, ⟨path, member, single⟩, hub.whole⟩⟩
  · rintro ⟨paths, accepted⟩
    obtain ⟨found, ⟨path, member, single⟩, whole⟩ := joinPaths?_eq_some.mp accepted
    obtain ⟨c, listed, way⟩ := (mem_of_pathsFrom found).mp member
    exact ⟨declared, exists_paths_iff.mp ⟨paths, found⟩, ⟨c, listed, path, way, single⟩, whole⟩

theorem mem_addresses_of_joinPaths? {paths : PathSet}
    (accepted : p.joinPaths? cs acceptPartial d = .ok (some paths)) {address : String} :
    address ∈ PathSet.addresses paths ↔
      ∃ c ∈ cs, ∃ path, p.Path d c path ∧ Vertex.conceptName address ∈ path := by
  rw [mem_addresses]
  simp only [mem_of_pathsFrom (joinPaths?_eq_some.mp accepted).1]
  constructor
  · rintro ⟨path, ⟨c, listed, way⟩, passed⟩
    exact ⟨c, listed, path, way, passed⟩
  · rintro ⟨c, listed, path, way, passed⟩
    exact ⟨path, ⟨c, listed, way⟩, passed⟩

theorem joinSet_iff {set : List String} :
    p.JoinSet cs acceptPartial set ↔ ∃ d ∈ p.catalog.datasources, ∃ paths,
      p.joinPaths? cs acceptPartial d = .ok (some paths) ∧ PathSet.addresses paths = set := by
  constructor
  · rintro ⟨increasing, d, hub, passes⟩
    obtain ⟨paths, accepted⟩ := (hub_iff hub.declared).mp hub
    refine ⟨d, hub.declared, paths, accepted, ?_⟩
    refine Names.eq_of_increasing (Names.pairwise_ofList _) increasing fun address => ?_
    exact (mem_addresses_of_joinPaths? accepted).trans (passes address).symm
  · rintro ⟨d, declared, paths, accepted, rfl⟩
    exact ⟨Names.pairwise_ofList _, d, (hub_iff declared).mpr ⟨paths, accepted⟩,
      fun address => mem_addresses_of_joinPaths? accepted⟩

theorem mem_distinct {sets acc : List (List String)} {set : List String} :
    set ∈ sets.foldl (fun sets set => if sets.contains set then sets else sets ++ [set]) acc ↔
      set ∈ acc ∨ set ∈ sets := by
  induction sets generalizing acc with
  | nil => simp
  | cons first rest ih =>
    rw [List.foldl_cons, ih, List.mem_cons, ← or_assoc]
    by_cases held : first ∈ acc
    · rw [if_pos (by simpa using held)]
      exact or_congr_left (or_iff_left_of_imp fun same => same ▸ held).symm
    · rw [if_neg (by simpa using held), List.mem_append, List.mem_singleton]

theorem nodup_distinct {sets acc : List (List String)} (distinct : acc.Nodup) :
    (sets.foldl (fun sets set => if sets.contains set then sets else sets ++ [set]) acc).Nodup := by
  induction sets generalizing acc with
  | nil => exact distinct
  | cons first rest ih =>
    rw [List.foldl_cons]
    by_cases held : first ∈ acc
    · rw [if_pos (by simpa using held)]
      exact ih distinct
    · rw [if_neg (by simpa using held)]
      exact ih (List.concat_eq_append ▸ distinct.concat held)

theorem exists_joinCandidates (graph : p.graph = Graph.ofCatalog p.catalog) (cs : List Concept)
    (acceptPartial : Bool) :
    ∃ sets, p.joinCandidates cs acceptPartial = .ok sets ∧ sets.Nodup ∧
      ∀ set, set ∈ sets ↔ p.JoinSet cs acceptPartial set := by
  have answers : ∀ d ∈ p.catalog.datasources,
      ∃ answer, p.joinPaths? cs acceptPartial d = .ok answer := by
    intro d declared
    apply exists_joinPaths?
    rw [graph]
    exact Graph.contains_ofCatalog declared (.inl rfl)
  obtain ⟨found, done⟩ := exists_mapM answers
  refine ⟨_, bind_eq_ok.mpr ⟨found, done, rfl⟩, nodup_distinct .nil, fun set => ?_⟩
  have accepted (paths : PathSet) : some paths ∈ found ↔
      ∃ d ∈ p.catalog.datasources, p.joinPaths? cs acceptPartial d = .ok (some paths) := by
    rw [← List.mem_map, mapM_eq_ok.mp done]
    simp
  rw [mem_distinct, joinSet_iff]
  simp only [List.not_mem_nil, false_or, List.mem_map, perm_sortBy.mem_iff, List.mem_filterMap,
    id_eq, exists_eq_right, accepted]
  constructor
  · rintro ⟨paths, ⟨d, declared, way⟩, rfl⟩
    exact ⟨d, declared, paths, way, rfl⟩
  · rintro ⟨d, declared, paths, way, rfl⟩
    exact ⟨paths, ⟨d, declared, way⟩, rfl⟩

end Candidates

section Extension

/-!
Of sets that are pairwise comparable one with the fewest names is the least.
-/

theorem smallest?_eq_none {sets : List (List String)} : smallest? sets = none ↔ sets = [] := by
  cases sets with
  | nil => simp [smallest?]
  | cons set sets =>
    rw [smallest?]
    cases smallest? sets with
    | none => simp
    | some other => by_cases short : set.length ≤ other.length <;> simp [short]

theorem of_smallest? {sets : List (List String)} {set : List String}
    (smallest : smallest? sets = some set) :
    set ∈ sets ∧ ∀ other ∈ sets, set.length ≤ other.length := by
  induction sets generalizing set with
  | nil => cases smallest
  | cons first rest ih =>
    rw [smallest?] at smallest
    cases later : smallest? rest with
    | none =>
      rw [later] at smallest
      cases smallest
      simp [smallest?_eq_none.mp later]
    | some other =>
      obtain ⟨member, short⟩ := ih later
      rw [later] at smallest
      dsimp only at smallest
      split at smallest
      · next shorter =>
        cases smallest
        refine ⟨List.mem_cons_self, List.forall_mem_cons.mpr ⟨le_rfl, fun next listed => ?_⟩⟩
        exact shorter.trans (short next listed)
      · next longer =>
        cases smallest
        refine ⟨List.mem_cons_of_mem _ member, List.forall_mem_cons.mpr ⟨?_, short⟩⟩
        omega

theorem isNested_iff {a b : List String} : isNested a b = true ↔ a ⊆ b ∨ b ⊆ a := by
  simp [isNested, List.subset_def]

/-- Candidates pass the check if all of them are comparable. -/
theorem all_isNested_iff {sets : List (List String)} :
    ((ParentJoin.pairs sets).all fun pair => isNested pair.1 pair.2) = true ↔
      ∀ a ∈ sets, ∀ b ∈ sets, a ⊆ b ∨ b ⊆ a := by
  rw [List.all_eq_true]
  constructor
  · intro nested a left b right
    by_cases same : a = b
    · exact .inl (same ▸ List.Subset.refl a)
    · rcases ParentJoin.mem_pairs_or left right same with member | member
      · exact isNested_iff.mp (nested _ member)
      · exact (isNested_iff.mp (nested _ member)).symm
  · intro comparable pair member
    have unrelated : sets.Pairwise fun _ _ => True := List.pairwise_of_forall fun _ _ => trivial
    obtain ⟨left, right, _⟩ := ParentJoin.of_mem_pairs member unrelated
    exact isNested_iff.mpr (comparable _ left _ right)

/-- Of two comparable sets the one with fewer names is part of the other. -/
theorem subset_of_length_le {a b : List String} (increasing : b.Pairwise (· < ·))
    (comparable : a ⊆ b ∨ b ⊆ a) (short : a.length ≤ b.length) : a ⊆ b := by
  rcases comparable with inside | inside
  · exact inside
  · have distinct : b.Nodup := increasing.imp String.ne_of_lt
    exact ((distinct.subperm inside).perm_of_length_le short).symm.subset

theorem leastJoinSet_of_smallest? {sets : List (List String)} {set : List String}
    (candidates : ∀ set, set ∈ sets ↔ p.JoinSet cs acceptPartial set)
    (comparable : ∀ a ∈ sets, ∀ b ∈ sets, a ⊆ b ∨ b ⊆ a) (smallest : smallest? sets = some set) :
    p.LeastJoinSet cs acceptPartial set := by
  obtain ⟨member, short⟩ := of_smallest? smallest
  refine ⟨(candidates set).mp member, fun other joins => ?_⟩
  have listed := (candidates other).mpr joins
  exact subset_of_length_le joins.1 (comparable set member other listed) (short other listed)

/-- What a request is extended by to a set that contains it. -/
def lacks (cs : List Concept) (set : List String) : Option (List String) :=
  let requested := Concept.addresses cs
  if Names.same set requested then none else some (set.filter (!requested.contains ·))

theorem joinExtension_eq {sets : List (List String)}
    (found : p.joinCandidates cs acceptPartial = .ok sets) :
    p.joinExtension cs acceptPartial =
      if (ParentJoin.pairs sets).all fun pair => isNested pair.1 pair.2 then
        .ok ((smallest? sets).bind (lacks cs))
      else .error (.ambiguousRelationship sets) := by
  rw [joinExtension, found]
  change (if (!(ParentJoin.pairs sets).all fun pair => isNested pair.1 pair.2) = true then _ else _)
    = _
  by_cases nested : ((ParentJoin.pairs sets).all fun pair => isNested pair.1 pair.2) = true
  · rw [if_neg (by simp [nested]), if_pos nested]
    cases smallest? sets with
    | none => rfl
    | some set => rfl
  · rw [if_pos (by simpa using nested), if_neg nested]
    rfl

/-- Any other request cannot be joined or is extended to the least set. -/
theorem joinExtension_of_not_ambiguous (graph : p.graph = Graph.ofCatalog p.catalog)
    (clear : ¬ p.Ambiguous cs acceptPartial) :
    ((∀ set, ¬ p.JoinSet cs acceptPartial set) ∧ p.joinExtension cs acceptPartial = .ok none) ∨
      ∃ least, p.LeastJoinSet cs acceptPartial least ∧
        p.joinExtension cs acceptPartial = .ok (lacks cs least) := by
  obtain ⟨sets, found, _, candidates⟩ := exists_joinCandidates graph cs acceptPartial
  have comparable : ∀ a ∈ sets, ∀ b ∈ sets, a ⊆ b ∨ b ⊆ a := by
    intro a left b right
    by_contra apart
    rw [not_or] at apart
    exact clear ⟨a, b, (candidates a).mp left, (candidates b).mp right, apart⟩
  rw [joinExtension_eq found, if_pos (all_isNested_iff.mpr comparable)]
  cases smallest : smallest? sets with
  | none =>
    refine .inl ⟨fun set joins => ?_, rfl⟩
    rw [smallest?_eq_none.mp smallest] at candidates
    cases (candidates set).mpr joins
  | some set => exact .inr ⟨set, leastJoinSet_of_smallest? candidates comparable smallest, rfl⟩

end Extension

section Reordering

/-- Planners for one catalog whose datasources are declared in different orders. -/
structure Reordered (p q : Planner) : Prop where
  graph : p.graph = Graph.ofCatalog p.catalog
  other : q.graph = Graph.ofCatalog q.catalog
  concepts : q.catalog.concepts = p.catalog.concepts
  datasources : q.catalog.datasources.Perm p.catalog.datasources

theorem Reordered.path (reordered : p.Reordered q) {c : Concept} {path : List String} :
    q.Path d c path ↔ p.Path d c path := by
  have alike := Graph.alike_ofCatalog reordered.concepts reordered.datasources
  rw [Path, Path, reordered.graph, reordered.other, alike.datasourcePath]

theorem Reordered.hub (reordered : p.Reordered q) :
    q.Hub cs acceptPartial d ↔ p.Hub cs acceptPartial d := by
  constructor
  · rintro ⟨declared, reaches, direct, whole⟩
    simp only [reordered.path] at reaches direct
    exact ⟨reordered.datasources.mem_iff.mp declared, reaches, direct, whole⟩
  · rintro ⟨declared, reaches, direct, whole⟩
    simp only [← reordered.path] at reaches direct
    exact ⟨reordered.datasources.mem_iff.mpr declared, reaches, direct, whole⟩

theorem Reordered.joinSet (reordered : p.Reordered q) {set : List String} :
    q.JoinSet cs acceptPartial set ↔ p.JoinSet cs acceptPartial set := by
  simp only [JoinSet, reordered.hub, reordered.path]

theorem Reordered.ambiguous (reordered : p.Reordered q) :
    q.Ambiguous cs acceptPartial ↔ p.Ambiguous cs acceptPartial := by
  simp only [Ambiguous, reordered.joinSet]

theorem Reordered.leastJoinSet (reordered : p.Reordered q) {set : List String} :
    q.LeastJoinSet cs acceptPartial set ↔ p.LeastJoinSet cs acceptPartial set := by
  simp only [LeastJoinSet, reordered.joinSet]

/-- A request that is not ambiguous is extended alike. -/
theorem Reordered.joinExtension (reordered : p.Reordered q)
    (clear : ¬ p.Ambiguous cs acceptPartial) :
    q.joinExtension cs acceptPartial = p.joinExtension cs acceptPartial := by
  have left := joinExtension_of_not_ambiguous reordered.graph clear
  have right := joinExtension_of_not_ambiguous reordered.other (clear ∘ reordered.ambiguous.mp)
  rcases left with ⟨none, left⟩ | ⟨set, least, left⟩ <;>
    rcases right with ⟨nothing, right⟩ | ⟨other, also, right⟩
  · rw [left, right]
  · exact absurd (reordered.joinSet.mp also.1) (none other)
  · exact absurd (reordered.joinSet.mpr least.1) (nothing set)
  · rw [left, right, least.unique (reordered.leastJoinSet.mp also)]

end Reordering

section Node

variable {search : Searcher} {depth : Nat}

end Node

end Planner

namespace Routes

def origin : Concept := .key "origin" .integer

def destination : Concept := .key "destination" .integer

def port : Concept := .key "port" .integer

def station : Concept := .key "station" .integer

def trips : Datasource :=
  .table "trips" [⟨"origin", origin, []⟩, ⟨"port", port, []⟩, ⟨"station", station, []⟩]

def ferries : Datasource :=
  .table "ferries" [⟨"port", port, []⟩, ⟨"destination", destination, []⟩]

def trains : Datasource :=
  .table "trains" [⟨"station", station, []⟩, ⟨"destination", destination, []⟩]

def concepts : NameMap Concept :=
  .ofList ([origin, destination, port, station].map fun c => (c.address, c))

def planner (datasources : List Datasource) : Planner :=
  let catalog := Catalog.of concepts datasources
  { catalog, graph := .ofCatalog catalog }

/-- An origin and a destination are joined through a port or through a station. -/
def declared : Planner := planner [trips, ferries, trains]

def reordered : Planner := planner [trains, trips, ferries]

end Routes

end SemanticQuery
