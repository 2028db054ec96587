import SemanticQuery.Plan.Resolve
import SemanticQuery.Proofs.NameMaps
import SemanticQuery.Proofs.Outcome
import SemanticQuery.Proofs.Unique

/-!
The queries that nodes resolve to. A query puts out what its node does.
-/

namespace SemanticQuery

theorem Query.of_eq_ok {inputs outputs : List Concept} {sourceMap : SourceMap}
    {sources : List Source} {grain : Grain} {joins : List SourceJoin} {sourceType : SourceType}
    {q : Query} :
    Query.of inputs outputs sourceMap sources grain joins sourceType = .ok q ↔
      misfit? sourceMap (Concept.unique inputs) (Concept.unique outputs) = none ∧
        ⟨Concept.unique inputs, Concept.unique outputs, sourceMap, sources, grain, joins,
          sourceType, [], none, none⟩ = q := by
  unfold Query.of
  dsimp only
  split
  · next misfit => simp [misfit]
  · next fits => simp [fits]

/-- A source map fits concepts if no entry names several sources and its addresses are theirs. -/
theorem Query.misfit?_eq_none {sourceMap : SourceMap} {inputs outputs : List Concept} :
    misfit? sourceMap inputs outputs = none ↔
      (∀ entry ∈ sourceMap.entries, entry.2.length ≤ 1) ∧
        ∀ address, address ∈ sourceMap.keys ↔ address ∈ Concept.addresses (outputs ++ inputs) := by
  have several : sourceMap.entries.find? (1 < ·.2.length) = none ↔
      ∀ entry ∈ sourceMap.entries, entry.2.length ≤ 1 := by
    simp [List.find?_eq_none]
  have listed : sourceMap.keys = Names.ofList (Concept.addresses (outputs ++ inputs)) ↔
      ∀ address, address ∈ sourceMap.keys ↔ address ∈ Concept.addresses (outputs ++ inputs) := by
    constructor
    · intro same address
      rw [same, Names.mem_ofList]
    · intro same
      refine Names.eq_of_increasing (NameMap.increasing_keys _) (Names.pairwise_ofList _) ?_
      intro address
      rw [Names.mem_ofList, same]
  rw [← several, ← listed, misfit?]
  cases sourceMap.entries.find? (1 < ·.2.length) with
  | some entry => simp
  | none => simp

/-- A source map with one entry for each input and output fits a query. -/
theorem Query.misfit?_ofList {cs inputs outputs : List Concept} {sources : Concept → List String}
    (single : ∀ c ∈ cs, (sources c).length ≤ 1)
    (covers : ∀ address,
      address ∈ Concept.addresses cs ↔ address ∈ Concept.addresses (outputs ++ inputs)) :
    misfit? (.ofList (cs.map fun c => (c.address, sources c))) inputs outputs = none := by
  refine misfit?_eq_none.mpr ⟨fun entry member => ?_, fun address => ?_⟩
  · obtain ⟨c, listed, rfl⟩ := List.mem_map.mp (NameMap.mem_of_mem_ofList member)
    exact single c listed
  · rw [← covers]
    simp [Concept.addresses]

namespace Node

/-- The nodes of a plan. -/
inductive Within (m : Node) : Node → Prop
  | self : Within m m
  | parent {n parent : Node} : parent ∈ n.parents → Within m parent → Within m n

/-- What holds of all nodes of a plan. -/
def Throughout (holds : Node → Prop) (n : Node) : Prop := ∀ m : Node, m.Within n → holds m

theorem throughout_iff {holds : Node → Prop} {n : Node} :
    n.Throughout holds ↔ holds n ∧ ∀ parent ∈ n.parents, parent.Throughout holds := by
  constructor
  · intro all
    exact ⟨all n .self, fun parent listed m within => all m (.parent listed within)⟩
  · rintro ⟨own, parents⟩ m within
    cases within with
    | self => exact own
    | parent listed within => exact parents _ listed m within

/-- What a node has if its parents do, every node has. -/
theorem induct {holds : Node → Prop}
    (step : ∀ n : Node, (∀ parent ∈ n.parents, holds parent) → holds n) : ∀ n, holds n
  | ⟨_, _, _, _, parents, _, _, _⟩ => step _ fun parent _ => induct step parent
decreasing_by
  rename_i listed
  have smaller : sizeOf parent < sizeOf parents := List.sizeOf_lt_of_mem listed
  rw [mk.sizeOf_spec]
  omega

/-- The source map of a node in which each concept is read from the sources that are given. -/
def sourceMap (n : Node) (sources : String → List String) : SourceMap :=
  .ofList ((n.inputs ++ n.outputs).map fun c => (c.address, sources c.address))

theorem misfit?_sourceMap (n : Node) {sources : String → List String}
    (single : ∀ address, (sources address).length ≤ 1) :
    Query.misfit? (n.sourceMap sources) (Concept.unique n.inputs) (Concept.unique n.outputs) =
      none := by
  refine Query.misfit?_ofList (fun c _ => single c.address) fun address => ?_
  simp [or_comm]

/-- The query of a node that reads a datasource, less the condition of the node. -/
def tableQuery (n : Node) (d : Datasource) : Query where
  inputs := Concept.unique n.inputs
  outputs := Concept.unique n.outputs
  sourceMap := n.sourceMap fun address => if d.provides address then [d.fullName] else []
  sources := [.datasource d]
  grain := n.grain.getD (selectGrain d n.outputs)
  joins := []
  sourceType := .directSelect
  partials := Concept.unique (n.outputs.filter (fun c => d.isPartialFor c.address) ++ n.partials)
  condition := none
  limit := none

theorem resolveDatasource_eq (n : Node) (d : Datasource) :
    n.resolveDatasource d = .ok (n.tableQuery d) := by
  have single : ∀ address, (if d.provides address then [d.fullName] else []).length ≤ 1 := by
    intro address
    split <;> simp
  exact bind_eq_ok.mpr ⟨_, Query.of_eq_ok.mpr ⟨n.misfit?_sourceMap single, rfl⟩, rfl⟩

def constantQuery (n : Node) : Query where
  inputs := Concept.unique n.inputs
  outputs := Concept.unique n.outputs
  sourceMap := n.sourceMap fun _ => []
  sources := []
  grain := n.grain.getD ∅
  joins := []
  sourceType := .select
  partials := []
  condition := none
  limit := none

theorem resolveConstants_eq (n : Node) : n.resolveConstants = .ok n.constantQuery := by
  have single : ∀ address : String, ([] : List String).length ≤ 1 := by simp
  exact Query.of_eq_ok.mpr ⟨n.misfit?_sourceMap single, rfl⟩

/-- The keys of the full joins among joins. -/
def fullKeys (joins : List ParentJoin) : List String :=
  (joins.filter (·.joinType == .full)).flatMap fun j => Concept.addresses j.concepts

/-- The query of a node over merged parents, less the condition of the node. -/
def joinedQuery (n : Node) (parents : List Query) (joins : List ParentJoin)
    (sourceJoins : List SourceJoin) : Query where
  inputs := Concept.unique n.inputs
  outputs := Concept.unique n.outputs
  sourceMap := n.sourceMap (provider ((parents.map (·.identifier)).zip parents))
  sources := parents.map .query
  grain :=
    match n.grain, n.kind with
    | some grain, _ => grain
    | none, .group => Grain.ofSelected n.outputs
    | none, _ => Grain.sum (parents.map (·.grain))
  joins := sourceJoins
  sourceType := n.sourceType
  partials := Concept.unique
    (n.outputs.filter (fun c => isPartialIn parents (fullKeys joins) c.address) ++ n.partials)
  condition := none
  limit := none

theorem length_provider_le (named : List (String × Query)) (address : String) :
    (provider named address).length ≤ 1 := by
  unfold provider
  dsimp only
  split <;> simp

/-- Parents are merged and joined; the query over them is always valid. -/
theorem resolveParents_eq (n : Node) (resolved : List Query) :
    n.resolveParents resolved =
      Query.dedupe resolved >>= fun (parents, positions) =>
        orderedJoins n.kind.joins parents positions (parents.map (·.identifier)) >>= fun joins =>
          joins.mapM (·.toSourceJoin (parents.map .query)) >>= fun sourceJoins =>
            .ok (n.joinedQuery parents joins sourceJoins) := by
  unfold resolveParents
  congr 1
  funext ⟨parents, positions⟩
  dsimp only
  congr 1
  funext joins
  congr 1
  funext sourceJoins
  refine bind_eq_ok.mpr ⟨_, Query.of_eq_ok.mpr ⟨?_, rfl⟩, rfl⟩
  exact n.misfit?_sourceMap (length_provider_le _)

/-- The query of a node, before its condition is added. -/
def bare (n : Node) : Except PlanError Query :=
  match n.kind with
  | .select (some d) => n.resolveDatasource d
  | .select none => n.resolveConstants
  | _ => resolveAll n.parents >>= n.resolveParents

theorem resolve_eq (n : Node) : n.resolve = n.bare >>= fun q =>
    .ok { q with condition := Condition.both q.condition n.condition } := by
  cases n with
  | mk kind inputs outputs partials parents depth condition grain =>
    cases kind with
    | select datasource =>
      cases datasource with
      | some d =>
        rw [resolve]
        rfl
      | none =>
        rw [resolve]
        rfl
    | _ =>
      rw [resolve]
      · change _ = (resolveAll parents >>= _) >>= _
        rw [bind_assoc]
        rfl
      all_goals nofun

/-- The ways in which a node resolves, before its condition is added. -/
theorem resolve_cases {n : Node} {q : Query} (resolved : n.resolve = .ok q) :
    ∃ made : Query, { made with condition := Condition.both made.condition n.condition } = q ∧
      ((∃ d, n.kind = .select (some d) ∧ n.resolveDatasource d = .ok made) ∨
        (n.kind = .select none ∧ n.resolveConstants = .ok made) ∨
        ((∀ source, n.kind ≠ .select source) ∧
          ∃ queries, resolveAll n.parents = .ok queries ∧
            n.resolveParents queries = .ok made)) := by
  rw [resolve_eq] at resolved
  obtain ⟨made, query, done⟩ := bind_eq_ok.mp resolved
  refine ⟨made, Except.ok.inj done, ?_⟩
  unfold bare at query
  split at query
  · next d kind => exact .inl ⟨d, kind, query⟩
  · next kind => exact .inr (.inl ⟨kind, query⟩)
  · next table constant =>
    obtain ⟨queries, parents, query⟩ := bind_eq_ok.mp query
    refine .inr (.inr ⟨?_, queries, parents, query⟩)
    rintro (_ | d) kind
    · exact constant kind
    · exact table d kind

/-- A node resolves to a query with the outputs of the node. -/
theorem outputs_resolve {n : Node} {q : Query} (resolved : n.resolve = .ok q) :
    q.outputs = Concept.unique n.outputs := by
  obtain ⟨made, rfl, way⟩ := resolve_cases resolved
  change made.outputs = _
  rcases way with ⟨d, _, query⟩ | ⟨_, query⟩ | ⟨_, queries, _, query⟩
  · rw [resolveDatasource_eq] at query
    cases query
    rfl
  · rw [resolveConstants_eq] at query
    cases query
    rfl
  · rw [resolveParents_eq] at query
    obtain ⟨⟨parents, positions⟩, _, query⟩ := bind_eq_ok.mp query
    obtain ⟨joins, _, query⟩ := bind_eq_ok.mp query
    obtain ⟨sourceJoins, _, query⟩ := bind_eq_ok.mp query
    cases query
    rfl

theorem resolveAll_eq (nodes : List Node) : resolveAll nodes = nodes.mapM resolve := by
  induction nodes with
  | nil => rw [resolveAll, List.mapM_nil]
  | cons n nodes ih => rw [resolveAll, List.mapM_cons, ih]

theorem exists_of_mem_resolveAll {nodes : List Node} {queries : List Query}
    (resolved : resolveAll nodes = .ok queries) {q : Query} (member : q ∈ queries) :
    ∃ n ∈ nodes, n.resolve = .ok q := by
  rw [resolveAll_eq] at resolved
  exact exists_of_mem_mapM resolved member

end Node

end SemanticQuery
