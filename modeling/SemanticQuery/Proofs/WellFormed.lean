import SemanticQuery.Proofs.JoinOrder
import SemanticQuery.Proofs.Merging

/-!
The form of resolved queries. The source map of a query has its inputs and outputs, each read from
one source that provides it, or from none if no source does. The joins of a query form a tree that
attaches its sources one by one. Resolution never fails for want of a source map that fits.
-/

namespace SemanticQuery

def SourceJoin.edges (joins : List SourceJoin) : List (String × String) :=
  joins.map fun j => (j.left, j.right)

/-- Joins that attach sources one by one, on keys that both sides provide. -/
structure SourceJoin.Attach (sources : List Source) (joins : List SourceJoin) : Prop where
  count : joins.length + 1 = sources.length
  keyed : ∀ j ∈ joins, ∃ left ∈ sources, ∃ right ∈ sources,
    left.name = j.left ∧ right.name = j.right ∧
      ∀ c ∈ j.concepts, left.provides c.address = true ∧ right.provides c.address = true
  attached : ∀ before j after, joins = before ++ j :: after → before ≠ [] →
    j.left ∈ endpoints (edges before) ∧ j.right ∉ endpoints (edges before)
  all : ∀ s ∈ sources, s.name ∈ endpoints (edges joins)

structure Query.WellFormed (q : Query) : Prop where
  keys : ∀ address,
    address ∈ q.sourceMap.keys ↔ address ∈ Concept.addresses (q.inputs ++ q.outputs)
  single : ∀ entry ∈ q.sourceMap.entries, entry.2.length ≤ 1
  read : ∀ entry ∈ q.sourceMap.entries,
    entry.2 ≠ [] ↔ ∃ s ∈ q.sources, s.provides entry.1 = true
  named : ∀ entry ∈ q.sourceMap.entries, ∀ name ∈ entry.2,
    ∃ s ∈ q.sources, s.name = name ∧ s.provides entry.1 = true
  joined : 2 ≤ q.sources.length → (q.sources.map Source.name).Nodup →
    SourceJoin.Attach q.sources q.joins

theorem Query.WellFormed.fits {q : Query} (wellFormed : q.WellFormed) : q.Fits := by
  refine misfit?_eq_none.mpr ⟨wellFormed.single, fun address => ?_⟩
  rw [wellFormed.keys, Concept.mem_addresses_append, Concept.mem_addresses_append, or_comm]

/-- Whether a source map was found not to fit. -/
def PlanError.IsMisfit : PlanError → Prop
  | ambiguousSourceMap .. | sourceMapMismatch .. => True
  | _ => False

theorem PlanError.IsClash.not_isMisfit {e : PlanError} (clash : e.IsClash) : ¬ e.IsMisfit := by
  cases clash <;> exact not_false

section Joins

/-- A join between two sources on keys that both provide. -/
structure SourceJoin.Between (left right : Source) (j : SourceJoin) : Prop where
  leftName : j.left = left.name
  rightName : j.right = right.name
  keys : ∀ c ∈ j.concepts, left.provides c.address = true ∧ right.provides c.address = true

theorem SourceJoin.not_isMisfit_of_missing? {left right : Source} {concepts : List Concept}
    {e : PlanError} (missing : missing? left right concepts = some e) : ¬ e.IsMisfit := by
  obtain ⟨c, _, lacks⟩ := List.exists_of_findSome?_eq_some missing
  split at lacks
  · cases lacks
    exact not_false
  · split at lacks
    · cases lacks
      exact not_false
    · cases lacks

theorem SourceJoin.settles_of (left right : Source) (concepts : List Concept) (joinType : JoinType)
    (mutualOnly : Bool) :
    Settles (SourceJoin.of left right concepts joinType mutualOnly) (Between left right)
      (¬ ·.IsMisfit) := by
  unfold SourceJoin.of
  split
  · exact not_false
  · dsimp only
    split
    · next e missing =>
      split at missing
      · cases missing
      · exact not_isMisfit_of_missing? missing
    · split
      · exact not_false
      · refine ⟨rfl, rfl, fun c shared => ?_⟩
        simpa using (List.mem_filter.mp shared).2

/-- Sources of different names are joined on keys that both provide. -/
theorem SourceJoin.exists_of {left right : Source} {concepts : List Concept}
    (apart : left.name ≠ right.name)
    (shared : ∀ c ∈ concepts, left.provides c.address = true ∧ right.provides c.address = true)
    (joinType : JoinType) (mutualOnly : Bool) :
    ∃ j, SourceJoin.of left right concepts joinType mutualOnly = .ok j := by
  have complete : missing? left right concepts = none := by
    refine List.findSome?_eq_none_iff.mpr fun c listed => ?_
    simp [shared c listed]
  have kept : concepts.filter (fun c => left.provides c.address && right.provides c.address) =
      concepts := by
    refine List.filter_eq_self.mpr fun c listed => ?_
    simp [shared c listed]
  refine ⟨⟨left.name, right.name, concepts, joinType⟩, ?_⟩
  simp [SourceJoin.of, apart, complete, kept]

theorem ParentJoin.settles_source (sources : List Source) (index : Nat) :
    Settles (source sources index) (sources[index]? = some ·) (¬ ·.IsMisfit) := by
  unfold source
  split
  · next s found => exact found
  · exact not_false

theorem ParentJoin.settles_toSourceJoin (sources : List Source) (j : ParentJoin) :
    Settles (j.toSourceJoin sources)
      (fun made => ∃ left right, sources[j.left]? = some left ∧ sources[j.right]? = some right ∧
        made.Between left right)
      (¬ ·.IsMisfit) := by
  refine (settles_source sources j.left).bind fun left first => ?_
  refine (settles_source sources j.right).bind fun right second => ?_
  refine (SourceJoin.settles_of left right _ _ _).weaken (fun made between => ?_) fun _ fails => fails
  exact ⟨left, right, first, second, between⟩

/-- The name of the source at a position. -/
def Source.nameAt (sources : List Source) (index : Nat) : String :=
  (sources[index]?.map Source.name).getD ""

theorem Source.nameAt_inj {sources : List Source} (distinct : (sources.map Source.name).Nodup)
    {i k : Nat} (low : i < sources.length) (other : k < sources.length)
    (same : nameAt sources i = nameAt sources k) : i = k := by
  have first : (sources.map Source.name)[i]? = some (nameAt sources i) := by
    simp [nameAt, low]
  have second : (sources.map Source.name)[k]? = some (nameAt sources k) := by
    simp [nameAt, other]
  refine (List.getElem?_inj (by simpa using low) distinct).mp ?_
  rw [first, second, same]

/-- Joins in order between sources of different names attach all of these. -/
theorem ParentJoin.attach_of_growing {sources : List Source} {ordered : List ParentJoin}
    {joins : List SourceJoin} (distinct : (sources.map Source.name).Nodup)
    (growing : Growing (edges ordered))
    (ends : ∀ i, i ∈ endpoints (edges ordered) ↔ i < sources.length)
    (count : ordered.length + 1 = sources.length)
    (made : ordered.mapM (·.toSourceJoin sources) = .ok joins) :
    SourceJoin.Attach sources joins := by
  have renamed : SourceJoin.edges joins =
      (edges ordered).map (Prod.map (Source.nameAt sources) (Source.nameAt sources)) := by
    rw [edges, List.map_map]
    refine map_eq_of_mapM (fun j join done => ?_) made
    obtain ⟨left, right, first, second, between⟩ := (settles_toSourceJoin sources j).ok done
    simp [Source.nameAt, first, second, between.leftName, between.rightName]
  have grown : Growing (SourceJoin.edges joins) := by
    rw [renamed]
    refine growing.map fun i low k other same => ?_
    exact Source.nameAt_inj distinct ((ends i).mp low) ((ends k).mp other) same
  refine ⟨?_, fun j listed => ?_, fun before j after split later => ?_, fun s listed => ?_⟩
  · have lengths := congrArg List.length renamed
    simp only [SourceJoin.edges, edges, List.length_map] at lengths
    omega
  · obtain ⟨own, _, done⟩ := exists_of_mem_mapM made listed
    obtain ⟨left, right, first, second, between⟩ := (settles_toSourceJoin sources own).ok done
    exact ⟨left, List.mem_of_getElem? first, right, List.mem_of_getElem? second,
      between.leftName.symm, between.rightName.symm, between.keys⟩
  · have edgesSplit : SourceJoin.edges joins =
        SourceJoin.edges before ++ (j.left, j.right) :: SourceJoin.edges after := by
      rw [split, SourceJoin.edges, List.map_append, List.map_cons]
      rfl
    exact grown.attaches edgesSplit (by simpa [SourceJoin.edges] using later)
  · obtain ⟨i, low, rfl⟩ := List.mem_iff_getElem.mp listed
    rw [renamed, mem_endpoints_map]
    exact ⟨i, (ends i).mpr low, by simp [Source.nameAt, low]⟩

end Joins

namespace Node

/-- The joins among which the parents of a node are joined. -/
def candidates (given : List ParentJoin) (parents : List Query) (positions : List Nat) :
    List ParentJoin :=
  if given.isEmpty then ParentJoin.derive parents else movedJoins given positions

theorem of_mem_candidates {given : List ParentJoin} {parents : List Query} {positions : List Nat}
    (low : ∀ i ∈ positions, i < parents.length) {j : ParentJoin}
    (member : j ∈ candidates given parents positions) :
    j.left ≠ j.right ∧ j.left < parents.length ∧ j.right < parents.length := by
  unfold candidates at member
  split at member
  · obtain ⟨apart, left, right, first, second, _⟩ := ParentJoin.of_mem_derive member
    exact ⟨apart, (List.getElem?_eq_some_iff.mp first).1, (List.getElem?_eq_some_iff.mp second).1⟩
  · obtain ⟨own, _, moved⟩ := List.mem_filterMap.mp member
    split at moved
    · next left right first second =>
      split at moved
      · cases moved
      · next apart =>
        cases moved
        refine ⟨by simpa using apart, ?_, ?_⟩
        · exact low left (List.mem_of_getElem? first)
        · exact low right (List.mem_of_getElem? second)
    · cases moved

/-- Parents are joined by candidates, and several parents by a tree or not at all. -/
theorem settles_orderedJoins {given : List ParentJoin} {parents : List Query}
    {positions : List Nat} (low : ∀ i ∈ positions, i < parents.length) (names : List String) :
    Settles (orderedJoins given parents positions names)
      (fun ordered =>
        (∀ j ∈ ordered, j ∈ candidates given parents positions ∨
          ∃ k ∈ candidates given parents positions, j = k.flip) ∧
        (2 ≤ parents.length → Growing (ParentJoin.edges ordered) ∧
          (∀ i, i ∈ endpoints (ParentJoin.edges ordered) ↔ i < parents.length) ∧
            ordered.length + 1 = parents.length))
      (¬ ·.IsMisfit) := by
  have apart : ∀ j ∈ candidates given parents positions, j.left ≠ j.right :=
    fun j member => (of_mem_candidates low member).1
  have below : ∀ i ∈ endpoints (ParentJoin.edges (candidates given parents positions)),
      i < parents.length := by
    intro i member
    obtain ⟨j, listed, rfl | rfl⟩ := ParentJoin.mem_endpoints_edges.mp member
    · exact (of_mem_candidates low listed).2.1
    · exact (of_mem_candidates low listed).2.2
  have sorts : Settles (ParentJoin.order (candidates given parents positions) names)
      (ParentJoin.Ordered (candidates given parents positions)) (¬ ·.IsMisfit) := by
    have sorts := ParentJoin.sorts_order names apart
    cases done : ParentJoin.order (candidates given parents positions) names with
    | ok ordered =>
      rw [done] at sorts
      exact sorts
    | error e =>
      rw [done] at sorts
      obtain ⟨⟨available, remaining, rfl⟩, _⟩ := sorts
      exact not_false
  unfold orderedJoins
  split
  · next few => exact ⟨by simp, fun several => absurd few (Nat.not_lt.mpr several)⟩
  · refine sorts.bind fun ordered sorted => ?_
    split
    · next connected =>
      refine ⟨sorted.origin, fun several => ?_⟩
      obtain ⟨ends, count⟩ := sorted.spans several below connected
      exact ⟨sorted.growing, ends, count⟩
    · exact not_false

theorem eq_of_mem_sourceMap {n : Node} {sources : String → List String}
    {entry : String × List String} (member : entry ∈ (n.sourceMap sources).entries) :
    entry.2 = sources entry.1 := by
  obtain ⟨c, _, rfl⟩ := List.mem_map.mp (NameMap.mem_of_mem_ofList member)
  rfl

/-- An address is read from the first parent that provides it complete, or that provides it. -/
theorem provider_cases (parents : List Query) (address : String) :
    (∃ q ∈ parents, q.provides address = true ∧
      provider ((parents.map (·.identifier)).zip parents) address = [q.identifier]) ∨
    (∀ q ∈ parents, q.provides address = false) ∧
      provider ((parents.map (·.identifier)).zip parents) address = [] := by
  have named : (parents.map (·.identifier)).zip parents =
      parents.map fun q => (q.identifier, q) := by
    rw [List.map_prod_right_eq_zip]
  rw [named]
  unfold provider
  dsimp only
  split
  · next name q found =>
    left
    have listed : (name, q) ∈
        (parents.map fun q => (q.identifier, q)).filter (·.2.provides address) := by
      rcases (Option.orElse_eq_some _ _ _).mp found with complete | ⟨_, first⟩
      · exact List.mem_of_find?_eq_some complete
      · exact List.mem_of_head? first
    obtain ⟨placed, provides⟩ := List.mem_filter.mp listed
    obtain ⟨other, member, same⟩ := List.mem_map.mp placed
    cases same
    exact ⟨q, member, provides, rfl⟩
  · next found =>
    right
    refine ⟨fun q member => ?_, rfl⟩
    have none := ((Option.orElse_eq_none _ _).mp found).2
    have empty := List.filter_eq_nil_iff.mp (List.head?_eq_none_iff.mp none)
    simpa using empty (q.identifier, q) (List.mem_map.mpr ⟨q, member, rfl⟩)

/-- A query with the concepts of a node, over sources that have a property throughout. -/
structure Yields (n : Node) (holds : Query → Prop) (q : Query) : Prop where
  wellFormed : q.WellFormed
  inputs : q.inputs = Concept.unique n.inputs
  outputs : q.outputs = Concept.unique n.outputs
  condition : q.condition = none
  below : ∀ s ∈ q.sources, s.Throughout holds

variable {holds : Query → Prop}

theorem wellFormed_of_sourceMap {n : Node} {q : Query} (sources : String → List String)
    (inputs : q.inputs = Concept.unique n.inputs) (outputs : q.outputs = Concept.unique n.outputs)
    (sourceMap : q.sourceMap = n.sourceMap sources)
    (single : ∀ address, (sources address).length ≤ 1)
    (read : ∀ address, sources address ≠ [] ↔ ∃ s ∈ q.sources, s.provides address = true)
    (named : ∀ address, ∀ name ∈ sources address,
      ∃ s ∈ q.sources, s.name = name ∧ s.provides address = true)
    (joined : 2 ≤ q.sources.length → (q.sources.map Source.name).Nodup →
      SourceJoin.Attach q.sources q.joins) : q.WellFormed := by
  have fits := n.misfit?_sourceMap single
  obtain ⟨singles, keys⟩ := Query.misfit?_eq_none.mp fits
  refine ⟨fun address => ?_, ?_, fun entry member => ?_, fun entry member name => ?_, joined⟩
  · rw [sourceMap, keys, inputs, outputs, Concept.mem_addresses_append,
      Concept.mem_addresses_append, or_comm]
  · rw [sourceMap]
    exact singles
  · rw [sourceMap] at member
    rw [eq_of_mem_sourceMap member]
    exact read entry.1
  · rw [sourceMap] at member
    rw [eq_of_mem_sourceMap member]
    exact named entry.1 name

theorem yields_tableQuery (n : Node) (d : Datasource) : n.Yields holds (n.tableQuery d) where
  wellFormed := by
    have shared (address : String) : (if d.provides address then [d.fullName] else []) ≠ [] ↔
        d.provides address = true := by
      split <;> simp_all
    refine wellFormed_of_sourceMap (fun address => if d.provides address then [d.fullName] else [])
      rfl rfl rfl (fun address => ?_) (fun address => ?_) (fun address name listed => ?_)
      fun several => ?_
    · split <;> simp
    · rw [shared]
      simp [tableQuery, Source.provides]
    · split at listed
      · next provides =>
        refine ⟨.datasource d, List.mem_singleton.mpr rfl, ?_, provides⟩
        rw [List.mem_singleton.mp listed, Source.name]
      · cases listed
    · simp [tableQuery] at several
  inputs := rfl
  outputs := rfl
  condition := rfl
  below s listed := by
    rw [List.mem_singleton.mp listed]
    intro u member
    rw [Source.nested] at member
    cases member

theorem yields_constantQuery (n : Node) : n.Yields holds n.constantQuery where
  wellFormed := by
    refine wellFormed_of_sourceMap (fun _ => []) rfl rfl rfl (fun _ => by simp) (fun _ => ?_)
      (by simp) fun several => ?_
    · simp [constantQuery]
    · simp [constantQuery] at several
  inputs := rfl
  outputs := rfl
  condition := rfl
  below := by simp [constantQuery]

theorem yields_joinedQuery {n : Node} {parents : List Query} {ordered : List ParentJoin}
    {joins : List SourceJoin} (all : ∀ q ∈ parents, q.Throughout holds)
    (tree : 2 ≤ parents.length → Growing (ParentJoin.edges ordered) ∧
      (∀ i, i ∈ endpoints (ParentJoin.edges ordered) ↔ i < parents.length) ∧
        ordered.length + 1 = parents.length)
    (made : ordered.mapM (·.toSourceJoin (parents.map .query)) = .ok joins) :
    n.Yields holds (n.joinedQuery parents ordered joins) where
  wellFormed := by
    refine wellFormed_of_sourceMap (provider ((parents.map (·.identifier)).zip parents)) rfl rfl rfl
      (length_provider_le _) (fun address => ?_) (fun address name listed => ?_) fun several distinct => ?_
    · rcases provider_cases parents address with ⟨q, member, provides, read⟩ | ⟨none, read⟩
      · rw [read]
        refine iff_of_true (by simp) ⟨.query q, ?_, provides⟩
        exact List.mem_map_of_mem member
      · rw [read]
        refine iff_of_false (by simp) ?_
        rintro ⟨s, listed, provides⟩
        obtain ⟨q, member, rfl⟩ := List.mem_map.mp listed
        exact absurd provides (Bool.eq_false_iff.mp (none q member))
    · rcases provider_cases parents address with ⟨q, member, provides, read⟩ | ⟨_, read⟩
      · rw [read, List.mem_singleton] at listed
        refine ⟨.query q, List.mem_map_of_mem member, ?_, provides⟩
        rw [listed, Source.name]
      · rw [read] at listed
        cases listed
    · have count : (n.joinedQuery parents ordered joins).sources.length = parents.length := by
        simp [joinedQuery]
      obtain ⟨growing, ends, fewer⟩ := tree (by omega)
      rw [← count] at ends fewer
      exact ParentJoin.attach_of_growing distinct growing ends fewer made
  inputs := rfl
  outputs := rfl
  condition := rfl
  below s listed := by
    obtain ⟨q, member, rfl⟩ := List.mem_map.mp listed
    exact Source.throughout_query.mpr (all q member)

section Keeping

variable (fits : ∀ q, holds q → q.Fits)
  (merges : ∀ a b sources, holds a → holds b → holds (a.merged b sources))

include fits merges

theorem settles_resolveParents (n : Node) {queries : List Query}
    (all : ∀ q ∈ queries, q.Throughout holds) :
    Settles (n.resolveParents queries) (n.Yields holds) (¬ ·.IsMisfit) := by
  rw [resolveParents_eq]
  have deduped := (Query.settles_dedupe fits merges all).weaken (fun _ out => out)
    fun _ clash => clash.not_isMisfit
  refine deduped.bind fun (parents, positions) ⟨kept, low⟩ => ?_
  refine (settles_orderedJoins low _).bind fun ordered tree => ?_
  cases made : ordered.mapM (·.toSourceJoin (parents.map .query)) with
  | ok joins => exact yields_joinedQuery kept tree.2 made
  | error e =>
    have steps := Settles.mapM fun j (_ : j ∈ ordered) =>
      (ParentJoin.settles_toSourceJoin (parents.map .query) j).weaken
        (fun _ _ => trivial) fun _ fails => fails
    exact steps.error made

/-- What the queries of all nodes of a plan have, and mergers keep, holds throughout the query of
the plan. -/
theorem settles_resolve (n : Node)
    (own : ∀ m : Node, m.Within n → ∀ q : Query, q.WellFormed →
      q.inputs = Concept.unique m.inputs → q.outputs = Concept.unique m.outputs →
        q.condition = m.condition → holds q) :
    Settles n.resolve (fun q => q.WellFormed ∧ q.Throughout holds) (¬ ·.IsMisfit) := by
  induction n using induct with
  | step n ih =>
    have parents : Settles (resolveAll n.parents) (fun qs => ∀ q ∈ qs, q.Throughout holds)
        (¬ ·.IsMisfit) := by
      rw [resolveAll_eq]
      refine .mapM fun parent listed => ?_
      refine (ih parent listed fun m within => own m (.parent listed within)).weaken
        (fun q made => made.2) fun _ fails => fails
    have bare : Settles n.bare (n.Yields holds) (¬ ·.IsMisfit) := by
      unfold Node.bare
      split
      · next d _ =>
        rw [resolveDatasource_eq]
        exact n.yields_tableQuery d
      · rw [resolveConstants_eq]
        exact n.yields_constantQuery
      · exact parents.bind fun queries all => settles_resolveParents fits merges n all
    rw [resolve_eq]
    refine bare.bind fun q yields => ?_
    have wellFormed :
        { q with condition := Condition.both q.condition n.condition : Query }.WellFormed :=
      ⟨yields.wellFormed.keys, yields.wellFormed.single, yields.wellFormed.read,
        yields.wellFormed.named, yields.wellFormed.joined⟩
    refine ⟨wellFormed, Query.throughout_iff.mpr ⟨?_, yields.below⟩⟩
    refine own n .self _ wellFormed yields.inputs yields.outputs ?_
    rw [yields.condition]
    cases n.condition <;> rfl

end Keeping

theorem settles_resolve_fits (n : Node) :
    Settles n.resolve (fun q => q.WellFormed ∧ q.Throughout Query.Fits) (¬ ·.IsMisfit) :=
  settles_resolve (fun _ fits => fits) (fun _ _ sources left right => left.merged right sources) n
    fun _ _ _ wellFormed _ _ _ => wellFormed.fits

/-- Resolution never fails over a source map, and every query that it yields is well formed. -/
theorem resolve_wellFormed (n : Node) :
    (∀ address count, n.resolve ≠ .error (.ambiguousSourceMap address count)) ∧
      (∀ seen expected, n.resolve ≠ .error (.sourceMapMismatch seen expected)) ∧
      ∀ q, n.resolve = .ok q → q.WellFormed := by
  have settles := n.settles_resolve_fits
  refine ⟨fun address count failed => ?_, fun seen expected failed => ?_, fun q resolved => ?_⟩
  · exact settles.error failed trivial
  · exact settles.error failed trivial
  · exact (settles.ok resolved).1

end Node

end SemanticQuery
