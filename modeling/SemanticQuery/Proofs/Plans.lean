import SemanticQuery.Proofs.Known
import SemanticQuery.Proofs.Outcome
import SemanticQuery.Proofs.Program

/-!
How the nodes of a plan are made. `Planner.Makes` has one rule for each way in which the search and
the node generators build a node from the nodes of nested searches; what holds of all plans is
proved by induction on it. The search follows the rules, and every nested request is for concepts
that the outermost one could meet.
-/

namespace SemanticQuery

/-- What a node is made for. -/
inductive Goal where
  /-- All concepts of a request. -/
  | request (cs : List Concept)
  /-- Some concept of a request that is worked off. -/
  | part (cs : List Concept)
  /-- One concept, with as many of the optional ones as can be had. -/
  | concept (c : Concept) (optional : List Concept)
  /-- One of several aligned selects. -/
  | branch (multi : MultiSelect)

/-- Whether a search can meet everything that a goal mentions. -/
def Goal.Known (p : Planner) (roots : List Concept) : Goal → Prop
  | .request cs | .part cs => ∀ c ∈ cs, p.Known roots c
  | .concept c optional => p.Known roots c ∧ ∀ o ∈ optional, p.Known roots o
  | .branch multi => ∀ s ∈ multi.selects, ∀ c ∈ s.outputs, p.Known roots c

namespace Planner

/-- What a filter passes on besides the content: the components of its grain. -/
def filterKeys (content : Concept) : List Concept :=
  content.grain.components.filter (·.address != content.address)

/-- What a filter reads. -/
def filterInputs (content : Concept) (condition : Condition) : List Concept :=
  content :: Concept.unique condition.reads ++ filterKeys content

/-- What an aggregate reads. -/
def groupInputs (c : Concept) (optional : List Concept) : List Concept :=
  c.reads ++ (groupGrain c optional).components

/-- An aggregate over a parent from which `inputs` are read. -/
def groupOver (c : Concept) (optional inputs : List Concept) (parent : Node) (depth : Nat) : Node :=
  let grain := groupGrain c optional
  let output := if c.grain.isAbstract && !grain.isAbstract then c.withGrain grain else c
  (Node.of .group inputs (output :: grain.components) [parent] depth).withGrain grain

/-- The ways in which a planner makes nodes, if it starts with a history and is asked for concepts
that `roots` lead to. -/
inductive Makes (p : Planner) (start : History) (roots : List Concept) : Goal → Node → Prop
  | leaf {c optional depth acceptPartial node} :
      p.selectNode c optional depth acceptPartial = .ok (some node) →
      Makes p start roots (.concept c optional) node
  | constant {c optional depth acceptPartial node} :
      p.strategy c = .constant → p.selectFromTable [c] depth acceptPartial = .ok (some node) →
      Makes p start roots (.concept c optional) node
  | basic {c optional depth parent} :
      p.strategy c = .basic → Makes p start roots (.request (c.reads ++ optional)) parent →
      Makes p start roots (.concept c optional)
        (.of (.merge []) parent.outputs (c :: parent.outputs) [parent] depth)
  | filter {c optional depth content condition grain parent} :
      c.lineage = some (.filter content condition) →
      Makes p start roots (.request (filterInputs content condition)) parent →
      Makes p start roots (.concept c optional)
        (((Node.of .filter (filterInputs content condition) (c :: filterKeys content) [parent]
          depth).withCondition (some condition)).withGrain grain)
  | window {c optional depth window grain parent} :
      c.lineage = some (.window window) → Makes p start roots (.request window.reads) parent →
      Makes p start roots (.concept c optional)
        ((Node.of .window window.reads (c :: window.reads) [parent] depth).withGrain grain)
  | group {c optional depth parent} :
      p.strategy c = .aggregate → Makes p start roots (.request (groupInputs c optional)) parent →
      Makes p start roots (.concept c optional)
        (groupOver c optional (groupInputs c optional) parent depth)
  | filteredGroup {c optional depth condition parent} :
      p.strategy c = .aggregate → p.pushedCondition? c = some condition →
      Makes p start roots (.request (groupInputs c optional ++ condition.reads)) parent →
      Makes p start roots (.concept c optional)
        (groupOver c optional (groupInputs c optional ++ condition.reads)
          (parent.withCondition (Condition.both parent.condition (some condition))) depth)
  | aligned {c optional depth multi planned node} :
      c.lineage = some (.multiSelect multi) →
      (∀ plan ∈ planned, Makes p start roots (.branch multi) plan.node) →
      multi.node planned (Concept.addresses (optional ++ [c])) depth = .ok node →
      Makes p start roots (.concept c optional) node
  | branch {multi select node} :
      select ∈ multi.selects → Makes p start roots (.request select.outputs) node →
      Makes p start roots (.branch multi) (multi.branch select node).node
  | enriched {c optional depth node extra keys missing} :
      (Goal.request (keys ++ missing)).Known p roots →
      Makes p start roots (.concept c optional) node →
      Makes p start roots (.request (keys ++ missing)) extra →
      Makes p start roots (.concept c optional) (enrichedWith node extra keys missing depth)
  | part {request c optional node} :
      c ∈ request → (∀ o ∈ optional, o ∈ request) → Makes p start roots (.concept c optional) node →
      Makes p start roots (.part request) node
  | stacked {request depth acceptPartial stack} :
      (∀ node ∈ stack, Makes p start roots (.part request) node) →
      covered stack request acceptPartial = .ok true →
      Makes p start roots (.request request) (joinStack stack request depth)
  | extended {request added node} :
      (∀ c ∈ added, p.Known roots c) → Makes p start roots (.request (request ++ added)) node →
      Makes p start roots (.request request) (node.withOutputs request)
  | recalled {request other acceptPartial otherPartial node} :
      (Goal.request other).Known p roots →
      History.key other otherPartial = History.key (Concept.unique request) acceptPartial →
      Makes p start roots (.request other) node → Makes p start roots (.request request) node
  | remembered {request acceptPartial node} :
      start.get? (History.key (Concept.unique request) acceptPartial) = some (some node) →
      Makes p start roots (.request request) node

/-- A program that asks only for known concepts, and whose result is as stated if all answers are
made by the rules. -/
abbrev Follows (p : Planner) (start : History) (roots : List Concept) (post : α → Prop)
    (program : Searcher → Search α) : Prop :=
  Asks (fun request => (Goal.request request).Known p roots)
    (fun request node => p.Makes start roots (.request request) node) post program

/-- A program that makes a node for a goal by the rules. -/
abbrev Plans (p : Planner) (start : History) (roots : List Concept) (goal : Goal)
    (program : Searcher → Search (Option Node)) : Prop :=
  p.Follows start roots
    (fun result => ∀ node, result = some node → p.Makes start roots goal node) program

section

variable {p : Planner} {start : History} {roots : List Concept} {c : Concept}
  {optional : List Concept}

theorem known_reads (known : (Goal.concept c optional).Known p roots) :
    (Goal.request (c.reads ++ optional)).Known p roots := by
  have reads : ∀ x ∈ c.reads, p.Known roots x := fun x => (p.closed_known roots).reads known.1
  exact List.forall_mem_append.mpr ⟨reads, known.2⟩

theorem known_filterKeys {content : Concept} (known : p.Known roots content) :
    ∀ x ∈ filterKeys content, p.Known roots x := fun _ member =>
  (p.closed_known roots).component known (List.mem_filter.mp member).1

theorem known_filterInputs {content : Concept} {condition : Condition} (known : p.Known roots c)
    (derived : c.lineage = some (.filter content condition)) :
    (Goal.request (filterInputs content condition)).Known p roots := by
  have read {x : Concept} (member : x ∈ content :: Concept.unique condition.reads) :
      p.Known roots x := by
    refine (p.closed_known roots).reads known ?_
    simp only [Concept.reads, derived, Lineage.reads]
    exact member
  intro x member
  rcases List.mem_append.mp member with member | member
  · exact read member
  · exact known_filterKeys (read List.mem_cons_self) x member

theorem known_window {window : Window} (known : p.Known roots c)
    (derived : c.lineage = some (.window window)) :
    (Goal.request window.reads).Known p roots := by
  intro x member
  refine (p.closed_known roots).reads known ?_
  simp only [Concept.reads, derived, Lineage.reads]
  exact member

/-- A canonical grain of known concepts has known components. -/
theorem known_of_mem_grain {cs : List Concept} (known : ∀ x ∈ cs, p.Known roots x) :
    ∀ x ∈ (Grain.of cs).components, p.Known roots x := by
  intro x member
  obtain ⟨y, listed, rfl⟩ := Grain.exists_of_mem_of member
  exact (p.closed_known roots).atDefault (known y listed)

theorem known_groupGrain (known : (Goal.concept c optional).Known p roots) :
    ∀ x ∈ (groupGrain c optional).components, p.Known roots x := by
  intro x member
  unfold groupGrain at member
  split at member
  · exact known_of_mem_grain (fun y kept => known.2 y (List.mem_filter.mp kept).1) x member
  · exact (p.closed_known roots).component known.1 member

theorem known_groupInputs (known : (Goal.concept c optional).Known p roots) :
    (Goal.request (groupInputs c optional)).Known p roots := by
  intro x member
  rcases List.mem_append.mp member with read | component
  · exact (p.closed_known roots).reads known.1 read
  · exact known_groupGrain known x component

theorem known_pushed {condition : Condition} (known : (Goal.concept c optional).Known p roots)
    (pushed : p.pushedCondition? c = some condition) :
    (Goal.request (groupInputs c optional ++ condition.reads)).Known p roots := by
  intro x member
  rcases List.mem_append.mp member with member | member
  · exact known_groupInputs known x member
  · unfold pushedCondition? at pushed
    split at pushed
    · next filtering =>
      split at pushed
      · cases pushed
        exact known_of_mem_filter filtering member
      · cases pushed
    · cases pushed

theorem known_branches {multi : MultiSelect} (known : p.Known roots c)
    (derived : c.lineage = some (.multiSelect multi)) : (Goal.branch multi).Known p roots :=
  fun _ branch _ member => (p.closed_known roots).output known derived branch member

theorem plans_none {goal : Goal} : p.Plans start roots goal fun _ => pure none :=
  .done none (by simp)

theorem asks_enrich {node : Node} {keys extras : List Concept} {depth : Nat} {acceptPartial : Bool}
    (keysKnown : ∀ x ∈ keys, p.Known roots x) (extrasKnown : ∀ x ∈ extras, p.Known roots x)
    (made : p.Makes start roots (.concept c optional) node) :
    p.Follows start roots
      (fun result => p.Makes start roots (.concept c optional) result)
      fun search => enrich search node keys extras depth acceptPartial := by
  have missingKnown : (Goal.request (keys ++ extras.filter fun c => !node.provides c.address)).Known
      p roots := by
    intro x member
    rcases List.mem_append.mp member with key | missing
    · exact keysKnown x key
    · exact extrasKnown x (List.mem_filter.mp missing).1
  unfold enrich
  dsimp only
  split
  · exact .done node made
  · refine .ask _ _ _ _ missingKnown fun answer found => ?_
    cases answer with
    | none => exact .done node made
    | some extra => exact .done _ (.enriched missingKnown made (found extra rfl))

/-- A node for a concept, with what it lacks of the optional concepts joined on. -/
theorem plans_enriched {node : Node} {keys extras : List Concept} {depth : Nat}
    {acceptPartial : Bool} (keysKnown : ∀ x ∈ keys, p.Known roots x)
    (extrasKnown : ∀ x ∈ extras, p.Known roots x)
    (made : p.Makes start roots (.concept c optional) node) :
    p.Plans start roots (.concept c optional) fun search => do
      return some (← enrich search node keys extras depth acceptPartial) := by
  refine (asks_enrich keysKnown extrasKnown made).bind fun enriched good => .done _ ?_
  intro node result
  cases result
  exact good

theorem plans_basicNode {depth : Nat} {acceptPartial : Bool}
    (known : (Goal.concept c optional).Known p roots) (strategy : p.strategy c = .basic) :
    p.Plans start roots (.concept c optional) fun search =>
      basicNode search c optional depth acceptPartial := by
  unfold basicNode
  refine .ask _ _ _ _ (known_reads known) fun answer found => ?_
  cases answer with
  | none => exact plans_none
  | some parent =>
    refine .done _ ?_
    intro node result
    cases result
    exact .basic strategy (found parent rfl)

theorem plans_filterNode {content : Concept} {condition : Condition} {depth : Nat}
    {acceptPartial : Bool} (known : (Goal.concept c optional).Known p roots)
    (derived : c.lineage = some (.filter content condition)) :
    p.Plans start roots (.concept c optional) fun search =>
      filterNode search c content condition optional depth acceptPartial := by
  have inputs := known_filterInputs known.1 derived
  unfold filterNode
  refine .ask (filterInputs content condition) _ _ _ inputs fun answer found => ?_
  cases answer with
  | none => exact plans_none
  | some parent =>
    exact plans_enriched (known_filterKeys (inputs content List.mem_cons_self)) known.2
      (.filter derived (found parent rfl))

theorem plans_windowNode {window : Window} {depth : Nat} {acceptPartial : Bool}
    (known : (Goal.concept c optional).Known p roots)
    (derived : c.lineage = some (.window window)) :
    p.Plans start roots (.concept c optional) fun search =>
      windowNode search c window optional depth acceptPartial := by
  have inputs := known_window known.1 derived
  unfold windowNode
  refine .ask _ _ _ _ inputs fun answer found => ?_
  cases answer with
  | none => exact plans_none
  | some parent =>
    refine plans_enriched (known_of_mem_grain ?_) known.2 (.window derived (found parent rfl))
    intro x member
    refine inputs x ?_
    rcases List.mem_append.mp member with partition | content
    · exact List.mem_cons_of_mem _ (List.mem_append_left _ partition)
    · exact List.mem_singleton.mp content ▸ List.mem_cons_self

/-- The parent of an aggregate has what the aggregate reads, and with a condition to be pushed also
what that reads. -/
theorem asks_groupParent {depth : Nat} {acceptPartial : Bool}
    (known : (Goal.concept c optional).Known p roots) (strategy : p.strategy c = .aggregate) :
    p.Follows start roots
      (fun result => ∀ parent inputs, result = some (parent, inputs) → ∀ depth,
        p.Makes start roots (.concept c optional) (groupOver c optional inputs parent depth))
      fun search => p.groupParent search c (groupInputs c optional) depth acceptPartial := by
  have plain : p.Follows start roots
      (fun result => ∀ parent inputs, result = some (parent, inputs) → ∀ depth,
        p.Makes start roots (.concept c optional) (groupOver c optional inputs parent depth))
      fun search => do
        return (← search (groupInputs c optional) (depth + 1) acceptPartial).map
          (·, groupInputs c optional) := by
    refine .ask _ _ _ _ (known_groupInputs known) fun answer found => .done _ ?_
    intro parent inputs result depth
    cases answer with
    | none => cases result
    | some node =>
      cases result
      exact .group strategy (found _ rfl)
  unfold groupParent
  dsimp only
  split
  · exact plain
  · next condition pushed =>
    refine .ask _ _ _ _ (known_pushed known pushed) fun answer found => ?_
    cases answer with
    | none => exact plain
    | some node =>
      refine .done _ ?_
      intro parent inputs result depth
      cases result
      exact .filteredGroup strategy pushed (found node rfl)

theorem plans_groupNode {depth : Nat} {acceptPartial : Bool}
    (known : (Goal.concept c optional).Known p roots) (strategy : p.strategy c = .aggregate) :
    p.Plans start roots (.concept c optional) fun search =>
      p.groupNode search c optional depth acceptPartial := by
  unfold groupNode
  refine (asks_groupParent known strategy).bind fun result made => ?_
  cases result with
  | none => exact plans_none
  | some found =>
    obtain ⟨parent, inputs⟩ := found
    exact plans_enriched (known_groupGrain known)
      (fun x kept => known.2 x (List.mem_filter.mp kept).1) (made parent inputs rfl depth)

theorem asks_planBranches {multi : MultiSelect} {depth : Nat} {acceptPartial : Bool}
    (known : (Goal.branch multi).Known p roots) (selects : List Select)
    (among : ∀ s ∈ selects, s ∈ multi.selects) :
    p.Follows start roots
      (fun result => ∀ planned, result = some planned → ∀ plan ∈ planned,
        p.Makes start roots (.branch multi) plan.node)
      fun search => planBranches search multi depth acceptPartial selects := by
  induction selects with
  | nil =>
    refine .done _ ?_
    intro planned result
    cases result
    simp
  | cons select selects ih =>
    have chosen := among select List.mem_cons_self
    unfold planBranches
    refine .ask _ _ _ _ (known select chosen) fun answer found => ?_
    cases answer with
    | none => exact .done _ (by simp)
    | some node =>
      refine (ih fun s member => among s (List.mem_cons_of_mem _ member)).bind fun rest made =>
        .done _ ?_
      intro planned result plan member
      obtain ⟨others, rfl, rfl⟩ := Option.map_eq_some_iff.mp result
      rcases List.mem_cons.mp member with rfl | member
      · exact .branch chosen (found node rfl)
      · exact made others rfl plan member

theorem plans_multiSelectNode {multi : MultiSelect} {depth : Nat} {acceptPartial : Bool}
    (known : (Goal.concept c optional).Known p roots)
    (derived : c.lineage = some (.multiSelect multi)) :
    p.Plans start roots (.concept c optional) fun search =>
      multiSelectNode search c multi optional depth acceptPartial := by
  have branches := known_branches known.1 derived
  unfold multiSelectNode
  refine (asks_planBranches branches multi.selects fun _ => id).bind fun result made => ?_
  cases result with
  | none => exact plans_none
  | some planned =>
    refine (Asks.ofExcept fun node joined => joined).bind fun node joined => ?_
    refine plans_enriched ?_ known.2 (.aligned derived (made planned rfl) joined)
    intro x member
    have read := (List.mem_filter.mp (List.mem_filter.mp member).1).1
    obtain ⟨s, branch, output⟩ := List.mem_flatMap.mp (Concept.mem_of_mem_unique read)
    exact branches s branch x output

theorem plans_generate {depth : Nat} {acceptPartial : Bool}
    (known : (Goal.concept c optional).Known p roots) :
    p.Plans start roots (.concept c optional) fun search =>
      p.generate search c optional depth acceptPartial := by
  unfold generate
  split
  · exact .ofExcept fun result read node made => .leaf (made ▸ read)
  · next strategy => exact .ofExcept fun result read node made => .constant strategy (made ▸ read)
  · next strategy => exact plans_basicNode known strategy
  · next strategy => exact plans_groupNode known strategy
  · next derived => exact plans_filterNode known derived
  · next derived => exact plans_windowNode known derived
  · next derived => exact plans_multiSelectNode known derived
  · exact plans_none

/-- The first attempt has the optional concepts, the second has none. -/
theorem plans_firstNode {request : List Concept} {depth : Nat} {acceptPartial : Bool}
    (known : (Goal.request request).Known p roots) (member : c ∈ request)
    (among : ∀ o ∈ optional, o ∈ request) :
    p.Plans start roots (.part request) fun search =>
      p.firstNode search c optional depth acceptPartial := by
  have attempt (extras : List Concept) (subset : ∀ o ∈ extras, o ∈ request) :
      p.Plans start roots (.part request) fun search =>
        p.generate search c extras depth acceptPartial := by
    have whole : (Goal.concept c extras).Known p roots :=
      ⟨known c member, fun o extra => known o (subset o extra)⟩
    exact (plans_generate whole).weaken fun result made node found =>
      .part member subset (made node found)
  unfold firstNode
  refine (attempt optional among).bind fun result made => ?_
  cases result with
  | some node => exact .done _ made
  | none =>
    dsimp only
    split
    · exact plans_none
    · exact attempt [] (by simp)

/-- The stack grows by nodes for concepts of the request until it covers the request. -/
theorem asks_stackNodes {request : List Concept} {depth : Nat} {acceptPartial : Bool}
    (known : (Goal.request request).Known p roots) (pending : List Concept)
    (among : ∀ x ∈ pending, x ∈ request) (stack : List Node)
    (made : ∀ node ∈ stack, p.Makes start roots (.part request) node) :
    p.Follows start roots
      (fun result => ∀ stack, result = some stack →
        (∀ node ∈ stack, p.Makes start roots (.part request) node) ∧
          covered stack request acceptPartial = .ok true)
      fun search => stackNodes p search request depth acceptPartial pending stack := by
  induction pending generalizing stack with
  | nil => exact .done _ (by simp)
  | cons c pending ih =>
    unfold stackNodes
    refine (plans_firstNode known (among c List.mem_cons_self)
      fun o other => (List.mem_filter.mp other).1).bind fun found new => ?_
    have grown : ∀ node ∈ stack ++ found.toList, p.Makes start roots (.part request) node := by
      intro node member
      rcases List.mem_append.mp member with member | member
      · exact made node member
      · exact new node (Option.mem_toList.mp member)
    refine (Asks.ofExcept fun covers checked => checked).bind fun covers checked => ?_
    split
    · next holds =>
      refine .done _ ?_
      intro covering result
      cases result
      exact ⟨grown, holds ▸ checked⟩
    · exact ih (fun x member => among x (List.mem_cons_of_mem _ member)) _ grown

/-- What a join path adds to a request is declared in the catalog. -/
theorem known_mapM_concept {addresses : List String} {added : List Concept}
    (declared : addresses.mapM p.catalog.concept = .ok added) :
    ∀ x ∈ added, p.Known roots x := by
  intro x member
  obtain ⟨address, _, found⟩ := exists_of_mem_mapM declared member
  exact known_of_catalog found

/-- A join path leads to a search for a longer request, whose node serves the request as well. -/
theorem plans_joinNode {request : List Concept} {depth : Nat} {acceptPartial : Bool}
    (known : (Goal.request request).Known p roots) :
    p.Follows start roots
      (fun result => ∀ node, result = some node →
        p.Makes start roots (.request request) (node.withOutputs request))
      fun search => p.joinNode search request depth acceptPartial := by
  unfold joinNode
  refine (Asks.ofExcept fun _ found => found).bind fun extension _ => ?_
  cases extension with
  | none => exact .done _ (by simp)
  | some addresses =>
    refine (Asks.ofExcept fun added declared => declared).bind fun added declared => ?_
    have addedKnown : ∀ x ∈ added, p.Known roots x := known_mapM_concept declared
    have longer : (Goal.request (request ++ added)).Known p roots :=
      List.forall_mem_append.mpr ⟨known, addedKnown⟩
    exact .answer longer fun answer found node result => .extended addedKnown (found node result)

/-- A search follows the rules if the nested searches do. -/
theorem plans_searchStep {request : List Concept} {depth : Nat} {acceptPartial : Bool}
    (known : (Goal.request request).Known p roots) :
    p.Plans start roots (.request request) fun search =>
      p.searchStep search request depth acceptPartial := by
  have pending : ∀ x ∈ p.prioritized request, x ∈ request := fun x member =>
    perm_sortBy.mem_iff.mp member
  unfold searchStep
  refine (asks_stackNodes known _ pending [] (by simp)).bind fun result made => ?_
  cases result with
  | some stack =>
    obtain ⟨parts, covers⟩ := made stack rfl
    refine .done _ ?_
    intro node result
    cases result
    exact .stacked parts covers
  | none =>
    refine (plans_joinNode known).bind fun result made => ?_
    cases result with
    | some node =>
      refine .done _ ?_
      intro found result
      cases result
      exact made node rfl
    | none =>
      dsimp only
      split
      · exact plans_none
      · exact .answer known fun answer found => found

end

end Planner

end SemanticQuery
