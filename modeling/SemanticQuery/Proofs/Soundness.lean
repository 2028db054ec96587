import SemanticQuery.CompiledSelect
import SemanticQuery.Proofs.Assembly
import SemanticQuery.Proofs.Coverage
import SemanticQuery.Proofs.Leaves
import SemanticQuery.Proofs.Provision

/-!
Soundness of plans. Every node of a plan puts out only what it can have: a column of its datasource,
an output of a parent, a constant, or what is computed from outputs of its parents.
-/

namespace SemanticQuery

namespace Node

/-- Whether a parent puts out an address. -/
def Inherits (n : Node) (address : String) : Prop :=
  ∃ parent ∈ n.parents, address ∈ parent.outputAddresses

/-- The ways in which a node can have a concept. -/
inductive Available (n : Node) (c : Concept) : Prop
  | column {d : Datasource} {column : Column} :
      n.kind = .select (some d) → column ∈ d.columns → column.concept.address = c.address →
      Available n c
  | inherited : n.Inherits c.address → Available n c
  | derived {lineage : Lineage} :
      c.lineage = some lineage → (∀ read ∈ lineage.reads, n.Inherits read.address) → Available n c
  | constant : n.kind = .select none → c.purpose = .constant → Available n c

/-- A plan in which every output of every node is available. -/
def Grounded (n : Node) : Prop := ∀ m : Node, m.Within n → ∀ c ∈ m.outputs, m.Available c

/-- A node over grounded parents is grounded if its own outputs are available. -/
theorem Grounded.of_parents {n : Node} (parents : ∀ parent ∈ n.parents, parent.Grounded)
    (own : ∀ c ∈ n.outputs, n.Available c) : n.Grounded := throughout_iff.mpr ⟨own, parents⟩

theorem Grounded.parent {n parent : Node} (grounded : n.Grounded) (listed : parent ∈ n.parents) :
    parent.Grounded := (throughout_iff.mp grounded).2 parent listed

theorem Available.congr {m n : Node} {c : Concept} (available : n.Available c)
    (kind : m.kind = n.kind) (parents : m.parents = n.parents) : m.Available c := by
  cases available with
  | column reads listed same => exact .column (kind.trans reads) listed same
  | inherited held => exact .inherited (by rwa [Inherits, parents])
  | derived computed held =>
    refine .derived computed fun read member => ?_
    rw [Inherits, parents]
    exact held read member
  | constant empty purpose => exact .constant (kind.trans empty) purpose

theorem available_column {n : Node} {d : Datasource} {c : Concept}
    (reads : n.kind = .select (some d)) (provides : d.provides c.address = true) :
    n.Available c := by
  rw [Datasource.provides, Datasource.column?, List.find?_isSome] at provides
  obtain ⟨column, listed, same⟩ := provides
  exact .column reads listed (by simpa using same)

end Node

/-- Concepts of the same purpose that are computed from the same addresses, if they are computed, as
are those that agree in everything but their grain. -/
structure Concept.Alike (c d : Concept) : Prop where
  purpose : c.purpose = d.purpose
  derived : c.lineage.isSome = d.lineage.isSome
  reads : Names.same (addresses c.reads) (addresses d.reads) = true

instance (c d : Concept) : Decidable (c.Alike d) :=
  decidable_of_iff (c.purpose = d.purpose ∧ c.lineage.isSome = d.lineage.isSome ∧
    Names.same (Concept.addresses c.reads) (Concept.addresses d.reads) = true)
    ⟨fun ⟨purpose, derived, reads⟩ => ⟨purpose, derived, reads⟩,
      fun ⟨purpose, derived, reads⟩ => ⟨purpose, derived, reads⟩⟩

/-- What a concept is computed from is available if it is for a concept that is alike. -/
theorem Node.Available.alike {n : Node} {c d : Concept} (available : n.Available c)
    (address : c.address = d.address) (alike : c.Alike d) : n.Available d := by
  cases available with
  | column reads listed same => exact .column reads listed (same.trans address)
  | inherited held => exact .inherited (address ▸ held)
  | constant empty purpose => exact .constant empty (alike.purpose ▸ purpose)
  | @derived lineage derived held =>
    have isSome : d.lineage.isSome = true := by rw [← alike.derived, derived]; rfl
    obtain ⟨other, computed⟩ := Option.isSome_iff_exists.mp isSome
    refine .derived computed fun read member => ?_
    have listed : read.address ∈ Concept.addresses d.reads := by
      rw [Concept.reads, computed]
      exact List.mem_map_of_mem member
    obtain ⟨same, reads, equal⟩ := List.mem_map.mp ((Names.same_iff.mp alike.reads _).mpr listed)
    rw [Concept.reads, derived] at reads
    rw [← equal]
    exact held same reads

namespace Planner

/-- What is asked of the concepts that a search can meet: none stands for aligned selects, no name
has a character that sets keys apart, and concepts of one address are computed alike. -/
structure Clear (p : Planner) (roots : List Concept) : Prop where
  unaligned : ∀ c ∈ p.reachable roots, c.derivation ≠ .multiSelect
  plain : ∀ c ∈ p.reachable roots, c.Plain
  alike : ∀ c ∈ p.reachable roots, ∀ d ∈ p.reachable roots, c.address = d.address → c.Alike d

/-- Whether a concept is a reachable one, at any grain. -/
def Met (p : Planner) (roots : List Concept) (c : Concept) : Prop :=
  ∃ x ∈ p.reachable roots, ∃ g, c = x.withGrain g

/-- A grounded plan for concepts that can be met. -/
structure Sound (p : Planner) (roots : List Concept) (n : Node) : Prop where
  grounded : n.Grounded
  met : ∀ c ∈ n.outputs, p.Met roots c

section

variable {p : Planner} {roots : List Concept} {n : Node}

theorem Met.withGrain {c : Concept} (met : p.Met roots c) (g : Grain) :
    p.Met roots (c.withGrain g) := by
  obtain ⟨x, reached, h, rfl⟩ := met
  exact ⟨x, reached, g, rfl⟩

theorem Met.alike (clear : p.Clear roots) {c d : Concept} (met : p.Met roots c)
    (other : p.Met roots d) (address : c.address = d.address) : c.Alike d := by
  obtain ⟨x, reached, g, rfl⟩ := met
  obtain ⟨y, otherReached, h, rfl⟩ := other
  have alike := clear.alike x reached y otherReached address
  exact ⟨alike.purpose, alike.derived, alike.reads⟩

theorem Met.of_known {c : Concept} (known : p.Known roots c) : p.Met roots c :=
  exists_reachable_of_known known

/-- A node over sound parents is sound if its own outputs are available. -/
theorem Sound.of_parents {kind : NodeKind} {inputs outputs : List Concept} {parents : List Node}
    {depth : Nat} (sound : ∀ parent ∈ parents, p.Sound roots parent)
    (own : ∀ c ∈ outputs,
      (Node.of kind inputs outputs parents depth).Available c ∧ p.Met roots c) :
    p.Sound roots (Node.of kind inputs outputs parents depth) where
  grounded := .of_parents (fun parent listed => (sound parent listed).grounded)
    fun c member => (own c (Concept.mem_of_mem_unique member)).1
  met c member := (own c (Concept.mem_of_mem_unique member)).2

/-- Only the kind, the parents and the outputs of a node matter. -/
theorem Sound.congr {m : Node} (sound : p.Sound roots n) (kind : m.kind = n.kind)
    (parents : m.parents = n.parents) (outputs : m.outputs = n.outputs) : p.Sound roots m where
  grounded := .of_parents (fun _ listed => sound.grounded.parent (parents ▸ listed))
    fun c member => (sound.grounded n .self c (outputs ▸ member)).congr kind parents
  met c member := sound.met c (outputs ▸ member)

theorem Sound.withGrain (sound : p.Sound roots n) (grain : Grain) :
    p.Sound roots (n.withGrain grain) := sound.congr rfl rfl rfl

theorem Sound.withCondition (sound : p.Sound roots n) (condition : Option Condition) :
    p.Sound roots (n.withCondition condition) := sound.congr rfl rfl rfl

theorem Sound.withPartials (sound : p.Sound roots n) (partials : List Concept) :
    p.Sound roots (n.withPartials partials) := sound.congr rfl rfl rfl

theorem covers_of_coveringDatasource {cs : List Concept} {acceptPartial : Bool}
    {ds : List Datasource} {d : Datasource}
    (found : p.coveringDatasource? cs acceptPartial ds = .ok (some d)) :
    d ∈ ds ∧ p.covers d cs = .ok true := by
  induction ds with
  | nil => cases found
  | cons e ds ih =>
    rw [coveringDatasource?] at found
    obtain ⟨covered, covers, found⟩ := bind_eq_ok.mp found
    split at found
    · next holds =>
      cases found
      rw [Bool.and_eq_true] at holds
      exact ⟨List.mem_cons_self, holds.1 ▸ covers⟩
    · obtain ⟨listed, covers⟩ := ih found
      exact ⟨List.mem_cons_of_mem _ listed, covers⟩

/-- Constants, or columns of one datasource. -/
theorem sound_selectFromTable (graph : p.graph = Graph.ofCatalog p.catalog)
    (assembled : p.catalog.Assembled) {cs : List Concept} {depth : Nat} {acceptPartial : Bool}
    (known : ∀ c ∈ cs, p.Known roots c)
    (found : p.selectFromTable cs depth acceptPartial = .ok (some n)) : p.Sound roots n := by
  rcases selectFromTable_cases found with ⟨constants, rfl⟩ | ⟨d, covering, rfl⟩
  · exact .of_parents (by simp) fun c member =>
      ⟨.constant rfl (constants c member), .of_known (known c member)⟩
  · obtain ⟨declared, covers⟩ := covers_of_coveringDatasource covering
    have provides := provides_of_covers graph
      (fun e other same => assembled.alone declared other same) covers
    exact .of_parents (by simp) fun c member =>
      ⟨Node.available_column rfl (provides c member), .of_known (known c member)⟩

/-- A leaf reads datasources, one or several that are joined. -/
theorem sound_selectNode (graph : p.graph = Graph.ofCatalog p.catalog)
    (assembled : p.catalog.Assembled) {c : Concept} {optional : List Concept} {depth : Nat}
    {acceptPartial : Bool} (known : (Goal.concept c optional).Known p roots)
    (found : p.selectNode c optional depth acceptPartial = .ok (some n)) : p.Sound roots n := by
  refine holds_selectNode (fun cs among node selected => ?_) (fun nodes sound => ?_) found
  · refine sound_selectFromTable graph assembled (fun x member => ?_) selected
    rcases among x member with rfl | member
    · exact known.1
    · exact known.2 x member
  · refine .of_parents sound fun c member => ?_
    obtain ⟨leaf, listed, output⟩ := List.mem_flatMap.mp member
    exact ⟨.inherited ⟨leaf, listed, Node.mem_outputAddresses.mpr ⟨c, output, rfl⟩⟩,
      (sound leaf listed).met c output⟩

/-- A concept computed over a parent that has what it reads, beside outputs of the parent. -/
theorem Sound.over {parent : Node} {kind : NodeKind} {inputs others : List Concept} {depth : Nat}
    {c : Concept} {lineage : Lineage} (sound : p.Sound roots parent)
    (computed : c.lineage = some lineage) (met : p.Met roots c)
    (reads : ∀ read ∈ lineage.reads, read.address ∈ parent.outputAddresses)
    (kept : ∀ o ∈ others, o.address ∈ parent.outputAddresses ∧ p.Met roots o) :
    p.Sound roots (Node.of kind inputs (c :: others) [parent] depth) := by
  refine .of_parents (by simpa using sound) fun o member => ?_
  rcases List.mem_cons.mp member with rfl | member
  · refine ⟨.derived computed fun read listed => ?_, met⟩
    exact ⟨parent, List.mem_cons_self, reads read listed⟩
  · exact ⟨.inherited ⟨parent, List.mem_cons_self, (kept o member).1⟩, (kept o member).2⟩

/-- What is neither read nor constant is computed. -/
theorem exists_lineage {c : Concept} {strategy : Strategy} (sourced : p.strategy c = strategy)
    (unread : strategy ≠ .root) (varies : strategy ≠ .constant) :
    ∃ lineage, c.lineage = some lineage := by
  cases derived : c.lineage with
  | some lineage => exact ⟨lineage, rfl⟩
  | none =>
    rw [← sourced] at unread varies
    simp only [Planner.strategy, Concept.derivation, derived, Concept.isRoot, Option.isNone_none,
      if_true] at unread varies
    by_cases materialized : p.catalog.isMaterialized c.address = true
    · simp [materialized] at unread
    · by_cases constant : (c.purpose == .constant) = true
      · simp [materialized, constant] at varies
      · simp [materialized, constant] at unread

/-- An aggregate over a parent with all that it reads. -/
theorem sound_groupOver {c : Concept} {optional inputs : List Concept} {parent : Node} {depth : Nat}
    (aggregate : p.strategy c = .aggregate) (known : (Goal.concept c optional).Known p roots)
    (sound : p.Sound roots parent)
    (provided : ∀ x ∈ groupInputs c optional, x.address ∈ parent.outputAddresses) :
    p.Sound roots (groupOver c optional inputs parent depth) := by
  obtain ⟨lineage, computed⟩ := exists_lineage aggregate (by decide) (by decide)
  have reads : ∀ read ∈ lineage.reads, read.address ∈ parent.outputAddresses := by
    intro read member
    refine provided read (List.mem_append_left _ ?_)
    rwa [Concept.reads, computed]
  have kept : ∀ o ∈ (groupGrain c optional).components,
      o.address ∈ parent.outputAddresses ∧ p.Met roots o := fun o component =>
    ⟨provided o (List.mem_append_right _ component), .of_known (known_groupGrain known o component)⟩
  have met : p.Met roots c := .of_known known.1
  refine Sound.withGrain ?_ _
  split
  · exact sound.over computed (met.withGrain _) reads kept
  · exact sound.over computed met reads kept

/-- The optional concepts that are joined on come from the extra node. -/
theorem Sound.enriched {extra : Node} {keys missing : List Concept} {depth : Nat}
    (sound : p.Sound roots n) (extraSound : p.Sound roots extra)
    (known : ∀ c ∈ missing, p.Known roots c)
    (provided : ∀ c ∈ missing, c.address ∈ extra.outputAddresses) :
    p.Sound roots (enrichedWith n extra keys missing depth) := by
  refine .withPartials (.of_parents ?_ fun c member => ?_) _
  · intro parent listed
    rcases List.mem_cons.mp listed with rfl | listed
    · exact sound
    · rwa [List.mem_singleton.mp listed]
  · rcases List.mem_append.mp member with own | added
    · exact ⟨.inherited ⟨n, List.mem_cons_self, Node.mem_outputAddresses.mpr ⟨c, own, rfl⟩⟩,
        sound.met c own⟩
    · exact ⟨.inherited ⟨extra, by simp [Node.of], provided c added⟩, .of_known (known c added)⟩

/-- Outputs may be replaced by concepts of the same addresses. -/
theorem Sound.withOutputs (clear : p.Clear roots) (sound : p.Sound roots n) {cs : List Concept}
    (known : ∀ c ∈ cs, p.Known roots c) (provided : ∀ c ∈ cs, c.address ∈ n.outputAddresses) :
    p.Sound roots (n.withOutputs cs) where
  grounded := by
    refine .of_parents (fun _ listed => sound.grounded.parent listed) fun c member => ?_
    have asked := Concept.mem_of_mem_unique member
    obtain ⟨o, output, same⟩ := Node.mem_outputAddresses.mp (provided c asked)
    have alike := (sound.met o output).alike clear (.of_known (known c asked)) same
    exact ((sound.grounded n .self o output).alike same alike).congr rfl rfl
  met c member := .of_known (known c (Concept.mem_of_mem_unique member))

theorem sound_joinStack {stack : List Node} {request : List Concept} {depth : Nat}
    {acceptPartial : Bool} (sound : ∀ node ∈ stack, p.Sound roots node)
    (known : ∀ c ∈ request, p.Known roots c)
    (covers : covered stack request acceptPartial = .ok true) :
    p.Sound roots (joinStack stack request depth) := by
  unfold joinStack
  split
  · exact sound _ List.mem_cons_self
  · refine .of_parents sound fun c asked => ⟨.inherited ?_, .of_known (known c asked)⟩
    exact exists_of_covered covers asked

/-- Whether a node made for a goal is sound; the branches of aligned selects are left out. -/
def SoundFor (p : Planner) (roots : List Concept) : Goal → Node → Prop
  | .branch _, _ => True
  | _, node => p.Sound roots node

/-- Every plan is sound, if no aligned selects are met. -/
theorem sound_of_makes (graph : p.graph = Graph.ofCatalog p.catalog)
    (assembled : p.catalog.Assembled) (clear : p.Clear roots) {goal : Goal} {node : Node}
    (made : p.Makes {} roots goal node) (known : goal.Known p roots) :
    p.SoundFor roots goal node := by
  induction made with
  | leaf found => exact sound_selectNode graph assembled known found
  | constant _ found =>
    refine sound_selectFromTable graph assembled (fun x member => ?_) found
    rw [List.mem_singleton.mp member]
    exact known.1
  | @basic c optional depth parent basic made ih =>
    have asked := known_reads known
    have provided := provided_of_makes clear.plain made asked
    have sound : p.Sound roots parent := ih asked
    obtain ⟨lineage, computed⟩ := exists_lineage basic (by decide) (by decide)
    refine sound.over computed (.of_known known.1) (fun read member => ?_) fun o output => ?_
    · refine provided read (List.mem_append_left _ ?_)
      rwa [Concept.reads, computed]
    · exact ⟨Node.mem_outputAddresses.mpr ⟨o, output, rfl⟩, sound.met o output⟩
  | @filter c optional depth content condition grain parent computed made ih =>
    have asked := known_filterInputs known.1 computed
    have provided := provided_of_makes clear.plain made asked
    have sound : p.Sound roots parent := ih asked
    refine .withGrain (.withCondition (sound.over computed (.of_known known.1)
      (fun read member => ?_) fun o key => ?_) _) _
    · exact provided read (List.mem_append_left _ member)
    · have input := List.mem_append_right (content :: Concept.unique condition.reads) key
      exact ⟨provided o input, .of_known (asked o input)⟩
  | @window c optional depth window grain parent computed made ih =>
    have asked := known_window known.1 computed
    have provided := provided_of_makes clear.plain made asked
    have sound : p.Sound roots parent := ih asked
    exact .withGrain (sound.over computed (.of_known known.1) provided
      fun o read => ⟨provided o read, .of_known (asked o read)⟩) _
  | group aggregate made ih =>
    have asked := known_groupInputs known
    exact sound_groupOver aggregate known (ih asked) (provided_of_makes clear.plain made asked)
  | @filteredGroup c optional depth condition parent aggregate pushed made ih =>
    have asked := known_pushed known pushed
    have provided := provided_of_makes clear.plain made asked
    have sound : p.Sound roots parent := ih asked
    exact sound_groupOver aggregate known (sound.withCondition _)
      fun x member => provided x (List.mem_append_left _ member)
  | aligned computed _ _ _ =>
    -- no aligned select can be reached
    obtain ⟨x, reached, g, rfl⟩ := exists_reachable_of_known known.1
    rw [Concept.lineage_withGrain] at computed
    exact absurd (by rw [Concept.derivation, computed]) (clear.unaligned x reached)
  | branch => trivial
  | enriched asked made extra ih extraIh =>
    have provided := provided_of_makes clear.plain extra asked
    exact Sound.enriched (ih known) (extraIh asked)
      (fun c member => asked c (List.mem_append_right _ member))
      fun c member => provided c (List.mem_append_right _ member)
  | part listed others made ih =>
    exact ih ⟨known _ listed, fun o member => known o (others o member)⟩
  | stacked parts covers ih =>
    exact sound_joinStack (fun node member => ih node member known) known covers
  | @extended request added node addedKnown made ih =>
    have longer : (Goal.request (request ++ added)).Known p roots :=
      List.forall_mem_append.mpr ⟨known, addedKnown⟩
    have provided := provided_of_makes clear.plain made longer
    exact Sound.withOutputs clear (ih longer) known
      fun c asked => provided c (List.mem_append_left _ asked)
  | recalled otherKnown _ _ ih => exact ih otherKnown
  | remembered held => cases held

end

/-- A planner finds sound plans only, as the first plan or after any others: a plan puts out all
that is asked for, and each of its nodes puts out only what is available to it. -/
theorem plan_sound {catalog : Catalog} {settings : Settings} {rowFilter : Option RowFilter}
    {earlier : List (List Concept × Nat)} {request : List Concept} {depth : Nat} {node : Node}
    (assembled : catalog.Assembled)
    (clear : (Planner.of catalog settings rowFilter).Clear (earlier.flatMap (·.1) ++ request))
    (found : ((Planner.of catalog settings rowFilter).plan request depth
      ((Planner.of catalog settings rowFilter).historyAfter earlier)).1 = .ok node) :
    (∀ c ∈ request, c.address ∈ node.outputAddresses) ∧
      ∀ m : Node, m.Within node → ∀ c ∈ m.outputs, m.Available c := by
  let p := Planner.of catalog settings rowFilter
  let roots := earlier.flatMap (·.1) ++ request
  have known : (Goal.request request).Known p roots := fun c asked =>
    known_of_mem_request (List.mem_append_right _ asked)
  have earlierKnown : ∀ other ∈ earlier, (Goal.request other.1).Known p roots :=
    fun other member c asked => known_of_mem_request
      (List.mem_append_left _ (List.mem_flatMap.mpr ⟨other, member, asked⟩))
  have made : p.Makes {} roots (.request request) node :=
    (keeps_plan depth known (keeps_historyAfter earlierKnown)).2 node found
  have sound : p.Sound roots node := sound_of_makes rfl assembled clear made known
  exact ⟨provided_of_makes clear.plain made known, sound.grounded⟩

end Planner

namespace Orders

def order : Concept := .key "id" .integer

/-- A property that is computed from the key and has no column. -/
def twice : Concept :=
  .derive "twice" .property
    (.call ⟨.multiply, [.concept order, .literal (.integer 2)], .integer, .property⟩)

def table : Datasource := .table "orders" [⟨"id", order, []⟩]

def concepts : NameMap Concept := .ofList [(order.address, order), (twice.address, twice)]

def catalog : Catalog := .of concepts [table]

theorem assembled_catalog : catalog.Assembled := by
  let first : Builder := { concepts := .ofList [(twice.address, twice)] }
  let second : Builder := { concepts, datasources := [table] }
  have declared : Builder.addConcept {} twice false = .ok first := rfl
  have added : first.addDatasource table = .ok second := rfl
  exact ⟨second, .addDatasource (.addConcept (.fresh false true) declared) added, rfl⟩

abbrev planner : Planner := Planner.of catalog {} none

/-- A plan for the property, after one for the key. -/
def planned : Except PlanError Node :=
  (planner.plan [twice] 0 (planner.historyAfter [([order], 1)])).1

end Orders

theorem Planner.plan_sound_twice :
    ∃ node, Orders.planned = .ok node ∧
      (∀ c ∈ [Orders.twice], c.address ∈ node.outputAddresses) ∧
      ∀ m : Node, m.Within node → ∀ c ∈ m.outputs, m.Available c := by
  have clear : Orders.planner.Clear ([([Orders.order], 1)].flatMap (·.1) ++ [Orders.twice]) :=
    ⟨by decide +kernel, by decide +kernel, by decide +kernel⟩
  have planned : Orders.planned.toOption.isSome = true := by decide +kernel
  cases found : Orders.planned with
  | error e =>
    rw [found] at planned
    cases planned
  | ok node => exact ⟨node, rfl, Planner.plan_sound Orders.assembled_catalog clear found⟩

end SemanticQuery
