import SemanticQuery.CompiledSelect
import SemanticQuery.Concept.Declare
import SemanticQuery.Proofs.Leaves
import SemanticQuery.Proofs.Provision
import SemanticQuery.Proofs.WellFormed

/-!
The scope of conditions. Filters and filtered aggregates ask for all that their conditions read, so
the queries that these are put on have it. Aligned selects ask for their outputs alone: what else
their conditions read need not be there.
-/

namespace SemanticQuery

def Condition.readsOption : Option Condition → List Concept
  | none => []
  | some condition => condition.reads

theorem Condition.mem_readsOption_both {a b : Option Condition} {c : Concept}
    (member : c ∈ readsOption (both a b)) : c ∈ readsOption a ∨ c ∈ readsOption b := by
  cases a with
  | none =>
    cases b with
    | none => exact .inl member
    | some right => exact .inr member
  | some left =>
    cases b with
    | none => exact .inl member
    | some right =>
      rw [both] at member
      split at member
      · exact .inl member
      · simpa [readsOption, reads] using member

/-- Whether the condition of a select reads a concept that the select does not put out. -/
def MultiSelect.Overlooks (multi : MultiSelect) (c : Concept) : Prop :=
  ∃ select ∈ multi.selects, c ∈ Condition.readsOption select.condition ∧
    c.address ∉ Concept.addresses select.outputs

/-- Whether aligned selects that a search can meet overlook a concept. -/
def Planner.Overlooks (p : Planner) (roots : List Concept) (c : Concept) : Prop :=
  ∃ x ∈ p.reachable roots, ∃ multi, x.lineage = some (.multiSelect multi) ∧ multi.Overlooks c

/-- The condition of a query reads what the query has, unless it is excused. -/
structure Query.Scoped (excused : Concept → Prop) (q : Query) : Prop where
  fits : q.Fits
  reads : ∀ c ∈ Condition.readsOption q.condition, c.address ∈ q.sourceMap.keys ∨ excused c

theorem Query.Scoped.merged {excused : Concept → Prop} {a b : Query} (left : a.Scoped excused)
    (right : b.Scoped excused) (sources : List Source) : (a.merged b sources).Scoped excused where
  fits := left.fits.merged right.fits sources
  reads c member := by
    have keys : c.address ∈ (a.merged b sources).sourceMap.keys ↔ _ := mem_keys_mergeSourceMaps
    rw [keys]
    rcases Condition.mem_readsOption_both member with member | member
    · exact (left.reads c member).imp_left .inl
    · exact (right.reads c member).imp_left .inr

namespace Node

/-- The condition of a node reads inputs and outputs of the node, unless it is excused. -/
def Scoped (excused : Concept → Prop) (n : Node) : Prop :=
  ∀ c ∈ Condition.readsOption n.condition,
    c.address ∈ Concept.addresses (n.inputs ++ n.outputs) ∨ excused c

variable {excused : Concept → Prop} {n : Node}

/-- A node has what a condition reads that is added to it. -/
theorem scoped_withCondition {condition : Option Condition} (scope : n.Throughout (Scoped excused))
    (reads : ∀ c ∈ Condition.readsOption condition, c.address ∈ n.outputAddresses ∨ excused c) :
    (n.withCondition (Condition.both n.condition condition)).Throughout (Scoped excused) := by
  obtain ⟨own, parents⟩ := throughout_iff.mp scope
  refine throughout_iff.mpr ⟨fun c member => ?_, parents⟩
  rcases Condition.mem_readsOption_both member with member | member
  · exact own c member
  · refine (reads c member).imp_left fun output => ?_
    exact Concept.mem_addresses_append.mpr (.inr output)

theorem scoped_addOutputs (scope : n.Throughout (Scoped excused)) (outputs : List Concept) :
    (n.addOutputs outputs).Throughout (Scoped excused) := by
  obtain ⟨own, parents⟩ := throughout_iff.mp scope
  refine throughout_iff.mpr ⟨fun c member => ?_, parents⟩
  refine (own c member).imp_left fun listed => ?_
  simp only [addOutputs, Concept.mem_addresses_append, Concept.mem_addresses_unique] at listed ⊢
  tauto

/-- A plan with all conditions in scope resolves to queries with all conditions in scope. -/
theorem scoped_resolve (scope : n.Throughout (Scoped excused)) {q : Query}
    (resolved : n.resolve = .ok q) : q.Throughout (Query.Scoped excused) := by
  refine ((n.settles_resolve (fun _ held => Query.Scoped.fits held)
    (fun _ _ sources left right => Query.Scoped.merged left right sources)
    fun m within u wellFormed inputs outputs condition => ?_).ok resolved).2
  refine ⟨wellFormed.fits, fun c member => ?_⟩
  rw [condition] at member
  refine (scope m within c member).imp_left fun held => ?_
  rw [wellFormed.keys, inputs, outputs]
  simpa using held

end Node

namespace Planner

/-- What is kept of a node for a request: its own condition reads inputs, which no change of outputs
takes away. -/
structure InScope (p : Planner) (roots : List Concept) (n : Node) : Prop where
  inputs : ∀ c ∈ Condition.readsOption n.condition, c.address ∈ Concept.addresses n.inputs
  all : n.Throughout (Node.Scoped (p.Overlooks roots))

section

variable {p : Planner} {roots : List Concept} {n : Node}

theorem InScope.of_parents
    (inputs : ∀ c ∈ Condition.readsOption n.condition, c.address ∈ Concept.addresses n.inputs)
    (parents : ∀ parent ∈ n.parents, parent.Throughout (Node.Scoped (p.Overlooks roots))) :
    p.InScope roots n where
  inputs := inputs
  all := by
    refine Node.throughout_iff.mpr ⟨fun c member => .inl ?_, parents⟩
    exact Concept.mem_addresses_append.mpr (.inl (inputs c member))

/-- A node without a condition. -/
theorem InScope.bare (unfiltered : n.condition = none)
    (parents : ∀ parent ∈ n.parents, parent.Throughout (Node.Scoped (p.Overlooks roots))) :
    p.InScope roots n := by
  refine .of_parents (fun c member => ?_) parents
  rw [unfiltered] at member
  cases member

theorem inScope_selectFromTable {cs : List Concept} {depth : Nat} {acceptPartial : Bool}
    (found : p.selectFromTable cs depth acceptPartial = .ok (some n)) : p.InScope roots n := by
  rcases selectFromTable_cases found with ⟨_, rfl⟩ | ⟨d, _, rfl⟩
  · exact .bare rfl (by simp [Node.of])
  · exact .bare rfl (by simp [Node.of])

theorem inScope_joinStack {stack : List Node} {request : List Concept} {depth : Nat}
    (scope : ∀ node ∈ stack, p.InScope roots node) :
    p.InScope roots (joinStack stack request depth) := by
  unfold joinStack
  split
  · exact scope _ List.mem_cons_self
  · exact .bare rfl fun parent listed => (scope parent listed).all

/-- The condition of a select is put on its branch. -/
theorem scoped_branch {multi : MultiSelect} {select : Select} (member : select ∈ multi.selects)
    (scope : p.InScope roots n) (provided : ∀ c ∈ select.outputs, c.address ∈ n.outputAddresses) :
    (multi.branch select n).node.Throughout
      (Node.Scoped fun c => p.Overlooks roots c ∨ multi.Overlooks c) := by
  refine Node.scoped_addOutputs (Node.scoped_withCondition ?_ fun c reads => ?_) _
  · exact fun m within c reads => (scope.all m within c reads).imp_right .inl
  · by_cases output : c.address ∈ Concept.addresses select.outputs
    · obtain ⟨d, listed, same⟩ := List.mem_map.mp output
      exact .inl (same ▸ provided d listed)
    · exact .inr (.inr ⟨select, member, reads, output⟩)

/-- What holds of the conditions in a node that is made for a goal. -/
def ScopedFor (p : Planner) (roots : List Concept) : Goal → Node → Prop
  | .branch multi, node =>
    node.Throughout (Node.Scoped fun c => p.Overlooks roots c ∨ multi.Overlooks c)
  | _, node => p.InScope roots node

/-- What the selects of a known concept overlook is overlooked in the search. -/
theorem overlooks_of_known {c x : Concept} {multi : MultiSelect} (known : p.Known roots c)
    (derived : c.lineage = some (.multiSelect multi)) (overlooked : multi.Overlooks x) :
    p.Overlooks roots x := by
  obtain ⟨y, reached, g, rfl⟩ := exists_reachable_of_known known
  rw [Concept.lineage_withGrain] at derived
  exact ⟨y, reached, multi, derived, overlooked⟩

/-- All conditions of a plan are in scope, but for what aligned selects overlook. -/
theorem scoped_of_makes (plain : ∀ c ∈ p.reachable roots, c.Plain) {goal : Goal} {node : Node}
    (made : p.Makes {} roots goal node) (known : goal.Known p roots) :
    p.ScopedFor roots goal node := by
  have only {parent : Node} (scope : p.InScope roots parent) : ∀ other ∈ [parent],
      other.Throughout (Node.Scoped (p.Overlooks roots)) := by
    simpa using scope.all
  induction made with
  | leaf found =>
    refine holds_selectNode (fun _ _ _ => inScope_selectFromTable) (fun nodes scope => ?_) found
    exact .bare rfl fun leaf listed => (scope leaf listed).all
  | constant _ found => exact inScope_selectFromTable found
  | basic _ _ ih => exact .bare rfl (only (ih (known_reads known)))
  | @filter c optional depth content condition grain parent derived _ ih =>
    refine .of_parents (fun x reads => ?_) (only (ih (known_filterInputs known.1 derived)))
    have listed : x.address ∈ Concept.addresses (Concept.unique condition.reads) :=
      Concept.mem_addresses_unique.mpr (List.mem_map_of_mem reads)
    refine Concept.mem_addresses_unique.mpr (Concept.mem_addresses_append.mpr (.inl ?_))
    exact List.mem_cons_of_mem _ listed
  | window derived _ ih => exact .bare rfl (only (ih (known_window known.1 derived)))
  | group _ _ ih => exact .bare rfl (only (ih (known_groupInputs known)))
  | @filteredGroup c optional depth condition parent _ pushed made ih =>
    have asked := known_pushed known pushed
    have provided := provided_of_makes plain made asked
    have scope : p.InScope roots parent := ih asked
    refine .bare rfl fun other listed => ?_
    rw [List.mem_singleton.mp listed]
    refine Node.scoped_withCondition scope.all fun x reads => .inl ?_
    exact provided x (List.mem_append_right _ reads)
  | @aligned c optional depth multi planned node derived _ joined ih =>
    obtain ⟨joins, _, done⟩ := bind_eq_ok.mp joined
    cases done
    refine .bare rfl fun parent listed => ?_
    obtain ⟨plan, member, rfl⟩ := List.mem_map.mp listed
    intro m within x reads
    have branches := known_branches known.1 derived
    refine (ih plan member branches m within x reads).imp_right fun overlooked => ?_
    exact overlooked.elim id (overlooks_of_known known.1 derived)
  | branch member made ih =>
    have asked := known _ member
    exact scoped_branch member (ih asked) (provided_of_makes plain made asked)
  | enriched asked _ _ ih extraIh =>
    refine .bare rfl fun parent listed => ?_
    rcases List.mem_cons.mp listed with rfl | listed
    · exact (ih known).all
    · exact only (extraIh asked) parent listed
  | part listed others _ ih =>
    exact ih ⟨known _ listed, fun o member => known o (others o member)⟩
  | stacked _ _ ih => exact inScope_joinStack fun node member => ih node member known
  | extended addedKnown _ ih =>
    have scope := ih (List.forall_mem_append.mpr ⟨known, addedKnown⟩)
    exact .of_parents scope.inputs (Node.throughout_iff.mp scope.all).2
  | recalled otherKnown _ _ ih => exact ih otherKnown
  | remembered held => cases held

end

/-- In the query of a plan, found first or after other plans, and in all queries nested in it, a
condition reads inputs and outputs of its query, or else what aligned selects overlook. -/
theorem plan_scoped {p : Planner} {earlier : List (List Concept × Nat)} {request : List Concept}
    {depth : Nat} {node : Node} {q : Query}
    (plain : ∀ c ∈ p.reachable (earlier.flatMap (·.1) ++ request), c.Plain)
    (found : (p.plan request depth (p.historyAfter earlier)).1 = .ok node)
    (resolved : node.resolve = .ok q) :
    ∀ u ∈ q.nested,
      (∀ address,
        address ∈ u.sourceMap.keys ↔ address ∈ Concept.addresses (u.inputs ++ u.outputs)) ∧
      ∀ c ∈ Condition.readsOption u.condition,
        c.address ∈ u.sourceMap.keys ∨ p.Overlooks (earlier.flatMap (·.1) ++ request) c := by
  obtain ⟨known, made⟩ := makes_plan found
  have scope : p.InScope (earlier.flatMap (·.1) ++ request) node := scoped_of_makes plain made known
  intro u nested
  obtain ⟨fits, reads⟩ := Node.scoped_resolve scope.all resolved u nested
  refine ⟨fun address => ?_, reads⟩
  rw [(Query.misfit?_eq_none.mp fits).2, Concept.mem_addresses_append,
    Concept.mem_addresses_append, or_comm]

end Planner

namespace Ledger

def sale : Concept := .key "sale" .integer

def refund : Concept := .key "refund" .integer

def amount : Concept := .property "amount" .integer [sale]

def large : Condition := .compare (.concept amount) (.literal (.integer 5)) .gt

/-- Large sales, of which some concepts are selected, aligned with refunds. -/
def documents (selected : List Concept) : MultiSelect where
  selects := [⟨selected.map (.concept · []), some large, none, none⟩,
    ⟨[.concept refund []], none, none, none⟩]
  align := [⟨"document", [sale, refund]⟩]
  ns := defaultNamespace

def document (selected : List Concept) : Concept :=
  AlignItem.mergeConcept ⟨"document", [sale, refund]⟩ (documents selected)

def volume : Concept :=
  .derive "volume" .metric (.call ⟨.count, [.concept sale], .integer, .metric⟩)

def catalog (concepts : List Concept) (tables : List (List Concept)) : Catalog :=
  .of (.ofList (concepts.map fun c => (c.address, c)))
    (tables.zipIdx.map fun (table, index) =>
      .table ("table" ++ toString index) (table.map fun c => ⟨c.name, c, []⟩))

/-- Sales, with or without their amounts, and refunds. -/
def sales (selected : List Concept) : Catalog :=
  catalog [sale, refund, amount, volume, document selected] [[sale], [sale, amount], [refund]]

/-- Only large sales are counted. -/
def counting : RowFilter := ⟨large, [volume.address]⟩

/-- The query for some concepts, after plans for others. -/
def query (p : Planner) (earlier : List (List Concept)) (request : List Concept) :
    Except PlanError Query := do
  let node ← (p.plan request 0 (p.historyAfter (earlier.map (·, 0)))).1
  node.resolve

/-- Both large sales and the counts of them are planned. -/
abbrev planner : Planner := .of (sales [sale, amount]) {} counting

end Ledger

theorem Planner.plan_scoped_documents :
    ∃ q, Ledger.query Ledger.planner [[Ledger.volume]]
        [Ledger.document [Ledger.sale, Ledger.amount]] = .ok q ∧
      (∃ u ∈ q.nested, Condition.readsOption u.condition ≠ []) ∧
      ∀ u ∈ q.nested,
        (∀ address,
          address ∈ u.sourceMap.keys ↔ address ∈ Concept.addresses (u.inputs ++ u.outputs)) ∧
        ∀ c ∈ Condition.readsOption u.condition,
          c.address ∈ u.sourceMap.keys ∨ Ledger.planner.Overlooks
            [Ledger.volume, Ledger.document [Ledger.sale, Ledger.amount]] c := by
  have plain : ∀ c ∈ Ledger.planner.reachable ([([Ledger.volume], 0)].flatMap (·.1) ++
      [Ledger.document [Ledger.sale, Ledger.amount]]), c.Plain := by
    decide +kernel
  obtain ⟨q, planned, filtered⟩ : ∃ q, Ledger.query Ledger.planner [[Ledger.volume]]
      [Ledger.document [Ledger.sale, Ledger.amount]] = .ok q ∧
        ∃ u ∈ q.nested, Condition.readsOption u.condition ≠ [] := by
    refine Settles.exists_ok ?_
    decide +kernel
  obtain ⟨node, found, resolved⟩ := bind_eq_ok.mp planned
  exact ⟨q, planned, filtered, Planner.plan_scoped plain found resolved⟩

namespace Ledger

/-- A planner for large sales that are selected without their amounts. -/
abbrev overlooking : Planner := .of (sales [sale]) {} none

/-- A name that a search for sales and amounts would be remembered by. -/
def posing : Concept := .property "amount@sale-local.sale" .integer [sale]

abbrev confused : Planner :=
  .of (catalog [sale, amount, volume, posing] [[sale, posing], [sale, amount]]) {} counting

end Ledger

/-- A query need not have what its condition reads: if a select with the condition does not put that
out, or if names are not plain and the plan of another request is recalled. -/
theorem Planner.plan_unscoped :
    ((∀ c ∈ Ledger.overlooking.reachable [Ledger.document [Ledger.sale]], c.Plain) ∧
      ∃ q, Ledger.query Ledger.overlooking [] [Ledger.document [Ledger.sale]] = .ok q ∧
        ∃ u ∈ q.nested, ∃ c ∈ Condition.readsOption u.condition, c.address ∉ u.sourceMap.keys) ∧
    (∀ c ∈ Ledger.confused.reachable [Ledger.posing, Ledger.volume],
        c.derivation ≠ .multiSelect) ∧
      ∃ q, Ledger.query Ledger.confused [[Ledger.posing]] [Ledger.volume] = .ok q ∧
        ∃ u ∈ q.nested, ∃ c ∈ Condition.readsOption u.condition, c.address ∉ u.sourceMap.keys := by
  refine ⟨⟨by decide +kernel, Settles.exists_ok ?_⟩, by decide +kernel, Settles.exists_ok ?_⟩
  · decide +kernel
  · decide +kernel

end SemanticQuery
