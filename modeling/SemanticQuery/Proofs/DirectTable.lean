import SemanticQuery.CompiledSelect
import SemanticQuery.Proofs.Assembly
import SemanticQuery.Proofs.Coverage
import SemanticQuery.Proofs.Resolution
import SemanticQuery.Proofs.Run

/-!
Requests that one table can answer. If some datasource provides all that is asked for, and nothing
of it partially, the plan reads the first such datasource and joins nothing.
-/

namespace SemanticQuery

/-- Whether a datasource provides all concepts completely. -/
def Datasource.serves (d : Datasource) (cs : List Concept) : Bool :=
  cs.all fun c => d.provides c.address && !d.isPartialFor c.address

namespace Datasource

variable {d : Datasource} {cs : List Concept}

theorem serves_iff : d.serves cs = true ↔ ∀ address ∈ Concept.addresses cs,
    d.provides address = true ∧ d.isPartialFor address = false := by
  simp [serves, Concept.addresses]

theorem serves_unique (d : Datasource) (cs : List Concept) :
    d.serves (Concept.unique cs) = d.serves cs := by
  have same : d.serves (Concept.unique cs) = true ↔ d.serves cs = true := by
    simp only [serves_iff, Concept.mem_addresses_unique]
  exact Bool.eq_iff_iff.mpr same

theorem serves_eq (d : Datasource) (cs : List Concept) :
    ((cs.all fun c => d.provides c.address) && !cs.any fun c => d.isPartialFor c.address) =
      d.serves cs := by
  have same : ((cs.all fun c => d.provides c.address) &&
      !cs.any fun c => d.isPartialFor c.address) = true ↔ d.serves cs = true := by
    simp only [Bool.and_eq_true, List.all_eq_true, Bool.not_eq_true', List.any_eq_false, serves]
    constructor
    · rintro ⟨provided, complete⟩ c member
      exact ⟨provided c member, Bool.eq_false_iff.mpr (complete c member)⟩
    · intro served
      refine ⟨fun c member => (served c member).1, fun c member => ?_⟩
      exact Bool.eq_false_iff.mp (served c member).2
  exact Bool.eq_iff_iff.mpr same

end Datasource

namespace Planner

variable {p : Planner} {d : Datasource} {cs : List Concept}

/-- The node that reads concepts from a datasource. -/
abbrev tableNode (d : Datasource) (cs : List Concept) (depth : Nat) : Node :=
  .of (.select (some d)) d.concepts cs [] depth

/-- A table that serves a request covers it without a join. -/
theorem covered_tableNode (served : d.serves cs = true) (depth : Nat) :
    covered [tableNode d cs depth] cs false = .ok true := by
  let q := (tableNode d cs depth).tableQuery d
  have resolved : (tableNode d cs depth).resolve = .ok q := by
    rw [Node.resolve_eq]
    change ((tableNode d cs depth).resolveDatasource d >>= _) = _
    rw [Node.resolveDatasource_eq]
    rfl
  have all : Node.resolveAll [tableNode d cs depth] = .ok [q] := by
    rw [Node.resolveAll_eq, List.mapM_cons, resolved]
    rfl
  have none : q.partials = [] := by
    have complete : (Concept.unique cs).filter (fun c => d.isPartialFor c.address) = [] := by
      refine List.filter_eq_nil_iff.mpr fun c member => ?_
      have asked := List.mem_map_of_mem (f := Concept.address) (Concept.mem_of_mem_unique member)
      rw [(Datasource.serves_iff.mp served c.address asked).2]
      exact Bool.false_ne_true
    change Concept.unique ((Concept.unique cs).filter (fun c => d.isPartialFor c.address) ++ []) = []
    rw [complete]
    rfl
  have provides : provideAll [q] cs false = true := by
    refine List.all_eq_true.mpr fun c asked => ?_
    have listed : c.address ∈ Concept.addresses q.outputs := by
      change c.address ∈ Concept.addresses (Concept.unique (Concept.unique cs))
      rw [Concept.mem_addresses_unique, Concept.mem_addresses_unique]
      exact List.mem_map_of_mem asked
    simp [Query.completeAddresses, Query.isPartialFor, none, listed]
  unfold covered
  rw [all]
  change Except.ok (provideAll [q] cs false && _) = _
  rw [provides]
  rfl

section Served

variable (graph : p.graph = Graph.ofCatalog p.catalog)
  (alone : ∀ d ∈ p.catalog.datasources, ∀ e ∈ p.catalog.datasources,
    e.identifier = d.identifier → e = d)
  (materialized : ∀ c ∈ cs, p.catalog.isMaterialized c.address = true)
  (varying : ∃ c ∈ cs, c.purpose ≠ .constant)
  (found : p.catalog.datasources.find? (·.serves cs) = some d)

include graph alone varying found

theorem selectFromTable_eq (depth : Nat) :
    p.selectFromTable cs depth false = .ok (some (tableNode d cs depth)) := by
  obtain ⟨c, asked, changes⟩ := varying
  have some : cs.isEmpty = false := by
    rw [List.isEmpty_eq_false_iff]
    exact List.ne_nil_of_mem asked
  have notConstant : (cs.all (·.purpose == .constant)) = false := by
    rw [List.all_eq_false]
    exact ⟨c, asked, by simpa using changes⟩
  have covering : p.coveringDatasource? cs false p.catalog.datasources = .ok (.some d) := by
    rw [coveringDatasource?_eq graph alone cs false fun _ own => own]
    simp only [Bool.false_or, Datasource.serves_eq]
    rw [found]
  unfold selectFromTable
  rw [some, notConstant, covering]
  rfl

include materialized

theorem firstNode_eq {c : Concept} {others : List Concept} (split : cs = c :: others)
    (search : Searcher) (depth : Nat) :
    p.firstNode search c others depth false = pure (some (tableNode d cs depth)) := by
  have own : p.catalog.isMaterialized c.address = true :=
    materialized c (split ▸ List.mem_cons_self)
  have root : p.strategy c = .root := by
    rw [strategy, own]
    rfl
  have readable : ((c :: others).all fun x =>
      x.purpose == .constant || p.catalog.isMaterialized x.address) = true := by
    refine List.all_eq_true.mpr fun x member => ?_
    rw [materialized x (split ▸ member), Bool.or_true]
  have selected : p.selectNode c others depth false = .ok (some (tableNode d cs depth)) := by
    unfold selectNode
    dsimp only
    rw [readable, ← split, selectFromTable_eq graph alone varying found]
    rfl
  unfold firstNode generate
  rw [root, selected]
  rfl

/-- Concepts that one table serves are read from it at the first try. -/
theorem stackNodes_eq (distinct : (Concept.addresses cs).Nodup) (search : Searcher) (depth : Nat) :
    p.stackNodes search cs depth false cs [] = pure (some [tableNode d cs (depth + 1)]) := by
  have served : d.serves cs = true := by simpa using List.find?_some found
  cases split : cs with
  | nil =>
    obtain ⟨c, asked, _⟩ := varying
    rw [split] at asked
    cases asked
  | cons c others =>
    have rest : (c :: others).filter (·.address != c.address) = others := by
      rw [split, Concept.addresses, List.map_cons, List.nodup_cons] at distinct
      rw [List.filter_cons_of_neg (by simp), List.filter_eq_self]
      intro other member
      rw [bne_iff_ne]
      exact fun same => distinct.1 (same ▸ List.mem_map_of_mem member)
    rw [stackNodes, rest, firstNode_eq graph alone materialized varying found split]
    have covers := covered_tableNode served (depth + 1)
    rw [split] at covers ⊢
    change Search.ofExcept (covered [tableNode d (c :: others) (depth + 1)] (c :: others) false)
      >>= _ = _
    rw [covers]
    rfl

theorem searchStep_eq (distinct : (Concept.addresses cs).Nodup) (search : Searcher) (depth : Nat) :
    p.searchStep search cs depth false = pure (some (tableNode d cs (depth + 1))) := by
  have root : ∀ c ∈ cs, p.strategy c = .root := by
    intro c asked
    rw [strategy, materialized c asked]
    rfl
  have order : p.prioritized cs = cs := by
    refine sortBy_eq_self (List.pairwise_of_forall_mem_list fun a first b second => ?_)
    rw [root a first, root b second]
    rfl
  unfold searchStep
  rw [order, stackNodes_eq graph alone materialized varying found distinct]
  rfl

end Served

/-- A fresh planner reads a request from the first table that serves it. -/
theorem plan_direct {catalog : Catalog} {settings : Settings} {rowFilter : Option RowFilter}
    {request : List Concept} (depth : Nat) (assembled : catalog.Assembled)
    (complete : settings.acceptPartial = false)
    (varying : ∃ c ∈ Concept.unique request, c.purpose ≠ .constant)
    (served : ∃ d ∈ catalog.datasources, d.serves request = true) :
    ∃ d node, catalog.datasources.find? (·.serves request) = some d ∧
      ((Planner.of catalog settings rowFilter).plan request depth {}).1 = .ok node ∧
      node.kind = .select (some d) ∧ node.kind.joins = [] ∧ node.parents = [] ∧
      node.outputs = Concept.unique request := by
  let p := Planner.of catalog settings rowFilter
  obtain ⟨d, found⟩ : ∃ d, catalog.datasources.find? (·.serves request) = some d :=
    Option.isSome_iff_exists.mp (List.find?_isSome.mpr served)
  have declared : d ∈ catalog.datasources := List.mem_of_find?_eq_some found
  have materialized : ∀ c ∈ Concept.unique request, p.catalog.isMaterialized c.address = true := by
    intro c asked
    have listed := List.mem_map_of_mem (f := Concept.address) (Concept.mem_of_mem_unique asked)
    have serves : d.serves request = true := by simpa using List.find?_some found
    exact assembled.isMaterialized declared (Datasource.serves_iff.mp serves c.address listed).1
  have foundUnique : p.catalog.datasources.find? (·.serves (Concept.unique request)) = some d := by
    simp only [Datasource.serves_unique]
    exact found
  have step (search : Searcher) :
      p.searchStep search (Concept.unique request) depth false =
        pure (some (tableNode d (Concept.unique request) (depth + 1))) :=
    searchStep_eq rfl (fun d own e other => assembled.alone own other) materialized varying
      foundUnique (Concept.nodup_addresses_unique request) search depth
  obtain ⟨bound, enough⟩ : ∃ bound, p.searchBound request = bound + 1 := by
    have positive : 0 < p.searchBound request := Nat.pow_pos (by omega)
    exact ⟨p.searchBound request - 1, by omega⟩
  have ran : ((p.search (p.searchBound request) request depth p.acceptPartial).runFrom {}).1 =
      .ok (some (tableNode d (Concept.unique request) (depth + 1))) := by
    rw [enough, show p.acceptPartial = false from complete, search_succ, runFrom_fresh rfl rfl, step]
    rfl
  refine ⟨d, tableNode d (Concept.unique request) (depth + 1), found, ?_, rfl, rfl, rfl, ?_⟩
  · change (p.plan request depth {}).1 = _
    unfold Search.runFrom at ran
    unfold plan
    dsimp only
    rcases result : (p.search (p.searchBound request) request depth p.acceptPartial).run.run {} with
      ⟨outcome, after⟩
    rw [result] at ran
    cases ran
    rfl
  · exact Concept.unique_unique request

end Planner

namespace Stock

def item : Concept := .key "id" .integer

def label : Concept := .property "label" .string [item]

/-- A table with some of the labels only. -/
def sample : Datasource := .table "sample" [⟨"id", item, []⟩, ⟨"label", label, [.incomplete]⟩]

def items : Datasource := .table "items" [⟨"id", item, []⟩, ⟨"label", label, []⟩]

def copy : Datasource := .table "copy" [⟨"id", item, []⟩, ⟨"label", label, []⟩]

def concepts : NameMap Concept := .ofList [(item.address, item), (label.address, label)]

def catalog : Catalog := .of concepts [sample, items, copy]

theorem assembled_catalog : catalog.Assembled := by
  let first : Builder := { concepts, datasources := [sample] }
  let second : Builder := { concepts, datasources := [sample, items] }
  let third : Builder := { concepts, datasources := [sample, items, copy] }
  have one : Builder.addDatasource {} sample = .ok first := rfl
  have two : first.addDatasource items = .ok second := rfl
  have three : second.addDatasource copy = .ok third := rfl
  exact ⟨third, .addDatasource (.addDatasource (.addDatasource (.fresh false true) one) two) three,
    rfl⟩

end Stock

theorem Planner.plan_direct_items :
    ∃ node, ((Planner.of Stock.catalog {} none).plan [Stock.item, Stock.label, Stock.item] 0 {}).1 =
        .ok node ∧
      node.kind = .select (some Stock.items) ∧ node.kind.joins = [] ∧ node.parents = [] ∧
      node.outputs = [Stock.item, Stock.label] := by
  have varying : ∃ c ∈ Concept.unique [Stock.item, Stock.label, Stock.item],
      c.purpose ≠ .constant := by
    decide +kernel
  have served : ∃ d ∈ Stock.catalog.datasources,
      d.serves [Stock.item, Stock.label, Stock.item] = true := by
    decide +kernel
  obtain ⟨d, node, first, planned, kind, joins, parents, outputs⟩ :=
    @Planner.plan_direct Stock.catalog {} none _ 0 Stock.assembled_catalog rfl varying served
  have found : Stock.catalog.datasources.find?
      (·.serves [Stock.item, Stock.label, Stock.item]) = some Stock.items := by
    change [Stock.sample, Stock.items, Stock.copy].find? _ = _
    rw [List.find?_cons_of_neg (by decide +kernel), List.find?_cons_of_pos (by decide +kernel)]
  cases first.symm.trans found
  exact ⟨node, planned, kind, joins, parents, outputs⟩

namespace Stock

/-- A constant at the address of the key. -/
def fixed : Concept := .declare "id" .integer .constant

/-- The first concept of the address stands for both. -/
def planned : Except PlanError Node :=
  ((Planner.of catalog {} none).plan [fixed, item] 0 {}).1

end Stock

/-- A constant that stands before a key of its address hides the key, which no table is read for. -/
theorem Planner.plan_hidden_key :
    (∃ c ∈ [Stock.fixed, Stock.item], c.purpose ≠ .constant) ∧
      (∃ d ∈ Stock.catalog.datasources, d.serves [Stock.fixed, Stock.item] = true) ∧
      ∃ node, Stock.planned = .ok node ∧ node.kind = .select none := by
  refine ⟨by decide +kernel, by decide +kernel, ?_⟩
  obtain ⟨node, planned, constant⟩ : ∃ node, Stock.planned = .ok node ∧
      node.kind.sourceType = .select := by
    refine Settles.exists_ok ?_
    decide +kernel
  refine ⟨node, planned, ?_⟩
  -- only a select without a datasource has this source type
  cases kind : node.kind with
  | select datasource =>
    cases datasource with
    | none => rfl
    | some d =>
      rw [kind] at constant
      cases constant
  | _ =>
    rw [kind] at constant
    cases constant

end SemanticQuery
