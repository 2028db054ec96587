import SemanticQuery.Proofs.Lowering
import SemanticQuery.Proofs.Soundness

/-!
What a compiled statement delivers. The plan puts out all that the statement asks for, resolving
keeps that, grouping brings the query to the grain of the statement, and the expression of this
query is the last one unless its name is that of another query. So the last expression has the
grain, the outputs and the condition of the statement, whether the plan had to be grouped or not.
-/

namespace SemanticQuery

/-- Whether a condition is another one, or has it as its right conjunct. -/
def Condition.Enforces (held condition : Condition) : Prop :=
  held = condition ∨ held.agrees condition = true ∨ ∃ left, held = .combine left condition .and

theorem Condition.enforces_both (left : Option Condition) (condition : Condition) :
    ∃ held, Condition.both left (some condition) = some held ∧ held.Enforces condition := by
  cases left with
  | none => exact ⟨condition, rfl, .inl rfl⟩
  | some left =>
    rw [both]
    split
    · next agree => exact ⟨left, rfl, .inr (.inl agree)⟩
    · exact ⟨_, rfl, .inr (.inr ⟨left, rfl⟩)⟩

namespace Select

/-- The query that a statement is lowered from. -/
def query (s : Select) (catalog : Catalog) (settings : Settings) : Except PlanError Query := do
  let node ← ((Planner.of catalog settings s.rowFilter?).plan s.inputs 0 {}).1
  s.finish (← node.resolve)

theorem query_lowered {s : Select} {catalog : Catalog} {settings : Settings} {p : CompiledSelect}
    (compiled : s.compile catalog settings = .ok p) :
    ∃ q, s.query catalog settings = .ok q ∧ q.lower settings.maxCteNameLength = .ok p.ctes ∧
      p.ctes.getLast? = some p.base := by
  obtain ⟨node, planned, compiled⟩ := bind_eq_ok.mp compiled
  obtain ⟨root, resolved, compiled⟩ := bind_eq_ok.mp compiled
  obtain ⟨q, finished, compiled⟩ := bind_eq_ok.mp compiled
  obtain ⟨ctes, lowered, compiled⟩ := bind_eq_ok.mp compiled
  have made : s.query catalog settings = .ok q :=
    bind_eq_ok.mpr ⟨node, planned, bind_eq_ok.mpr ⟨root, resolved, finished⟩⟩
  split at compiled
  · cases compiled
  · next base last =>
    cases compiled
    exact ⟨q, made, lowered, last⟩

/-- A statement compiles if its query can be lowered, and the last expression reads those of the
sources of the query. -/
theorem exists_compile {s : Select} {catalog : Catalog} {settings : Settings} {q : Query}
    (made : s.query catalog settings = .ok q)
    (lowerable : Lowerable settings.maxCteNameLength q.units) :
    ∃ p, s.compile catalog settings = .ok p ∧
      p.base.parents = q.cteParents settings.maxCteNameLength := by
  obtain ⟨node, planned, made⟩ := bind_eq_ok.mp made
  obtain ⟨root, resolved, finished⟩ := bind_eq_ok.mp made
  obtain ⟨before, parents, lowered, facts⟩ := Query.exists_lower q lowerable
  obtain ⟨u, unit, stands⟩ := facts.stands _ List.mem_concat_self
  have alike := lowerable.alike u unit q q.mem_units_self stands.name.symm
  let base := q.toCte settings.maxCteNameLength parents
  let p : CompiledSelect :=
    ⟨s.outputs, before ++ [base], base, s.grain, s.limit, s.condition, s.orderBy⟩
  have compiled : s.compile catalog settings = .ok p := by
    refine bind_eq_ok.mpr ⟨node, planned, bind_eq_ok.mpr ⟨root, resolved, bind_eq_ok.mpr
      ⟨q, finished, bind_eq_ok.mpr ⟨before ++ [base], lowered, ?_⟩⟩⟩⟩
    rw [List.getLast?_concat]
    rfl
  exact ⟨p, compiled,
    stands.parents.trans (Query.cteParents_of_alikeAll settings.maxCteNameLength alike)⟩

/-- Whether a query has the grain of a statement, all its outputs and its condition. -/
structure Delivers (s : Select) (q : Query) : Prop where
  grain : q.grain.same s.grain = true
  outputs : ∀ c ∈ s.outputs ++ s.hiddenOutputs, c.address ∈ Concept.addresses q.outputs
  condition : ∀ condition, s.condition = some condition →
    ∃ held, q.condition = some held ∧ held.Enforces condition

theorem finish_eq (s : Select) (root : Query) :
    s.finish root =
      (if root.grain.same s.grain then .ok root else s.regroup root) >>= fun base =>
        .ok { base with
          condition := Condition.both base.condition s.condition, limit := s.limit } := by
  unfold finish
  split <;> rfl

theorem delivers_finish {s : Select} {root q : Query}
    (provided : ∀ c ∈ s.inputs, c.address ∈ Concept.addresses root.outputs)
    (finished : s.finish root = .ok q) : s.Delivers q := by
  rw [finish_eq] at finished
  obtain ⟨base, grouped, done⟩ := bind_eq_ok.mp finished
  cases done
  have conditioned : ∀ condition, s.condition = some condition →
      ∃ held, Condition.both base.condition s.condition = some held ∧ held.Enforces condition := by
    intro condition wanted
    rw [wanted]
    exact Condition.enforces_both base.condition condition
  split at grouped
  · next atGrain =>
    cases grouped
    refine ⟨atGrain, fun c selected => ?_, conditioned⟩
    have asked : c.address ∈ Concept.addresses s.inputs :=
      Concept.mem_addresses_unique.mpr (List.mem_map_of_mem (List.mem_append_left _ selected))
    obtain ⟨d, listed, same⟩ := List.mem_map.mp asked
    rw [← same]
    exact provided d listed
  · obtain ⟨_, rfl⟩ := Query.of_eq_ok.mp grouped
    refine ⟨?_, fun c selected => ?_, conditioned⟩
    · exact Names.same_iff.mpr fun _ => Iff.rfl
    · exact Concept.mem_addresses_unique.mpr (List.mem_map_of_mem selected)

/-- The query of a statement delivers what the statement asks for. -/
theorem delivers_query {s : Select} {catalog : Catalog} {settings : Settings} {q : Query}
    (plain : ∀ c ∈ (Planner.of catalog settings s.rowFilter?).reachable s.inputs, c.Plain)
    (made : s.query catalog settings = .ok q) : s.Delivers q := by
  obtain ⟨node, planned, made⟩ := bind_eq_ok.mp made
  obtain ⟨root, resolved, finished⟩ := bind_eq_ok.mp made
  let p := Planner.of catalog settings s.rowFilter?
  have known : (Goal.request s.inputs).Known p s.inputs := fun c asked =>
    Planner.known_of_mem_request asked
  have plan : p.Makes {} s.inputs (.request s.inputs) node :=
    (Planner.keeps_plan 0 known ⟨rfl, fun _ _ held => .inl held⟩).2 node planned
  refine delivers_finish (fun c asked => ?_) finished
  rw [Node.outputs_resolve resolved]
  refine Concept.mem_addresses_unique.mpr ?_
  exact List.mem_map.mpr
    (Node.mem_outputAddresses.mp (Planner.provided_of_makes plain plan known c asked))

/-- A statement compiles to expressions the last of which has the grain, the outputs and the
condition of the statement. -/
theorem compile_delivers {s : Select} {catalog : Catalog} {settings : Settings}
    {p : CompiledSelect}
    (plain : ∀ c ∈ (Planner.of catalog settings s.rowFilter?).reachable s.inputs, c.Plain)
    (apart : ∀ q, s.query catalog settings = .ok q → ∀ u ∈ q.units, ∀ v ∈ q.units,
      u.cteName settings.maxCteNameLength = v.cteName settings.maxCteNameLength →
        u.agrees v = true)
    (compiled : s.compile catalog settings = .ok p) :
    p.ctes.getLast? = some p.base ∧
      p.base.grain.same s.grain = true ∧
      (∀ c ∈ s.outputs ++ s.hiddenOutputs, c.address ∈ Concept.addresses p.base.outputs) ∧
      ∀ condition, s.condition = some condition →
        ∃ held, p.base.condition = some held ∧ held.Enforces condition := by
  obtain ⟨q, made, lowered, last⟩ := query_lowered compiled
  obtain ⟨before, parents, ctes⟩ := Query.exists_last lowered fun wraps u below same => by
    -- a query below would have as many queries below it
    have agree := apart q made u (Query.mem_units_of_below wraps below) q q.mem_units_self same
    exact Nat.ne_of_lt (Query.length_units_lt wraps below) (Query.length_units_of_agrees u q agree)
  have base : q.toCte settings.maxCteNameLength parents = p.base := by
    rw [ctes, List.getLast?_concat] at last
    exact Option.some.inj last
  obtain ⟨grain, outputs, conditioned⟩ := delivers_query plain made
  rw [← base]
  exact ⟨base ▸ last, grain, outputs, conditioned⟩

end Select

namespace Takings

def sale : Concept := .key "sale" .integer

def category : Concept := .property "category" .string [sale]

def amount : Concept := .property "amount" .integer [sale]

def total : Concept :=
  .derive "total" .metric (.call ⟨.sum, [.concept amount], .integer, .metric⟩)

def table : Datasource :=
  .table "sales" [⟨"sale", sale, []⟩, ⟨"category", category, []⟩, ⟨"amount", amount, []⟩]

def catalog : Catalog :=
  .of (.ofList ([sale, category, amount, total].map fun c => (c.address, c))) [table]

/-- Names of expressions are not cut. -/
def settings : Settings := { maxCteNameLength := 255 }

def above (c : Concept) (bound : Int) : Condition :=
  .compare (.concept c) (.literal (.integer bound)) .gt

/-- The totals above five by category, with a condition on the single amounts besides. -/
def totals : Select :=
  ⟨[.concept category [], .concept total []],
    some (.combine (above amount 1) (above total 5) .and), none, none⟩

end Takings

open Takings in
/-- The plan is grouped again, and two of the queries that it is lowered from have one name. -/
theorem Select.compile_delivers_totals :
    ∃ q p, totals.query catalog settings = .ok q ∧ q.sourceType = .group ∧ q.units.length = 5 ∧
      totals.compile catalog settings = .ok p ∧ p.base.parents.length = 1 ∧
      p.ctes.getLast? = some p.base ∧
      p.base.grain.same totals.grain = true ∧
      (∀ c ∈ totals.outputs ++ totals.hiddenOutputs,
        c.address ∈ Concept.addresses p.base.outputs) ∧
      ∀ condition, totals.condition = some condition →
        ∃ held, p.base.condition = some held ∧ held.Enforces condition := by
  have plain : ∀ c ∈ (Planner.of catalog settings totals.rowFilter?).reachable totals.inputs,
      c.Plain := by decide +kernel
  -- names are told apart by their lengths, so that no fingerprint has to be computed
  have settled : Settles (totals.query catalog settings)
      (fun q => (q.sourceType = .group ∧ q.units.length = 5 ∧ (q.cteParents 255).length = 1) ∧
        (∀ u ∈ q.units, u.nameLength + 13 ≤ 255) ∧
        (∀ u ∈ Source.unitsAll q.sources, u.nameLength < q.nameLength) ∧
        (∀ u ∈ q.units, ∀ j ∈ u.joins, j.left ∈ Source.names u.sources ∧
          j.right ∈ Source.names u.sources) ∧
        (∀ u ∈ q.units, ∀ j ∈ u.joins, j.left ≠ j.right) ∧
        (∀ u ∈ q.units, ∀ entry ∈ u.sourceMap.entries, ∀ name ∈ entry.2,
          name ∈ Source.names u.sources) ∧
        (q.grain.same q.grain = true ∧ Source.alikeAll q.sources q.sources = true ∧
          q.agrees q = true) ∧
        ∀ u ∈ Source.unitsAll q.sources, ∀ v ∈ Source.unitsAll q.sources,
          u.nameLength = v.nameLength → (u.identifier = v.identifier ∧
            Source.names u.sources = Source.names v.sources ∧ u.grain.same v.grain = true) ∧
          Source.alikeAll u.sources v.sources = true ∧ u.agrees v = true)
      fun _ => False := by
    decide +kernel
  obtain ⟨q, made, ⟨grouped, five, single⟩, whole, longer, joins, apart, reads,
    ⟨grain, alike, agrees⟩, below⟩ := settled.exists_ok
  have same := Query.rel_of_cteName_eq whole longer ⟨⟨rfl, rfl, grain⟩, alike, agrees⟩ below
  have lowerable : Lowerable 255 q.units :=
    { joins, reads, apart
      named := fun u first v second equal => (same u first v second equal).1
      alike := fun u first v second equal => (same u first v second equal).2.1 }
  have unmixed : ∀ r, totals.query catalog settings = .ok r → ∀ u ∈ r.units, ∀ v ∈ r.units,
      u.cteName 255 = v.cteName 255 → u.agrees v = true := by
    intro r again u first v second equal
    cases made.symm.trans again
    exact (same u first v second equal).2.2
  obtain ⟨p, compiled, parents⟩ := Select.exists_compile made lowerable
  refine ⟨q, p, made, grouped, five, compiled, ?_, Select.compile_delivers plain unmixed compiled⟩
  rw [parents]
  exact single

end SemanticQuery
