import SemanticQuery.Proofs.Lowering
import SemanticQuery.Proofs.WellFormed

/-!
The sources of lowered expressions. An expression stands for all queries of its name, its copies,
which are merged in the order in which their expressions are made. The merger takes the outputs and
the source map of every copy but the inputs of the first alone, so the source need not be a valid
query any more.
-/

namespace SemanticQuery

mutual

/-- The queries that expressions are made for, in the order of these: the query itself last. -/
def Query.emitted : Query → List Query
  | ⟨inputs, outputs, sourceMap, sources, grain, joins, sourceType, partials, condition, limit⟩ =>
    (if Source.isDirect sources then [] else Source.emittedAll sources) ++
      [⟨inputs, outputs, sourceMap, sources, grain, joins, sourceType, partials, condition, limit⟩]

def Source.emitted : Source → List Query
  | .datasource d => [d.query]
  | .query q => q.emitted

def Source.emittedAll : List Source → List Query
  | [] => []
  | s :: ss => s.emitted ++ Source.emittedAll ss

end

theorem Datasource.fits_query (d : Datasource) : d.query.Fits :=
  (Query.of_eq_ok.mp (Query.ofDatasource_eq d)).1

mutual

/-- What holds throughout a query, and of the queries of datasources, holds of all queries that
expressions are made for. -/
theorem Query.Throughout.emitted {holds : Query → Prop} (tables : ∀ d : Datasource, holds d.query) :
    (q : Query) → q.Throughout holds → ∀ u ∈ q.emitted, holds u
  | ⟨inputs, outputs, sourceMap, sources, grain, joins, sourceType, partials, condition, limit⟩,
    all, u, member => by
    obtain ⟨own, below⟩ := Query.throughout_iff.mp all
    rw [Query.emitted] at member
    rcases List.mem_append.mp member with inner | last
    · split at inner
      · cases inner
      · exact Source.Throughout.emittedAll tables sources below u inner
    · rw [List.mem_singleton.mp last]
      exact own

theorem Source.Throughout.emitted {holds : Query → Prop}
    (tables : ∀ d : Datasource, holds d.query) :
    (s : Source) → s.Throughout holds → ∀ u ∈ s.emitted, holds u
  | .datasource d, _, u, member => by
    rw [Source.emitted] at member
    rw [List.mem_singleton.mp member]
    exact tables d
  | .query q, all, u, member => by
    rw [Source.emitted] at member
    exact Query.Throughout.emitted tables q (Source.throughout_query.mp all) u member

theorem Source.Throughout.emittedAll {holds : Query → Prop}
    (tables : ∀ d : Datasource, holds d.query) :
    (ss : List Source) → (∀ s ∈ ss, s.Throughout holds) → ∀ u ∈ Source.emittedAll ss, holds u
  | [], _, u, member => by
    rw [Source.emittedAll] at member
    cases member
  | s :: ss, all, u, member => by
    obtain ⟨first, rest⟩ := List.forall_mem_cons.mp all
    rw [Source.emittedAll] at member
    rcases List.mem_append.mp member with own | later
    · exact Source.Throughout.emitted tables s first u own
    · exact Source.Throughout.emittedAll tables ss rest u later

end

/-- The queries that share the expression of a name. -/
def Query.copies (maxLength : Nat) (name : String) (us : List Query) : List Query :=
  us.filter (·.cteName maxLength == name)

@[simp] theorem Query.copies_append (maxLength : Nat) (name : String) (us vs : List Query) :
    copies maxLength name (us ++ vs) = copies maxLength name us ++ copies maxLength name vs :=
  List.filter_append ..

namespace Cte

/-- The expressions of a name. -/
def named (name : String) (ctes : List Cte) : List Cte := ctes.filter (·.name == name)

@[simp] theorem named_append (name : String) (ctes more : List Cte) :
    named name (ctes ++ more) = named name ctes ++ named name more :=
  List.filter_append ..

theorem named_cons_same {cte : Cte} {ctes : List Cte} {name : String} (same : cte.name = name) :
    named name (cte :: ctes) = cte :: named name ctes :=
  List.filter_cons_of_pos (by simpa using same)

theorem named_cons_other {cte : Cte} {ctes : List Cte} {name : String} (other : cte.name ≠ name) :
    named name (cte :: ctes) = named name ctes :=
  List.filter_cons_of_neg (by simpa using other)

theorem mem_keys_complete {m other : NameMap α} {name : String} :
    name ∈ (complete m other).keys ↔ name ∈ m.keys ∨ name ∈ other.keys := by
  have step (m : NameMap α) (entry : String × α) :
      name ∈ (m.insertIfNew entry.1 entry.2).keys ↔ name ∈ m.keys ∨ name = entry.1 := by
    unfold NameMap.insertIfNew
    split
    · next held =>
      refine ⟨.inl, fun either => either.elim id fun same => ?_⟩
      exact same ▸ NameMap.contains_iff.mp held
    · rw [NameMap.mem_keys_insert, or_comm]
  have run (entries : List (String × α)) (m : NameMap α) :
      name ∈ (entries.foldl (fun m entry => m.insertIfNew entry.1 entry.2) m).keys ↔
        name ∈ m.keys ∨ name ∈ entries.map (·.1) := by
    induction entries generalizing m with
    | nil => simp
    | cons entry entries ih =>
      rw [List.foldl_cons, ih, step, List.map_cons, List.mem_cons, or_assoc]
  exact run other.entries m

/-- What a merger makes of the name and the source of the first expression. -/
theorem merge_ok {a b m : Cte} (made : a.merge b = .ok m) :
    m.name = a.name ∧ m.source =
      { a.source with
        sourceMap := complete a.source.sourceMap b.source.sourceMap
        outputs := Concept.unique (a.source.outputs ++ b.source.outputs) } := by
  unfold Cte.merge at made
  split at made
  · cases made
  · cases made
    exact ⟨rfl, rfl⟩

/-- An expression whose source has the inputs of the first of some queries, and the outputs and
source map entries of all. -/
structure Gathers (us : List Query) (cte : Cte) : Prop where
  inputs : us.head?.map (·.inputs) = some cte.source.inputs
  outputs : ∀ address, address ∈ Concept.addresses cte.source.outputs ↔
    ∃ u ∈ us, address ∈ Concept.addresses u.outputs
  keys : ∀ address, address ∈ cte.source.sourceMap.keys ↔ ∃ u ∈ us, address ∈ u.sourceMap.keys
  entries : ∀ entry ∈ cte.source.sourceMap.entries, ∃ u ∈ us, entry ∈ u.sourceMap.entries

theorem gathers_toCte (maxLength : Nat) (q : Query) (parents : Option (List (String × String))) :
    (q.toCte maxLength parents).Gathers [q] where
  inputs := rfl
  outputs _ := by simp [Query.toCte]
  keys _ := by simp [Query.toCte]
  entries _ member := ⟨q, List.mem_singleton.mpr rfl, member⟩

theorem Gathers.merge {us vs : List Query} {a b m : Cte} (first : a.Gathers us)
    (second : b.Gathers vs) (made : a.merge b = .ok m) : m.Gathers (us ++ vs) := by
  obtain ⟨_, source⟩ := merge_ok made
  refine ⟨?_, fun address => ?_, fun address => ?_, fun entry member => ?_⟩
  · obtain ⟨u, held, _⟩ := Option.map_eq_some_iff.mp first.inputs
    rw [source, List.head?_append, held, ← first.inputs, held]
    rfl
  · simp only [source, Concept.mem_addresses_unique, Concept.mem_addresses_append,
      first.outputs, second.outputs, List.mem_append, or_and_right, exists_or]
  · simp only [source, mem_keys_complete, first.keys, second.keys, List.mem_append, or_and_right,
      exists_or]
  · rw [source] at member
    rcases mem_of_mem_complete member with member | member
    · obtain ⟨u, listed, held⟩ := first.entries entry member
      exact ⟨u, List.mem_append_left _ listed, held⟩
    · obtain ⟨u, listed, held⟩ := second.entries entry member
      exact ⟨u, List.mem_append_right _ listed, held⟩

/-- Expressions that each gather the next few of some queries. -/
inductive Gathered : List Query → List Cte → Prop
  | nil : Gathered [] []
  | cons {us vs : List Query} {cte : Cte} {ctes : List Cte} :
      cte.Gathers us → Gathered vs ctes → Gathered (us ++ vs) (cte :: ctes)

theorem Gathered.append {us vs : List Query} {ctes more : List Cte} (first : Gathered us ctes)
    (second : Gathered vs more) : Gathered (us ++ vs) (ctes ++ more) := by
  induction first with
  | nil => exact second
  | cons own _ ih =>
    rw [List.append_assoc]
    exact .cons own ih

/-- There is one expression of the name, which gathers the queries, unless there are none. -/
inductive Collects (name : String) : List Query → List Cte → Prop
  | none {ctes : List Cte} : named name ctes = [] → Collects name [] ctes
  | one {us : List Query} {ctes : List Cte} {cte : Cte} :
      named name ctes = [cte] → cte.Gathers us → Collects name us ctes

theorem Collects.gathered {name : String} {us : List Query} {ctes : List Cte}
    (collects : Collects name us ctes) : Gathered us (named name ctes) := by
  cases collects with
  | none empty =>
    rw [empty]
    exact .nil
  | one single gathers =>
    rw [single, ← List.append_nil us]
    exact .cons gathers .nil

theorem named_absorb_other {incoming : Cte} {kept after : List Cte} {name : String}
    (other : incoming.name ≠ name) (absorbed : incoming.absorb kept = .ok after) :
    named name after = named name kept := by
  induction kept generalizing after with
  | nil =>
    cases absorbed
    exact named_cons_other other
  | cons cte rest ih =>
    rw [absorb] at absorbed
    split at absorbed
    · next same =>
      obtain ⟨m, made, done⟩ := bind_eq_ok.mp absorbed
      cases done
      have apart : cte.name ≠ name := by
        rw [beq_iff_eq.mp same]
        exact other
      rw [named_cons_other apart, named_cons_other ((merge_ok made).1 ▸ apart)]
    · obtain ⟨others, made, done⟩ := bind_eq_ok.mp absorbed
      cases done
      simp only [named, List.filter_cons]
      split
      · exact congrArg _ (ih made)
      · exact ih made

theorem named_absorb_same {incoming : Cte} {kept after : List Cte}
    (absorbed : incoming.absorb kept = .ok after) :
    (named incoming.name kept = [] ∧ named incoming.name after = [incoming]) ∨
      ∃ cte rest m, named incoming.name kept = cte :: rest ∧ cte.merge incoming = .ok m ∧
        named incoming.name after = m :: rest := by
  induction kept generalizing after with
  | nil =>
    cases absorbed
    exact .inl ⟨rfl, named_cons_same rfl⟩
  | cons cte rest ih =>
    rw [absorb] at absorbed
    split at absorbed
    · next same =>
      have same := beq_iff_eq.mp same
      obtain ⟨m, made, done⟩ := bind_eq_ok.mp absorbed
      cases done
      refine .inr ⟨cte, named incoming.name rest, m, named_cons_same same, made, ?_⟩
      exact named_cons_same ((merge_ok made).1.trans same)
    · next apart =>
      have apart : cte.name ≠ incoming.name := fun same => apart (beq_iff_eq.mpr same)
      obtain ⟨others, made, done⟩ := bind_eq_ok.mp absorbed
      cases done
      rw [named_cons_other apart, named_cons_other apart]
      exact ih made

/-- The expression of a name gathers the queries of a further expression of the name. -/
theorem Collects.absorb {name : String} {us vs : List Query} {incoming : Cte}
    {kept after : List Cte} (collects : Collects name us kept) (same : incoming.name = name)
    (gathers : incoming.Gathers vs) (absorbed : incoming.absorb kept = .ok after) :
    Collects name (us ++ vs) after := by
  subst same
  rcases named_absorb_same absorbed with ⟨empty, single⟩ | ⟨cte, rest, m, held, made, single⟩
  · cases collects with
    | none _ => exact .one single gathers
    | one held _ => cases held.symm.trans empty
  · cases collects with
    | none empty => cases empty.symm.trans held
    | one only first =>
      cases only.symm.trans held
      exact .one single (first.merge gathers made)

/-- The expression of a name gathers the queries of all expressions of the name that are merged. -/
theorem Collects.foldlM {name : String} {us vs : List Query} {ctes kept after : List Cte}
    (collects : Collects name us kept) (gathered : Gathered vs (named name ctes))
    (merged : ctes.foldlM (fun kept incoming => incoming.absorb kept) kept = .ok after) :
    Collects name (us ++ vs) after := by
  induction ctes generalizing us vs kept with
  | nil =>
    cases gathered
    cases merged
    rw [List.append_nil]
    exact collects
  | cons cte rest ih =>
    rw [List.foldlM_cons] at merged
    obtain ⟨next, absorbed, merged⟩ := bind_eq_ok.mp merged
    by_cases same : cte.name = name
    · rw [named_cons_same same] at gathered
      cases gathered with
      | cons own later =>
        rw [← List.append_assoc]
        exact ih (collects.absorb same own absorbed) later merged
    · rw [named_cons_other same] at gathered
      refine ih ?_ gathered merged
      have kept := named_absorb_other same absorbed
      cases collects with
      | none empty => exact .none (kept.trans empty)
      | one single gathers => exact .one (kept.trans single) gathers

theorem collects_mergeAll {name : String} {us : List Query} {ctes after : List Cte}
    (gathered : Gathered us (named name ctes)) (merged : mergeAll ctes = .ok after) :
    Collects name us after :=
  (Collects.none rfl).foldlM gathered merged

/-- The expression that is made for a query gathers it, under the name that it has. -/
theorem gathered_toCte (maxLength : Nat) (name : String) (q : Query)
    (parents : Option (List (String × String))) :
    Gathered (Query.copies maxLength name [q]) (named name [q.toCte maxLength parents]) := by
  by_cases same : q.cteName maxLength = name
  · rw [named_cons_same same, Query.copies, List.filter_cons_of_pos (by simpa using same)]
    exact .cons (gathers_toCte maxLength q parents) .nil
  · rw [named_cons_other same, Query.copies, List.filter_cons_of_neg (by simpa using same)]
    exact .nil

end Cte

open Cte

mutual

/-- Lowering gathers all queries of a name into the one expression of that name. -/
theorem Query.collects_lower {maxLength : Nat} (name : String) : (q : Query) → {ctes : List Cte} →
    q.lower maxLength = .ok ctes → Collects name (Query.copies maxLength name q.emitted) ctes
  | ⟨inputs, outputs, sourceMap, sources, grain, joins, sourceType, partials, condition, limit⟩,
    ctes, lowered => by
    let q : Query :=
      ⟨inputs, outputs, sourceMap, sources, grain, joins, sourceType, partials, condition, limit⟩
    rw [Query.emitted, Query.copies_append]
    rw [Query.lower] at lowered
    split at lowered
    · next direct =>
      rw [if_pos direct]
      exact collects_mergeAll (gathered_toCte maxLength name q none) lowered
    · next wraps =>
      rw [if_neg wraps]
      obtain ⟨⟨parents, below⟩, made, merged⟩ := bind_eq_ok.mp lowered
      refine collects_mergeAll ?_ merged
      rw [named_append]
      exact (Source.gathered_lowerAll name sources made).append
        (gathered_toCte maxLength name q (some parents))

theorem Source.collects_lower {maxLength : Nat} (name : String) : (s : Source) →
    {ctes : List Cte} → s.lower maxLength = .ok ctes →
    Collects name (Query.copies maxLength name s.emitted) ctes
  | .datasource d, ctes, lowered => by
    rw [Source.lower, Query.ofDatasource_eq] at lowered
    rw [Source.emitted]
    exact collects_mergeAll (gathered_toCte maxLength name d.query none) lowered
  | .query q, ctes, lowered => by
    rw [Source.lower] at lowered
    rw [Source.emitted]
    exact Query.collects_lower name q lowered

theorem Source.gathered_lowerAll {maxLength : Nat} (name : String) : (ss : List Source) →
    {parents : List (String × String)} → {ctes : List Cte} →
    Source.lowerAll maxLength ss = .ok (parents, ctes) →
    Gathered (Query.copies maxLength name (Source.emittedAll ss)) (named name ctes)
  | [], parents, ctes, lowered => by
    rw [Source.lowerAll] at lowered
    cases lowered
    rw [Source.emittedAll]
    exact .nil
  | s :: ss, parents, ctes, lowered => by
    rw [Source.lowerAll] at lowered
    obtain ⟨first, own, lowered⟩ := bind_eq_ok.mp lowered
    obtain ⟨⟨_, more⟩, others, lowered⟩ := bind_eq_ok.mp lowered
    cases lowered
    rw [Source.emittedAll, Query.copies_append, named_append]
    exact (Source.collects_lower name s own).gathered.append
      (Source.gathered_lowerAll name ss others)

end

theorem Cte.exists_copies {maxLength : Nat} {q : Query} {ctes : List Cte} {cte : Cte}
    (lowered : q.lower maxLength = .ok ctes) (listed : cte ∈ ctes) :
    ∃ first rest, Query.copies maxLength cte.name q.emitted = first :: rest ∧
      cte.Gathers (first :: rest) := by
  have held : cte ∈ named cte.name ctes := List.mem_filter.mpr ⟨listed, beq_self_eq_true _⟩
  have collects := Query.collects_lower cte.name q lowered
  generalize Query.copies maxLength cte.name q.emitted = us at collects ⊢
  cases collects with
  | none empty =>
    rw [empty] at held
    cases held
  | one single gathers =>
    rw [single] at held
    rw [← List.mem_singleton.mp held] at gathers
    cases us with
    | nil => cases gathers.inputs
    | cons first rest => exact ⟨first, rest, rfl, gathers⟩

/-- The source of an expression has the inputs of its first copy, the outputs of all copies, and a
source map with one entry for each of their inputs and outputs, which names at most one source. It
is a valid query if and only if each input of a further copy is one of the first copy, or is put out
by some copy. -/
theorem Query.fits_source_iff {n : Node} {q : Query} {maxLength : Nat} {ctes : List Cte} {cte : Cte}
    (resolved : n.resolve = .ok q) (lowered : q.lower maxLength = .ok ctes) (listed : cte ∈ ctes) :
    ∃ first rest, copies maxLength cte.name q.emitted = first :: rest ∧
      cte.source.inputs = first.inputs ∧
      (∀ address, address ∈ Concept.addresses cte.source.outputs ↔
        ∃ u ∈ first :: rest, address ∈ Concept.addresses u.outputs) ∧
      (∀ address, address ∈ cte.source.sourceMap.keys ↔
        ∃ u ∈ first :: rest, address ∈ Concept.addresses (u.outputs ++ u.inputs)) ∧
      (∀ entry ∈ cte.source.sourceMap.entries, entry.2.length ≤ 1) ∧
      (cte.source.Fits ↔ ∀ u ∈ rest, ∀ address ∈ Concept.addresses u.inputs,
        address ∈ Concept.addresses first.inputs ∨
          ∃ v ∈ first :: rest, address ∈ Concept.addresses v.outputs) := by
  obtain ⟨first, rest, copied, gathers⟩ := Cte.exists_copies lowered listed
  have fits : ∀ u ∈ first :: rest, u.Fits := by
    intro u member
    rw [← copied] at member
    have throughout := (n.settles_resolve_fits.ok resolved).2
    exact Query.Throughout.emitted Datasource.fits_query q throughout u
      (List.mem_filter.mp member).1
  have inputs : cte.source.inputs = first.inputs := (Option.some.inj gathers.inputs).symm
  have keys (address : String) : address ∈ cte.source.sourceMap.keys ↔
      ∃ u ∈ first :: rest, address ∈ Concept.addresses (u.outputs ++ u.inputs) := by
    refine (gathers.keys address).trans (exists_congr fun u => and_congr_right fun member => ?_)
    exact (misfit?_eq_none.mp (fits u member)).2 address
  have single : ∀ entry ∈ cte.source.sourceMap.entries, entry.2.length ≤ 1 := by
    intro entry member
    obtain ⟨u, copy, held⟩ := gathers.entries entry member
    exact (misfit?_eq_none.mp (fits u copy)).1 entry held
  refine ⟨first, rest, copied, inputs, gathers.outputs, keys, single, ?_⟩
  rw [Fits, misfit?_eq_none]
  constructor
  · rintro ⟨_, covers⟩ u member address read
    have copy : u ∈ first :: rest := List.mem_cons_of_mem _ member
    have held := (covers address).mp ((keys address).mpr
      ⟨u, copy, Concept.mem_addresses_append.mpr (.inr read)⟩)
    rw [Concept.mem_addresses_append, gathers.outputs, inputs] at held
    exact held.symm
  · refine fun shared => ⟨single, fun address => ?_⟩
    rw [keys, Concept.mem_addresses_append, gathers.outputs, inputs]
    constructor
    · rintro ⟨u, copy, held⟩
      rcases Concept.mem_addresses_append.mp held with output | read
      · exact .inl ⟨u, copy, output⟩
      · rcases List.mem_cons.mp copy with rfl | further
        · exact .inr read
        · exact (shared u further address read).symm
    · rintro (⟨u, copy, output⟩ | read)
      · exact ⟨u, copy, Concept.mem_addresses_append.mpr (.inl output)⟩
      · exact ⟨first, List.mem_cons_self, Concept.mem_addresses_append.mpr (.inr read)⟩

namespace Bakeries

def loaf : Concept := .key "loaf" .integer

def shop : Concept := .key "shop" .integer

def price : Concept := .property "price" .integer [loaf]

def weight : Concept := .property "weight" .integer [loaf]

def sales : Datasource :=
  .table "sales" [⟨"loaf", loaf, []⟩, ⟨"shop", shop, []⟩, ⟨"price", price, []⟩,
    ⟨"weight", weight, []⟩]

/-- The shops of the sales, for which a column is read too. -/
def shops (column : Concept) : Node := .of (.select (some sales)) [column, shop] [shop] [] 0

/-- The ranks of the shops by price, joined with the shops for which the column is read. -/
def ranking (column : Concept) : Node :=
  let rank := .property "rank" .integer [shop]
  .of (.merge []) [shop, rank] [shop, rank]
    [.of .window [shop] [rank, shop] [shops price] 0, shops column] 0

end Bakeries

open Bakeries in
theorem Query.fits_source_iff_ranking :
    ∃ q ctes cte first second rest, (ranking price).resolve = .ok q ∧ q.lower 63 = .ok ctes ∧
      cte ∈ ctes ∧ copies 63 cte.name q.emitted = first :: second :: rest ∧
      cte.source.inputs = first.inputs ∧ cte.source.Fits := by
  have settled : Settles (ranking price).resolve
      (fun q => Settles (q.lower 63)
        (fun ctes => ∃ cte ∈ ctes, 2 ≤ (copies 63 cte.name q.emitted).length ∧
          ∀ u ∈ copies 63 cte.name q.emitted, Concept.addresses u.inputs =
            [price.address, shop.address])
        fun _ => False)
      fun _ => False := by
    decide +kernel
  obtain ⟨q, resolved, settled⟩ := settled.exists_ok
  obtain ⟨ctes, lowered, cte, listed, several, alike⟩ := settled.exists_ok
  obtain ⟨first, rest, copied, inputs, _, _, _, valid⟩ := fits_source_iff resolved lowered listed
  rw [copied] at several alike
  have fits : cte.source.Fits := by
    refine valid.mpr fun u further address read => .inl ?_
    rw [alike first List.mem_cons_self, ← alike u (List.mem_cons_of_mem _ further)]
    exact read
  cases rest with
  | nil => simp at several
  | cons second rest =>
    exact ⟨q, ctes, cte, first, second, rest, resolved, lowered, listed, copied, inputs, fits⟩

open Bakeries in
/-- The weight is read by the second copy of the shops only, so it is in the source map of their
expression and neither an input nor an output. -/
theorem Query.lower_not_fits :
    ∃ q ctes, (ranking weight).resolve = .ok q ∧ q.lower 63 = .ok ctes ∧
      ∃ cte ∈ ctes, weight.address ∈ cte.source.sourceMap.keys ∧
        weight.address ∉ Concept.addresses (cte.source.outputs ++ cte.source.inputs) ∧
        ¬ cte.source.Fits := by
  have settled : Settles (ranking weight).resolve
      (fun q => Settles (q.lower 63)
        (fun ctes => ∃ cte ∈ ctes, weight.address ∈ cte.source.sourceMap.keys ∧
          weight.address ∉ Concept.addresses (cte.source.outputs ++ cte.source.inputs))
        fun _ => False)
      fun _ => False := by
    decide +kernel
  obtain ⟨q, resolved, settled⟩ := settled.exists_ok
  obtain ⟨ctes, lowered, cte, listed, held, missing⟩ := settled.exists_ok
  refine ⟨q, ctes, resolved, lowered, cte, listed, held, missing, fun fits => missing ?_⟩
  exact ((misfit?_eq_none.mp fits).2 _).mp held

end SemanticQuery
