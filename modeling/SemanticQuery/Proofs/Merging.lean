import SemanticQuery.Proofs.Resolution

/-!
Mergers of queries. Queries of one name are merged together with the queries of one name that are
nested in them, so what mergers keep is stated of a query and of all that is nested in it. A merger
fails only if two queries of one name differ in grain or source type.
-/

namespace SemanticQuery

mutual

/-- A query and the queries that are nested in it. -/
def Query.nested : Query → List Query
  | ⟨inputs, outputs, sourceMap, sources, grain, joins, sourceType, partials, condition, limit⟩ =>
    ⟨inputs, outputs, sourceMap, sources, grain, joins, sourceType, partials, condition, limit⟩ ::
      Source.nestedAll sources

def Source.nested : Source → List Query
  | .datasource _ => []
  | .query q => q.nested

def Source.nestedAll : List Source → List Query
  | [] => []
  | s :: ss => s.nested ++ Source.nestedAll ss

end

theorem Source.mem_nestedAll {ss : List Source} {u : Query} :
    u ∈ nestedAll ss ↔ ∃ s ∈ ss, u ∈ s.nested := by
  induction ss with
  | nil => simp [nestedAll]
  | cons s ss ih => simp [nestedAll, ih]

theorem Query.mem_nested {q u : Query} :
    u ∈ q.nested ↔ u = q ∨ ∃ s ∈ q.sources, u ∈ s.nested := by
  cases q
  rw [nested, List.mem_cons, Source.mem_nestedAll]

theorem Query.mem_nested_self (q : Query) : q ∈ q.nested := mem_nested.mpr (.inl rfl)

/-- What holds of a query and of all queries nested in it. -/
def Query.Throughout (holds : Query → Prop) (q : Query) : Prop := ∀ u ∈ q.nested, holds u

def Source.Throughout (holds : Query → Prop) (s : Source) : Prop := ∀ u ∈ s.nested, holds u

theorem Query.throughout_iff {holds : Query → Prop} {q : Query} :
    q.Throughout holds ↔ holds q ∧ ∀ s ∈ q.sources, s.Throughout holds := by
  constructor
  · intro all
    refine ⟨all q q.mem_nested_self, fun s listed u below => all u ?_⟩
    exact mem_nested.mpr (.inr ⟨s, listed, below⟩)
  · rintro ⟨own, below⟩ u member
    rcases mem_nested.mp member with rfl | ⟨s, listed, member⟩
    · exact own
    · exact below s listed u member

theorem Source.throughout_query {holds : Query → Prop} {q : Query} :
    (Source.query q).Throughout holds ↔ q.Throughout holds := by
  simp only [Source.Throughout, Query.Throughout, nested]

/-- How a merger fails. -/
inductive PlanError.IsClash : PlanError → Prop
  | grain (left right leftGrain rightGrain : String) :
      IsClash (.grainMismatch left right leftGrain rightGrain)
  | sourceType (left right : String) : IsClash (.sourceTypeMismatch left right)

namespace Query

/-- The source map of the query is one that queries may have. -/
def Fits (q : Query) : Prop := misfit? q.sourceMap q.inputs q.outputs = none

theorem mem_keys_mergeSourceMaps {a b : SourceMap} {address : String} :
    address ∈ (mergeSourceMaps a b).keys ↔ address ∈ a.keys ∨ address ∈ b.keys := by
  unfold mergeSourceMaps NameMap.keys
  induction b.entries generalizing a with
  | nil => simp
  | cons entry entries ih =>
    rw [List.foldl_cons, ih, List.map_cons, List.mem_cons]
    split
    · next first rest held =>
      -- the address is there already
      have listed : entry.1 ∈ a.keys := by
        by_contra absent
        rw [NameMap.get?_eq_none_iff.mpr absent] at held
        cases held
      have kept : address = entry.1 → address ∈ a.keys := fun same => same ▸ listed
      unfold NameMap.keys at kept
      tauto
    · have added := @NameMap.mem_keys_insert _ a entry.1 address entry.2
      unfold NameMap.keys at added
      tauto

theorem mem_of_mem_mergeSourceMaps {a b : SourceMap} {entry : String × List String}
    (member : entry ∈ (mergeSourceMaps a b).entries) : entry ∈ a.entries ∨ entry ∈ b.entries := by
  unfold mergeSourceMaps at member
  revert member
  induction b.entries generalizing a with
  | nil => exact .inl
  | cons first rest ih =>
    intro member
    rw [List.foldl_cons] at member
    rcases ih member with placed | later
    · split at placed
      · exact .inl placed
      · rcases NameMap.mem_entries_insert placed with rfl | old
        · exact .inr List.mem_cons_self
        · exact .inl old
    · exact .inr (List.mem_cons_of_mem _ later)

/-- The merger of two queries, given that of their sources. -/
def merged (a b : Query) (sources : List Source) : Query where
  inputs := Concept.unique (a.inputs ++ b.inputs)
  outputs := Concept.unique (a.outputs ++ b.outputs)
  sourceMap := mergeSourceMaps a.sourceMap b.sourceMap
  sources := sources
  grain := a.grain
  joins := mergeJoins a.joins b.joins
  sourceType := a.sourceType
  partials := Concept.unique
    (a.partials.filter (fun c => !b.completeAddresses.contains c.address) ++
      b.partials.filter (fun c => !a.completeAddresses.contains c.address))
  condition := Condition.both a.condition b.condition
  limit := a.limit <|> b.limit

theorem Fits.merged {a b : Query} (left : a.Fits) (right : b.Fits) (sources : List Source) :
    (a.merged b sources).Fits := by
  obtain ⟨leftSingle, leftKeys⟩ := misfit?_eq_none.mp left
  obtain ⟨rightSingle, rightKeys⟩ := misfit?_eq_none.mp right
  refine misfit?_eq_none.mpr ⟨fun entry member => ?_, fun address => ?_⟩
  · rcases mem_of_mem_mergeSourceMaps member with member | member
    · exact leftSingle entry member
    · exact rightSingle entry member
  · have keys : address ∈ (a.merged b sources).sourceMap.keys ↔ _ := mem_keys_mergeSourceMaps
    rw [keys, leftKeys, rightKeys]
    simp only [Query.merged, Concept.mem_addresses_append, Concept.mem_addresses_unique]
    tauto

/-- One step of a merger of queries whose source maps fit. -/
theorem mergeWith_eq {a b : Query} (left : a.Fits) (right : b.Fits)
    (mergeNested : Query → Query → Except PlanError Query) :
    mergeWith mergeNested a b =
      if !a.grain.same b.grain then
        .error (.grainMismatch a.identifier b.identifier a.grain.display b.grain.display)
      else if a.sourceType != b.sourceType then
        .error (.sourceTypeMismatch a.identifier b.identifier)
      else
        (a.sources ++ b.sources).foldlM (fun kept incoming => incoming.absorb mergeNested kept) []
          >>= fun sources => .ok (a.merged b sources) := by
  have made (sources : List Source) :
      Query.of (a.inputs ++ b.inputs) (a.outputs ++ b.outputs)
          (mergeSourceMaps a.sourceMap b.sourceMap) sources a.grain (mergeJoins a.joins b.joins)
          a.sourceType =
        .ok { a.merged b sources with partials := [], condition := none, limit := none } :=
    of_eq_ok.mpr ⟨left.merged right sources, rfl⟩
  unfold mergeWith
  split
  · rfl
  · split
    · rfl
    · simp only [made]
      rfl

end Query

/-- What a source and the sources before it have, and mergers of queries of one name keep, all have
after the source is added. -/
theorem Source.settles_absorb {holds : Source → Prop} {fails : PlanError → Prop}
    {mergeNested : Query → Query → Except PlanError Query} {incoming : Source} {kept : List Source}
    (mergers : ∀ q r, .query q ∈ kept → incoming = .query r → q.identifier = r.identifier →
      Settles (mergeNested q r) (fun m => holds (.query m)) fails)
    (new : holds incoming) (old : ∀ s ∈ kept, holds s) :
    Settles (incoming.absorb mergeNested kept) (fun ss => ∀ s ∈ ss, holds s) fails := by
  induction kept with
  | nil =>
    intro s listed
    rw [List.mem_singleton.mp listed]
    exact new
  | cons s ss ih =>
    obtain ⟨first, rest⟩ := List.forall_mem_cons.mp old
    unfold absorb
    split
    · next same =>
      split
      · next q r =>
        have named : q.identifier = r.identifier := by simpa [name] using same
        refine (mergers q r List.mem_cons_self rfl named).bind fun m made => ?_
        exact List.forall_mem_cons.mpr ⟨made, rest⟩
      · exact old
    · have later := ih (fun q r member => mergers q r (List.mem_cons_of_mem _ member)) rest
      exact later.bind fun ss made => List.forall_mem_cons.mpr ⟨first, made⟩

/-- What sources have, and mergers of queries of one name keep, all merged sources have. -/
theorem Source.settles_foldlM_absorb (holds : Source → Prop) {fails : PlanError → Prop}
    {mergeNested : Query → Query → Except PlanError Query} {ss : List Source}
    (mergers : ∀ q r, holds (.query q) → holds (.query r) → q.identifier = r.identifier →
      Settles (mergeNested q r) (fun m => holds (.query m)) fails)
    (all : ∀ s ∈ ss, holds s) :
    Settles (ss.foldlM (fun kept incoming => incoming.absorb mergeNested kept) [])
      (fun out => ∀ s ∈ out, holds s) fails := by
  refine .foldlM (fun kept incoming listed old => ?_) (by simp)
  refine settles_absorb (fun q r member same named => ?_) (all incoming listed) old
  exact mergers q r (old _ member) (same ▸ all incoming listed) named

section Keeping

/-!
A property that every single merger keeps is kept throughout nested queries.
-/

variable {holds : Query → Prop}

namespace Query

variable (fits : ∀ q, holds q → q.Fits)
  (merges : ∀ a b sources, holds a → holds b → holds (a.merged b sources))

include fits merges

theorem settles_mergeWithin {depth : Nat} {a b : Query} (left : a.Throughout holds)
    (right : b.Throughout holds) :
    Settles (mergeWithin depth a b) (Throughout holds) PlanError.IsClash := by
  induction depth generalizing a b with
  | zero => exact left
  | succ depth ih =>
    obtain ⟨leftOwn, leftBelow⟩ := throughout_iff.mp left
    obtain ⟨rightOwn, rightBelow⟩ := throughout_iff.mp right
    rw [mergeWithin, mergeWith_eq (fits a leftOwn) (fits b rightOwn)]
    split
    · exact .grain _ _ _ _
    · split
      · exact .sourceType _ _
      · have all : ∀ s ∈ a.sources ++ b.sources, s.Throughout holds := fun s listed =>
          (List.mem_append.mp listed).elim (leftBelow s) (rightBelow s)
        have sources := Source.settles_foldlM_absorb (·.Throughout holds)
          (fun q r first second _ =>
            (ih (Source.throughout_query.mp first) (Source.throughout_query.mp second)).weaken
              (fun m => Source.throughout_query.mpr) fun _ clash => clash) all
        refine sources.bind fun ss made => ?_
        exact throughout_iff.mpr ⟨merges a b ss leftOwn rightOwn, made⟩

theorem settles_absorb {incoming : Query} {kept : List Query} (new : incoming.Throughout holds)
    (old : ∀ q ∈ kept, q.Throughout holds) :
    Settles (incoming.absorb kept)
      (fun out => (∀ q ∈ out.1, q.Throughout holds) ∧ out.2 < out.1.length ∧
        kept.length ≤ out.1.length)
      PlanError.IsClash := by
  induction kept with
  | nil => exact ⟨by simpa using new, by simp, by simp⟩
  | cons q qs ih =>
    obtain ⟨first, rest⟩ := List.forall_mem_cons.mp old
    rw [absorb]
    split
    · refine (settles_mergeWithin fits merges first new).bind fun m made => ?_
      exact ⟨List.forall_mem_cons.mpr ⟨made, rest⟩, by simp, by simp⟩
    · refine (ih rest).bind fun (out, index) ⟨made, low, longer⟩ => ?_
      refine ⟨List.forall_mem_cons.mpr ⟨first, made⟩, ?_, ?_⟩
      · simpa using low
      · simpa using longer

/-- Queries are deduplicated into queries of the same property, unless they clash; the positions are
those of queries. -/
theorem settles_dedupe {queries : List Query} (all : ∀ q ∈ queries, q.Throughout holds) :
    Settles (dedupe queries)
      (fun out => (∀ q ∈ out.1, q.Throughout holds) ∧ ∀ i ∈ out.2, i < out.1.length)
      PlanError.IsClash := by
  refine .foldlM (fun (kept, positions) incoming listed ⟨old, low⟩ => ?_) (by simp)
  refine (settles_absorb fits merges (all incoming listed) old).bind fun (out, index) => ?_
  rintro ⟨made, added, longer⟩
  refine ⟨made, fun i member => ?_⟩
  rcases List.mem_append.mp member with member | member
  · exact Nat.lt_of_lt_of_le (low i member) longer
  · rw [List.mem_singleton.mp member]
    exact added

end Query

end Keeping

end SemanticQuery
