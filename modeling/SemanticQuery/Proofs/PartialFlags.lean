import SemanticQuery.Concept.Declare
import SemanticQuery.Proofs.Condensing
import SemanticQuery.Proofs.WellFormed

/-!
Where complete outputs come from. An output that a query does not flag as partial is computed, or
completed by a full join on it, or read from a column that has every row, however many queries lie
between. The flag is lost only where a full join is asked for on a key that one of its sides lacks:
the key is dropped from the join, and yet the output counts as completed by it.
-/

namespace SemanticQuery

namespace Query

/-- The source map leads from an address to where all of its rows come from. -/
inductive ReadsWhole (address : String) : Query → Prop
  | computed {q : Query} : q.sourceMap.get? address = some [] → ReadsWhole address q
  | completed {q : Query} {j : SourceJoin} : j ∈ q.joins → j.joinType = .full →
      address ∈ Concept.addresses j.concepts → ReadsWhole address q
  | column {q : Query} {d : Datasource} {column : Column} :
      q.sourceFor? address = some (.datasource d) → d.column? address = some column →
      column.isPartial = false → ReadsWhole address q
  | nested {q r : Query} : q.sourceFor? address = some (.query r) → ReadsWhole address r →
      ReadsWhole address q

end Query

section Checking

mutual

/-- Follows the source map of a query. -/
def Query.readsWhole (address : String) : Query → Bool
  | ⟨_, _, sourceMap, sources, _, joins, _, _, _, _⟩ =>
    (joins.any fun j => j.joinType == .full && (Concept.addresses j.concepts).contains address) ||
      match sourceMap.get? address with
      | some [] => true
      | some (name :: _) => Source.readsWholeFrom address name sources
      | none => false

/-- Follows the source map of the first source of a name. -/
def Source.readsWholeFrom (address name : String) : List Source → Bool
  | [] => false
  | s :: ss =>
    if s.name == name then s.readsWhole address else Source.readsWholeFrom address name ss

def Source.readsWhole (address : String) : Source → Bool
  | .datasource d => (d.column? address).any (!·.isPartial)
  | .query q => q.readsWhole address

end

variable {address : String}

theorem Source.readsWholeFrom_eq (name : String) (sources : List Source) :
    readsWholeFrom address name sources =
      (sources.find? (·.name == name)).any (·.readsWhole address) := by
  induction sources with
  | nil => rfl
  | cons s ss ih =>
    rw [readsWholeFrom, List.find?_cons, ih]
    cases s.name == name <;> rfl

theorem Query.readsWhole_eq (q : Query) :
    q.readsWhole address = true ↔
      (∃ j ∈ q.joins, j.joinType = .full ∧ address ∈ Concept.addresses j.concepts) ∨
        q.sourceMap.get? address = some [] ∨
        (q.sourceFor? address).any (·.readsWhole address) = true := by
  obtain ⟨inputs, outputs, sourceMap, sources, grain, joins, sourceType, partials, condition,
    limit⟩ := q
  rw [readsWhole, sourceFor?]
  rcases sourceMap.get? address with _ | _ | ⟨name, names⟩
  · simp
  · simp
  · simp [Source.readsWholeFrom_eq]

theorem Query.ReadsWhole.check {q : Query} (whole : q.ReadsWhole address) :
    q.readsWhole address = true := by
  induction whole with
  | computed entry => exact (readsWhole_eq _).mpr (.inr (.inl entry))
  | completed member full key => exact (readsWhole_eq _).mpr (.inl ⟨_, member, full, key⟩)
  | column source bound whole =>
    refine (readsWhole_eq _).mpr (.inr (.inr ?_))
    simp [source, Source.readsWhole, bound, whole]
  | nested source _ ih =>
    refine (readsWhole_eq _).mpr (.inr (.inr ?_))
    simp [source, Source.readsWhole, ih]

end Checking

namespace Query

variable {address : String}

theorem ReadsWhole.withCondition {q : Query} (whole : q.ReadsWhole address)
    (condition : Option Condition) : { q with condition }.ReadsWhole address := by
  cases whole with
  | computed entry => exact .computed entry
  | completed member full key => exact .completed member full key
  | column source bound whole => exact .column source bound whole
  | nested source whole => exact .nested source whole

/-- A query of a new name is added at the end. -/
theorem absorb_of_new {incoming : Query} {kept : List Query}
    (new : ∀ q ∈ kept, q.identifier ≠ incoming.identifier) :
    incoming.absorb kept = .ok (kept ++ [incoming], kept.length) := by
  induction kept with
  | nil => rfl
  | cons q qs ih =>
    obtain ⟨apart, others⟩ := List.forall_mem_cons.mp new
    rw [absorb, if_neg (by simpa using apart), ih others]
    rfl

theorem dedupe_concat (queries : List Query) (q : Query) :
    dedupe (queries ++ [q]) = dedupe queries >>= fun kept =>
      q.absorb kept.1 >>= fun placed => .ok (placed.1, kept.2 ++ [placed.2]) := by
  rw [dedupe, List.foldlM_append]
  refine congrArg (dedupe queries >>= ·) (funext fun kept => ?_)
  rw [List.foldlM_cons]
  dsimp only
  cases q.absorb kept.1 with
  | error e => rfl
  | ok placed => rfl

/-- Queries of different names stay as they are. -/
theorem dedupe_of_nodup {queries : List Query} (distinct : (queries.map identifier).Nodup) :
    dedupe queries = .ok (queries, List.range queries.length) := by
  induction queries using List.reverseRecOn with
  | nil => rfl
  | append_singleton queries q ih =>
    rw [List.map_append, List.nodup_append] at distinct
    obtain ⟨before, _, apart⟩ := distinct
    have new : ∀ other ∈ queries, other.identifier ≠ q.identifier := fun other member =>
      apart _ (List.mem_map_of_mem member) _ (List.mem_map_of_mem (List.mem_singleton.mpr rfl))
    rw [dedupe_concat, ih before]
    change q.absorb queries >>= _ = _
    rw [absorb_of_new new, List.length_append, List.length_singleton, List.range_succ]
    rfl

end Query

/-- A key that both sides provide, or that is not allowed to be dropped, is a key of the join. -/
theorem SourceJoin.mem_of_of {left right : Source} {concepts : List Concept} {joinType : JoinType}
    {mutualOnly : Bool} {j : SourceJoin}
    (made : SourceJoin.of left right concepts joinType mutualOnly = .ok j) {c : Concept}
    (listed : c ∈ concepts)
    (shared : mutualOnly = true →
      left.provides c.address = true ∧ right.provides c.address = true) :
    j.joinType = joinType ∧ c ∈ j.concepts := by
  unfold SourceJoin.of at made
  split at made
  · cases made
  · dsimp only at made
    split at made
    · cases made
    · next complete =>
      split at made
      · cases made
      · cases made
        have both : left.provides c.address = true ∧ right.provides c.address = true := by
          by_cases dropped : mutualOnly = true
          · exact shared dropped
          · rw [if_neg dropped] at complete
            have present := List.findSome?_eq_none_iff.mp complete c listed
            split at present
            · cases present
            · split at present
              · cases present
              · next left right => exact ⟨by simpa using left, by simpa using right⟩
        exact ⟨rfl, List.mem_filter.mpr ⟨listed, by simp [both]⟩⟩

namespace Node

variable {n : Node} {address : String} {parents : List Query}

theorem get?_sourceMap (n : Node) (sources : String → List String)
    (listed : address ∈ Concept.addresses n.outputs) :
    (n.sourceMap sources).get? address = some (sources address) := by
  have member : address ∈ ((n.inputs ++ n.outputs).map
      fun c => (c.address, sources c.address)).map (·.1) := by
    rw [List.map_map]
    exact Concept.mem_addresses_append.mpr (.inr listed)
  obtain ⟨value, held, entry⟩ := NameMap.exists_get?_ofList member
  obtain ⟨c, _, same⟩ := List.mem_map.mp entry
  cases same
  exact held

/-- An address that some parent has complete is read from such a parent. -/
theorem provider_of_complete {q : Query} (member : q ∈ parents)
    (complete : address ∈ q.completeAddresses) :
    ∃ r ∈ parents, address ∈ r.completeAddresses ∧
      provider ((parents.map (·.identifier)).zip parents) address = [r.identifier] := by
  have named : (parents.map (·.identifier)).zip parents =
      parents.map fun q => (q.identifier, q) := by
    rw [List.map_prod_right_eq_zip]
  obtain ⟨provides, whole⟩ := Query.mem_completeAddresses.mp complete
  have found : (((parents.map fun q => (q.identifier, q)).filter (·.2.provides address)).find?
      (!·.2.isPartialFor address)).isSome = true := by
    rw [List.find?_isSome]
    refine ⟨(q.identifier, q), List.mem_filter.mpr ⟨?_, provides⟩, by simp [whole]⟩
    exact List.mem_map.mpr ⟨q, member, rfl⟩
  obtain ⟨first, found⟩ := Option.isSome_iff_exists.mp found
  obtain ⟨placed, provides⟩ := List.mem_filter.mp (List.mem_of_find?_eq_some found)
  obtain ⟨r, listed, rfl⟩ := List.mem_map.mp placed
  have whole := List.find?_some found
  refine ⟨r, listed, Query.mem_completeAddresses.mpr ⟨provides, by simpa using whole⟩, ?_⟩
  rw [named, provider, found]
  rfl

/-- The source of a name is the parent of that name. -/
theorem find?_query (distinct : (parents.map (·.identifier)).Nodup) {q : Query}
    (member : q ∈ parents) :
    (parents.map Source.query).find? (·.name == q.identifier) = some (.query q) := by
  have named : parents.find? (·.identifier == q.identifier) = some q := by
    induction parents with
    | nil => cases member
    | cons first rest ih =>
      obtain ⟨apart, distinct⟩ := List.nodup_cons.mp distinct
      rcases List.mem_cons.mp member with rfl | later
      · simp
      · have other : first.identifier ≠ q.identifier := fun same =>
          apart (List.mem_map.mpr ⟨q, later, same.symm⟩)
        rw [List.find?_cons_of_neg (by simpa using other)]
        exact ih distinct later
  rw [List.find?_map]
  change (parents.find? (·.identifier == q.identifier)).map Source.query = _
  rw [named]
  rfl

section Joins

variable {joins : List ParentJoin} {sourceJoins : List SourceJoin}

/-- Both sides of a full join that may drop keys provide an address if it is among the keys. -/
def Shares (address : String) (parents : List Query) (j : ParentJoin) : Prop :=
  j.joinType = .full → j.mutualOnly = true → address ∈ Concept.addresses j.concepts →
    ∀ i q, i = j.left ∨ i = j.right → parents[i]? = some q → q.provides address = true

theorem Shares.flip {j : ParentJoin} (shares : Shares address parents j) :
    Shares address parents j.flip := by
  intro full dropped key i q side found
  refine shares ?_ dropped key i q side.symm found
  cases kind : j.joinType with
  | full => rfl
  | _ =>
    rw [ParentJoin.flip, kind] at full
    cases full

theorem mutualOnly_of_between? {left right : Nat × Query} {j : ParentJoin}
    (made : ParentJoin.between? left right = some j) : j.mutualOnly = false := by
  unfold ParentJoin.between? at made
  split at made
  · cases made
    rfl
  · dsimp only at made
    split at made
    · cases made
    · cases made
      rfl

theorem mem_of_mem_movedJoins {given : List ParentJoin} {count : Nat} {j : ParentJoin}
    (moved : j ∈ movedJoins given (List.range count)) : j ∈ given := by
  obtain ⟨own, listed, moved⟩ := List.mem_filterMap.mp moved
  split at moved
  · next left right first second =>
    split at moved
    · cases moved
    · cases moved
      rw [List.getElem?_eq_some_iff] at first second
      obtain ⟨_, first⟩ := first
      obtain ⟨_, second⟩ := second
      rw [List.getElem_range] at first second
      rw [← first, ← second]
      exact listed
  · cases moved

/-- The joins of parents of different names share what the given joins share. -/
theorem shares_of_orderedJoins {given : List ParentJoin} {names : List String}
    (shared : ∀ j ∈ given, Shares address parents j)
    (ordered : orderedJoins given parents (List.range parents.length) names = .ok joins) :
    ∀ j ∈ joins, Shares address parents j := by
  have own : ∀ j ∈ candidates given parents (List.range parents.length),
      Shares address parents j := by
    intro j member
    unfold candidates at member
    split at member
    · obtain ⟨_, left, right, _, _, made⟩ := ParentJoin.of_mem_derive member
      intro _ dropped
      rw [mutualOnly_of_between? made] at dropped
      cases dropped
    · exact shared j (mem_of_mem_movedJoins member)
  have low : ∀ i ∈ List.range parents.length, i < parents.length := fun i => List.mem_range.mp
  intro j member
  rcases ((settles_orderedJoins low names).ok ordered).1 j member with listed | ⟨k, listed, rfl⟩
  · exact own j listed
  · exact (own k listed).flip

/-- A key of a full join of the parents is a key of a full join of the query. -/
theorem exists_full_join (shared : ∀ j ∈ joins, Shares address parents j)
    (made : joins.mapM (·.toSourceJoin (parents.map .query)) = .ok sourceJoins)
    (key : address ∈ fullKeys joins) :
    ∃ j ∈ sourceJoins, j.joinType = .full ∧ address ∈ Concept.addresses j.concepts := by
  obtain ⟨j, full, listed⟩ := List.mem_flatMap.mp key
  obtain ⟨member, full⟩ := List.mem_filter.mp full
  obtain ⟨c, concept, rfl⟩ := List.mem_map.mp listed
  have step : j.toSourceJoin (parents.map .query) ∈ sourceJoins.map Except.ok := by
    rw [← mapM_eq_ok.mp made]
    exact List.mem_map_of_mem member
  obtain ⟨join, placed, done⟩ := List.mem_map.mp step
  obtain ⟨left, first, done⟩ := bind_eq_ok.mp done.symm
  obtain ⟨right, second, done⟩ := bind_eq_ok.mp done
  have provides {i : Nat} {s : Source} (side : i = j.left ∨ i = j.right)
      (found : ParentJoin.source (parents.map .query) i = .ok s) (dropped : j.mutualOnly = true) :
      s.provides c.address = true := by
    have placed := (ParentJoin.settles_source _ i).ok found
    rw [List.getElem?_map] at placed
    obtain ⟨q, parent, rfl⟩ := Option.map_eq_some_iff.mp placed
    exact shared j member (by simpa using full) dropped listed i q side parent
  obtain ⟨kind, kept⟩ := SourceJoin.mem_of_of done concept fun dropped =>
    ⟨provides (.inl rfl) first dropped, provides (.inr rfl) second dropped⟩
  exact ⟨join, placed, kind.trans (by simpa using full), List.mem_map_of_mem kept⟩

end Joins

/-- No full join of a node lists an address among its keys that one of its sides lacks, unless a
lacking key is refused. -/
def KeepsKey (address : String) (n : Node) : Prop :=
  ∀ j ∈ n.kind.joins, j.joinType = .full → j.mutualOnly = true →
    address ∈ Concept.addresses j.concepts → ∀ i ∈ [j.left, j.right],
      ∀ parent ∈ n.parents[i]?, address ∈ Concept.addresses parent.outputs

instance {address : String} : DecidablePred (KeepsKey address) := fun n =>
  inferInstanceAs (Decidable (∀ j ∈ n.kind.joins, _))

/-- The parents of a node resolve to queries of different names. -/
def ParentsApart (n : Node) : Prop :=
  Settles (resolveAll n.parents) (fun queries => (queries.map (·.identifier)).Nodup) fun _ => True

instance : DecidablePred ParentsApart := fun n =>
  inferInstanceAs (Decidable (Settles (resolveAll n.parents) _ _))

theorem KeepsKey.shares {queries : List Query} (keeps : n.KeepsKey address)
    (resolved : resolveAll n.parents = .ok queries) :
    ∀ j ∈ n.kind.joins, Shares address queries j := by
  intro j member full dropped key i q side found
  rw [resolveAll_eq, mapM_eq_ok] at resolved
  have step : (n.parents.map resolve)[i]? = some (.ok q) := by
    rw [resolved, List.getElem?_map, found]
    rfl
  rw [List.getElem?_map] at step
  obtain ⟨parent, placed, step⟩ := Option.map_eq_some_iff.mp step
  have listed := keeps j member full dropped key i (by simpa using side) parent placed
  rw [← Concept.mem_addresses_unique, ← outputs_resolve step] at listed
  obtain ⟨c, output, same⟩ := List.mem_map.mp listed
  exact Query.provides_iff.mpr ⟨c, output, same⟩

/-- What a node flags is not complete in its query. -/
theorem unflagged_of_complete {q : Query} {flagged : String → Bool}
    (outputs : q.outputs = Concept.unique n.outputs)
    (partials : q.partials =
      Concept.unique (n.outputs.filter (fun c => flagged c.address) ++ n.partials))
    (complete : address ∈ q.completeAddresses) :
    address ∈ Concept.addresses n.outputs ∧ flagged address = false := by
  obtain ⟨provides, whole⟩ := Query.mem_completeAddresses.mp complete
  obtain ⟨c, output, rfl⟩ := Query.provides_iff.mp provides
  rw [outputs] at output
  have listed := Concept.mem_of_mem_unique output
  refine ⟨List.mem_map_of_mem listed, ?_⟩
  by_contra flag
  have member : c.address ∈ Concept.addresses q.partials := by
    rw [partials, Concept.mem_addresses_unique, Concept.mem_addresses_append]
    exact .inl (List.mem_map_of_mem (List.mem_filter.mpr ⟨listed, by simpa using flag⟩))
  obtain ⟨other, flagged, same⟩ := List.mem_map.mp member
  rw [Query.isPartialFor, List.any_eq_false] at whole
  exact whole other flagged (by simp [same])

theorem readsWhole_tableQuery (n : Node) (d : Datasource)
    (complete : address ∈ (n.tableQuery d).completeAddresses) :
    (n.tableQuery d).ReadsWhole address := by
  obtain ⟨listed, whole⟩ :
      address ∈ Concept.addresses n.outputs ∧ d.isPartialFor address = false :=
    unflagged_of_complete rfl rfl complete
  have entry : (n.tableQuery d).sourceMap.get? address =
      some (if d.provides address then [d.fullName] else []) := n.get?_sourceMap _ listed
  cases bound : d.column? address with
  | none => exact .computed (by simpa [Datasource.provides, bound] using entry)
  | some column =>
    refine .column (d := d) ?_ bound (by simpa [Datasource.isPartialFor, bound] using whole)
    rw [if_pos (by rw [Datasource.provides, bound]; rfl)] at entry
    rw [Query.sourceFor?, entry]
    simp [tableQuery, Source.name]

theorem readsWhole_joinedQuery {joins : List ParentJoin} {sourceJoins : List SourceJoin}
    (distinct : (parents.map (·.identifier)).Nodup)
    (shared : ∀ j ∈ joins, Shares address parents j)
    (made : joins.mapM (·.toSourceJoin (parents.map .query)) = .ok sourceJoins)
    (below : ∀ q ∈ parents, address ∈ q.completeAddresses → q.ReadsWhole address)
    (complete : address ∈ (n.joinedQuery parents joins sourceJoins).completeAddresses) :
    (n.joinedQuery parents joins sourceJoins).ReadsWhole address := by
  obtain ⟨listed, whole⟩ :
      address ∈ Concept.addresses n.outputs ∧
        isPartialIn parents (fullKeys joins) address = false :=
    unflagged_of_complete rfl rfl complete
  have entry : (n.joinedQuery parents joins sourceJoins).sourceMap.get? address =
      some (provider ((parents.map (·.identifier)).zip parents) address) :=
    n.get?_sourceMap _ listed
  by_cases key : address ∈ fullKeys joins
  · obtain ⟨j, member, full, key⟩ := exists_full_join shared made key
    exact .completed member full key
  by_cases provided : ∃ q ∈ parents, address ∈ q.completeAddresses
  · obtain ⟨q, member, complete⟩ := provided
    obtain ⟨r, parent, complete, read⟩ := provider_of_complete member complete
    refine .nested ?_ (below r parent complete)
    rw [Query.sourceFor?, entry, read]
    exact find?_query distinct parent
  · rcases provider_cases parents address with ⟨q, member, provides, _⟩ | ⟨_, read⟩
    · -- every parent that has the address flags it, so the query would
      have flag : isPartialIn parents (fullKeys joins) address = true := by
        push Not at provided
        simp only [Query.mem_completeAddresses, not_and, Bool.not_eq_false] at provided
        have providers : q ∈ parents.filter (·.provides address) :=
          List.mem_filter.mpr ⟨member, provides⟩
        simp only [isPartialIn, Bool.and_eq_true, Bool.not_eq_true', List.isEmpty_eq_false_iff]
        refine ⟨⟨List.ne_nil_of_mem providers, ?_⟩, by simpa using key⟩
        rw [List.all_eq_true]
        intro other listed
        obtain ⟨parent, provides⟩ := List.mem_filter.mp listed
        exact provided other parent provides
      rw [flag] at whole
      cases whole
    · rw [read] at entry
      exact .computed entry

/-- An output that is not flagged as partial is computed, completed by a full join, or read from a
column that has every row, if no full join lists it as a key that one of its sides lacks. -/
theorem readsWhole_of_complete {n : Node} {q : Query} (resolved : n.resolve = .ok q)
    (apart : n.Throughout ParentsApart) {address : String}
    (keeps : n.Throughout (KeepsKey address)) (complete : address ∈ q.completeAddresses) :
    q.ReadsWhole address := by
  induction n using induct generalizing q with
  | step n ih =>
    obtain ⟨own, above⟩ := throughout_iff.mp apart
    obtain ⟨kept, keepsAbove⟩ := throughout_iff.mp keeps
    obtain ⟨made, rfl, way⟩ := resolve_cases resolved
    have complete : address ∈ made.completeAddresses := complete
    refine Query.ReadsWhole.withCondition ?_ _
    rcases way with ⟨d, _, query⟩ | ⟨_, query⟩ | ⟨_, queries, parents, query⟩
    · rw [resolveDatasource_eq] at query
      cases query
      exact n.readsWhole_tableQuery d complete
    · rw [resolveConstants_eq] at query
      cases query
      obtain ⟨provides, _⟩ := Query.mem_completeAddresses.mp complete
      obtain ⟨c, output, rfl⟩ := Query.provides_iff.mp provides
      exact .computed (n.get?_sourceMap _ (List.mem_map_of_mem (Concept.mem_of_mem_unique output)))
    · have distinct := own.ok parents
      rw [resolveParents_eq, Query.dedupe_of_nodup distinct] at query
      obtain ⟨_, same, query⟩ := bind_eq_ok.mp query
      cases same
      obtain ⟨joins, ordered, query⟩ := bind_eq_ok.mp query
      obtain ⟨sourceJoins, joined, query⟩ := bind_eq_ok.mp query
      cases query
      refine readsWhole_joinedQuery distinct (shares_of_orderedJoins (kept.shares parents) ordered)
        joined (fun r member complete => ?_) complete
      obtain ⟨parent, listed, resolved⟩ := exists_of_mem_resolveAll parents member
      exact ih parent listed resolved (above parent listed) (keepsAbove parent listed) complete

end Node

namespace Ledger

def order : Concept := .key "order" .integer

def region : Concept := .key "region" .string

/-- Neither of the tables has the region of every order. -/
def recent : Datasource := .table "recent" [⟨"order", order, []⟩, ⟨"region", region, [.incomplete]⟩]

def archive : Datasource :=
  .table "archive" [⟨"order", order, []⟩, ⟨"region", region, [.incomplete]⟩]

def numbers : Datasource := .table "numbers" [⟨"order", order, []⟩]

def reading (d : Datasource) : Node := .of (.select (some d)) d.concepts d.concepts [] 0

def joining (joins : List ParentJoin) (left right : Node) : Node :=
  .of (.merge joins) [order, region] [order, region] [left, right] 0

def fullJoin : ParentJoin := ⟨0, 1, [order, region], .full, true⟩

/-- The full join of the two tables has every region. -/
def joint : Node :=
  joining [] (joining [fullJoin] (reading recent) (reading archive)) (reading numbers)

/-- Only one side of the join has regions, so that these are not among its keys. -/
def clipped : Node := joining [fullJoin] (reading recent) (reading numbers)

theorem throughout_reading {holds : Node → Prop} {d : Datasource} (own : holds (reading d)) :
    (reading d).Throughout holds := by
  refine Node.throughout_iff.mpr ⟨own, fun parent listed => ?_⟩
  cases listed

theorem throughout_joining {holds : Node → Prop} {joins : List ParentJoin} {left right : Node}
    (own : holds (joining joins left right)) (first : left.Throughout holds)
    (second : right.Throughout holds) : (joining joins left right).Throughout holds := by
  refine Node.throughout_iff.mpr ⟨own, fun parent listed => ?_⟩
  rcases List.mem_pair.mp listed with rfl | rfl
  · exact first
  · exact second

end Ledger

theorem Node.readsWhole_joint :
    ∃ q, Ledger.joint.resolve = .ok q ∧ Ledger.joint.Throughout Node.ParentsApart ∧
      Ledger.joint.Throughout (Node.KeepsKey Ledger.region.address) ∧
      Ledger.region.address ∈ q.completeAddresses ∧ q.ReadsWhole Ledger.region.address := by
  have settled : Settles Ledger.joint.resolve
      (fun q => Ledger.region.address ∈ q.completeAddresses) fun _ => False := by
    decide +kernel
  obtain ⟨q, resolved, complete⟩ := settled.exists_ok
  have apart : Ledger.joint.Throughout Node.ParentsApart :=
    Ledger.throughout_joining (by decide +kernel)
      (Ledger.throughout_joining (by decide +kernel)
        (Ledger.throughout_reading (by decide +kernel))
        (Ledger.throughout_reading (by decide +kernel)))
      (Ledger.throughout_reading (by decide +kernel))
  have keeps : Ledger.joint.Throughout (Node.KeepsKey Ledger.region.address) :=
    Ledger.throughout_joining (by decide +kernel)
      (Ledger.throughout_joining (by decide +kernel)
        (Ledger.throughout_reading (by decide +kernel))
        (Ledger.throughout_reading (by decide +kernel)))
      (Ledger.throughout_reading (by decide +kernel))
  exact ⟨q, resolved, apart, keeps, complete,
    Node.readsWhole_of_complete resolved apart keeps complete⟩

/-- A full join that drops a key leaves the address unflagged, though all its rows come from a
partial column. -/
theorem Node.complete_not_readsWhole :
    Ledger.clipped.Throughout Node.ParentsApart ∧
      ∃ q, Ledger.clipped.resolve = .ok q ∧
        Ledger.region.address ∈ q.completeAddresses ∧ ¬ q.ReadsWhole Ledger.region.address := by
  have settled : Settles Ledger.clipped.resolve
      (fun q => Ledger.region.address ∈ q.completeAddresses ∧
        q.readsWhole Ledger.region.address = false) fun _ => False := by
    decide +kernel
  obtain ⟨q, resolved, complete, lost⟩ := settled.exists_ok
  refine ⟨?_, q, resolved, complete, fun whole => ?_⟩
  · exact Ledger.throughout_joining (by decide +kernel)
      (Ledger.throughout_reading (by decide +kernel))
      (Ledger.throughout_reading (by decide +kernel))
  · rw [whole.check] at lost
    cases lost

end SemanticQuery
