import SemanticQuery.Concept.Declare
import SemanticQuery.Plan.Search
import SemanticQuery.Proofs.Condensing
import SemanticQuery.Proofs.WellFormed

/-!
Stacks of nodes. A stack that covers a request and can be joined is joined into one query for the
request, although parents of one name are merged first: the merged parents share what the parents
share, so the graph of the joins is contracted, and what was connected stays so.
-/

namespace SemanticQuery

namespace ParentJoin

/-- Queries between which there is a join. -/
def Joinable (a b : Query) : Prop :=
  isKeyless a = true ∨ isKeyless b = true ∨
    ∃ c ∈ a.outputs, isJoinKey c = true ∧ b.provides c.address = true

theorem isSome_between? {i k : Nat} {a b : Query} :
    (between? (i, a) (k, b)).isSome = true ↔ Joinable a b := by
  unfold between? Joinable
  dsimp only
  split
  · next keyless =>
    rw [Bool.or_eq_true] at keyless
    simp only [Option.isSome_some, true_iff]
    tauto
  · next keyed =>
    rw [Bool.or_eq_true, not_or] at keyed
    split
    · next none =>
      simp only [Option.isSome_none, Bool.false_eq_true, false_iff]
      have absent := List.filter_eq_nil_iff.mp (List.isEmpty_iff.mp none)
      simp only [Bool.and_eq_true] at absent
      rintro (left | right | ⟨c, listed, key, shared⟩)
      · exact keyed.1 left
      · exact keyed.2 right
      · exact absent c listed ⟨key, shared⟩
    · next some =>
      simp only [Option.isSome_some, true_iff]
      obtain ⟨c, member⟩ := List.exists_mem_of_ne_nil _ (mt List.isEmpty_iff.mpr some)
      obtain ⟨listed, shares⟩ := List.mem_filter.mp member
      rw [Bool.and_eq_true] at shares
      exact .inr (.inr ⟨c, listed, shares⟩)

/-- The keys of a derived join are put out on both sides. -/
theorem provides_of_between? {i k : Nat} {a b : Query} {j : ParentJoin}
    (made : between? (i, a) (k, b) = some j) :
    ∀ c ∈ j.concepts, a.provides c.address = true ∧ b.provides c.address = true := by
  unfold between? at made
  split at made
  · cases made
    simp
  · dsimp only at made
    split at made
    · cases made
    · cases made
      intro c member
      obtain ⟨listed, shares⟩ := List.mem_filter.mp member
      rw [Bool.and_eq_true] at shares
      exact ⟨Query.provides_iff.mpr ⟨c, listed, rfl⟩, shares.2⟩

theorem joinable_of_adjacent {parents : List Query} {i k : Nat}
    (adjacent : Adjacent (edges (derive parents)) i k) :
    ∃ a b, parents[i]? = some a ∧ parents[k]? = some b ∧ (Joinable a b ∨ Joinable b a) := by
  obtain ⟨j, listed, sides⟩ := adjacent_edges.mp adjacent
  obtain ⟨_, left, right, first, second, made⟩ := of_mem_derive listed
  have joinable : Joinable left right := isSome_between?.mp (Option.isSome_of_eq_some made)
  rcases sides with ⟨rfl, rfl⟩ | ⟨rfl, rfl⟩
  · exact ⟨left, right, first, second, .inl joinable⟩
  · exact ⟨right, left, second, first, .inr joinable⟩

theorem adjacent_of_joinable {parents : List Query} {i k : Nat} {a b : Query}
    (first : parents[i]? = some a) (second : parents[k]? = some b) (apart : i ≠ k)
    (joinable : Joinable a b) (converse : Joinable b a) :
    Adjacent (edges (derive parents)) i k := by
  have different : ((i, a) : Nat × Query) ≠ (k, b) := fun same => apart (congrArg Prod.fst same)
  have derived : ∀ {i k : Nat} {a b : Query}, ((i, a), (k, b)) ∈ pairs (placed parents) →
      Joinable a b → (i, k) ∈ edges (derive parents) := by
    intro i k a b paired joinable
    obtain ⟨j, made⟩ := Option.isSome_iff_exists.mp (isSome_between?.mpr joinable)
    obtain ⟨left, right⟩ := sides_of_between? made
    refine List.mem_map.mpr ⟨j, ?_, by rw [left, right]⟩
    rw [derive_eq]
    exact List.mem_filterMap.mpr ⟨((i, a), (k, b)), paired, made⟩
  rcases mem_pairs_or (mem_placed.mpr first) (mem_placed.mpr second) different with paired | paired
  · exact .inl (derived paired joinable)
  · exact .inr (derived paired converse)

end ParentJoin

namespace Query

/-- What queries have to agree on for their joins to survive mergers: concepts of one address have
one purpose, queries of one name can be merged, and a query that puts out constants only stands at
the abstract grain. -/
structure Consistent (queries : List Query) : Prop where
  purposes : ∀ q ∈ queries, ∀ c ∈ q.outputs, ∀ r ∈ queries, ∀ d ∈ r.outputs,
    c.address = d.address → c.purpose = d.purpose
  mergeable : queries.Pairwise Mergeable
  keyed : ∀ q ∈ queries, (∀ c ∈ q.outputs, c.purpose = .constant) → q.grain.isAbstract = true

instance (queries : List Query) : Decidable (Consistent queries) :=
  decidable_of_iff
    ((∀ q ∈ queries, ∀ c ∈ q.outputs, ∀ r ∈ queries, ∀ d ∈ r.outputs,
        c.address = d.address → c.purpose = d.purpose) ∧
      queries.Pairwise Mergeable ∧
        ∀ q ∈ queries, (∀ c ∈ q.outputs, c.purpose = .constant) → q.grain.isAbstract = true)
    ⟨fun ⟨purposes, mergeable, keyed⟩ => ⟨purposes, mergeable, keyed⟩,
      fun consistent => ⟨consistent.purposes, consistent.mergeable, consistent.keyed⟩⟩

/-- Where the query that takes in the query at a position stands. -/
def seat (queries kept : List Query) (i : Nat) : Nat :=
  (kept.map identifier).idxOf ((queries[i]?.map identifier).getD "")

variable {queries kept : List Query}

theorem seat_eq (distinct : (kept.map identifier).Nodup) {i k : Nat} {q m : Query}
    (own : queries[i]? = some q) (held : kept[k]? = some m) (same : m.identifier = q.identifier) :
    seat queries kept i = k := by
  obtain ⟨low, rfl⟩ := List.getElem?_eq_some_iff.mp held
  have bound : k < (kept.map identifier).length := by simpa using low
  have named : (queries[i]?.map identifier).getD "" = (kept.map identifier)[k] := by
    simp [own, same]
  rw [seat, named]
  exact distinct.idxOf_getElem k bound

theorem Condensed.exists_seat (condensed : Condensed queries kept) {i : Nat} {q : Query}
    (own : queries[i]? = some q) : ∃ m, kept[seat queries kept i]? = some m ∧ m.Takes q := by
  obtain ⟨m, member, takes⟩ := condensed.taken q (List.mem_of_getElem? own)
  obtain ⟨k, held⟩ := List.mem_iff_getElem?.mp member
  rw [seat_eq condensed.distinct own held takes.name]
  exact ⟨m, held, takes⟩

theorem Condensed.exists_seated (condensed : Condensed queries kept) {k : Nat}
    (low : k < kept.length) : ∃ i < queries.length, seat queries kept i = k := by
  obtain ⟨a, own, resembles⟩ := condensed.origin kept[k] (List.getElem_mem low)
  obtain ⟨i, held⟩ := List.mem_iff_getElem?.mp own
  exact ⟨i, (List.getElem?_eq_some_iff.mp held).1,
    seat_eq condensed.distinct held (List.getElem?_eq_getElem low) resembles.shape.identifier⟩

theorem Consistent.isKeyless (consistent : Consistent queries) {q m : Query} (own : q ∈ queries)
    (takes : m.Takes q) (keyless : ParentJoin.isKeyless q = true) :
    ParentJoin.isKeyless m = true := by
  have isAbstract : q.grain.isAbstract = true := by
    rcases Bool.or_eq_true_iff.mp keyless with isAbstract | constant
    · exact isAbstract
    · exact consistent.keyed q own (by simpa using constant)
  rw [ParentJoin.isKeyless, takes.isAbstract, isAbstract, Bool.true_or]

/-- A join key of a query is a join key of the query that takes it in. -/
theorem Consistent.exists_joinKey (consistent : Consistent queries)
    (condensed : Condensed queries kept) {q m : Query} (own : q ∈ queries) (member : m ∈ kept)
    {c : Concept} (listed : c ∈ q.outputs) (key : ParentJoin.isJoinKey c = true)
    (shared : m.provides c.address = true) :
    ∃ d ∈ m.outputs, d.address = c.address ∧ ParentJoin.isJoinKey d = true := by
  obtain ⟨d, output, same⟩ := provides_iff.mp shared
  obtain ⟨r, other, held⟩ := condensed.outputs m member d output
  refine ⟨d, output, same, ?_⟩
  rw [ParentJoin.isJoinKey, consistent.purposes r other d held q own c listed same]
  exact key

theorem Consistent.joinable (consistent : Consistent queries) (condensed : Condensed queries kept)
    {q r m n : Query} (first : q ∈ queries) (second : r ∈ queries) (left : m ∈ kept)
    (right : n ∈ kept) (takes : m.Takes q) (alsoTakes : n.Takes r)
    (joinable : ParentJoin.Joinable q r) :
    ParentJoin.Joinable m n ∧ ParentJoin.Joinable n m := by
  rcases joinable with keyless | keyless | ⟨c, listed, key, shared⟩
  · have keyless := consistent.isKeyless first takes keyless
    exact ⟨.inl keyless, .inr (.inl keyless)⟩
  · have keyless := consistent.isKeyless second alsoTakes keyless
    exact ⟨.inr (.inl keyless), .inl keyless⟩
  · have here := takes.outputs c.address (provides_iff.mpr ⟨c, listed, rfl⟩)
    have there := alsoTakes.outputs c.address shared
    obtain ⟨d, output, same, isKey⟩ :=
      consistent.exists_joinKey condensed first left listed key here
    obtain ⟨e, other, alsoSame, alsoKey⟩ :=
      consistent.exists_joinKey condensed first right listed key there
    refine ⟨.inr (.inr ⟨d, output, isKey, ?_⟩), .inr (.inr ⟨e, other, alsoKey, ?_⟩)⟩
    · rw [same]
      exact there
    · rw [alsoSame]
      exact here

/-- Linked queries are taken in by linked queries. -/
theorem Consistent.linked (consistent : Consistent queries) (condensed : Condensed queries kept)
    {i k : Nat} (linked : Linked (ParentJoin.edges (ParentJoin.derive queries)) i k) :
    Linked (ParentJoin.edges (ParentJoin.derive kept)) (seat queries kept i)
      (seat queries kept k) := by
  refine linked.map fun x y adjacent => ?_
  obtain ⟨a, b, first, second, joinable⟩ := ParentJoin.joinable_of_adjacent adjacent
  obtain ⟨m, left, takes⟩ := condensed.exists_seat first
  obtain ⟨n, right, alsoTakes⟩ := condensed.exists_seat second
  by_cases same : seat queries kept x = seat queries kept y
  · rw [same]
    exact .refl
  · have both : ParentJoin.Joinable m n ∧ ParentJoin.Joinable n m := by
      have firstIn := List.mem_of_getElem? first
      have secondIn := List.mem_of_getElem? second
      have leftIn := List.mem_of_getElem? left
      have rightIn := List.mem_of_getElem? right
      rcases joinable with forward | backward
      · exact consistent.joinable condensed firstIn secondIn leftIn rightIn takes alsoTakes forward
      · exact (consistent.joinable condensed secondIn firstIn rightIn leftIn alsoTakes takes
          backward).symm
    exact .single (ParentJoin.adjacent_of_joinable left right same both.1 both.2)

end Query

namespace Node

variable {parents : List Query}

/-- Parents that are all linked can be joined, by derived joins. -/
theorem exists_orderedJoins (positions : List Nat) (names : List String)
    (linked : ∀ i < parents.length, ∀ k < parents.length,
      Linked (ParentJoin.edges (ParentJoin.derive parents)) i k) :
    ∃ ordered, orderedJoins [] parents positions names = .ok ordered ∧ ∀ j ∈ ordered,
      j ∈ ParentJoin.derive parents ∨ ∃ own ∈ ParentJoin.derive parents, j = own.flip := by
  unfold orderedJoins
  split
  · exact ⟨[], rfl, by simp⟩
  · next several =>
    have apart : ∀ j ∈ ParentJoin.derive parents, j.left ≠ j.right :=
      fun j member => (ParentJoin.of_mem_derive member).1
    obtain ⟨ordered, done, sorted⟩ := ParentJoin.exists_order names apart fun i first k second =>
      linked i (ParentJoin.lt_of_mem_endpoints_derive first) k
        (ParentJoin.lt_of_mem_endpoints_derive second)
    have ends : ∀ i < parents.length, i ∈ endpoints (ParentJoin.edges ordered) := by
      intro i low
      rw [sorted.ends]
      -- another parent is linked to this one, so some join has it as a side
      obtain ⟨k, other, different⟩ : ∃ k < parents.length, i ≠ k := by
        by_cases zero : i = 0
        · exact ⟨1, by omega, by omega⟩
        · exact ⟨0, by omega, zero⟩
      exact (linked k other i low).eq_or_mem.resolve_left different
    have connected : ParentJoin.isConnected ordered parents.length = true := by
      refine (ParentJoin.isConnected_iff (by omega) fun i member => ?_).mpr fun i low => ?_
      · exact ParentJoin.lt_of_mem_endpoints_derive ((sorted.ends i).mp member)
      · exact sorted.growing.linked (ends 0 (by omega)) (ends i low)
    refine ⟨ordered, ?_, sorted.origin⟩
    simp only [List.isEmpty_nil, ↓reduceIte]
    rw [done]
    change (if ParentJoin.isConnected ordered parents.length = true then _ else _) = _
    rw [connected]
    rfl

theorem exists_toSourceJoin (distinct : (parents.map Query.identifier).Nodup) {j : ParentJoin}
    (derived : j ∈ ParentJoin.derive parents ∨ ∃ own ∈ ParentJoin.derive parents, j = own.flip) :
    ∃ join, j.toSourceJoin (parents.map .query) = .ok join := by
  obtain ⟨a, b, first, second, apart, shared⟩ : ∃ a b, parents[j.left]? = some a ∧
      parents[j.right]? = some b ∧ j.left ≠ j.right ∧
        ∀ c ∈ j.concepts, a.provides c.address = true ∧ b.provides c.address = true := by
    rcases derived with listed | ⟨own, listed, rfl⟩
    · obtain ⟨apart, left, right, first, second, made⟩ := ParentJoin.of_mem_derive listed
      exact ⟨left, right, first, second, apart, ParentJoin.provides_of_between? made⟩
    · obtain ⟨apart, left, right, first, second, made⟩ := ParentJoin.of_mem_derive listed
      refine ⟨right, left, second, first, apart.symm, fun c member => ?_⟩
      exact (ParentJoin.provides_of_between? made c member).symm
  have names : a.identifier ≠ b.identifier := by
    intro same
    refine apart ((List.getElem?_inj ?_ distinct).mp ?_)
    · simpa using (List.getElem?_eq_some_iff.mp first).1
    · rw [List.getElem?_map, List.getElem?_map, first, second, Option.map_some, Option.map_some,
        same]
  have left : ParentJoin.source (parents.map .query) j.left = .ok (.query a) := by
    simp [ParentJoin.source, first]
  have right : ParentJoin.source (parents.map .query) j.right = .ok (.query b) := by
    simp [ParentJoin.source, second]
  have different : (Source.query a).name ≠ (Source.query b).name := by
    rwa [Source.name, Source.name]
  obtain ⟨join, made⟩ := SourceJoin.exists_of different shared j.joinType j.mutualOnly
  refine ⟨join, ?_⟩
  rw [ParentJoin.toSourceJoin, left, right]
  exact made

/-- Condensed parents that are linked are joined. -/
theorem exists_resolveParents {n : Node} {queries : List Query} (derives : n.kind.joins = [])
    (consistent : Query.Consistent queries) (fits : ∀ q ∈ queries, q.Throughout Query.Fits)
    (linked : ∀ i < queries.length,
      Linked (ParentJoin.edges (ParentJoin.derive queries)) 0 i) :
    ∃ kept ordered joins, n.resolveParents queries = .ok (n.joinedQuery kept ordered joins) ∧
      Query.Condensed queries kept := by
  obtain ⟨kept, positions, deduped, condensed⟩ := Query.exists_dedupe consistent.mergeable fits
  have all : ∀ i < kept.length, ∀ k < kept.length,
      Linked (ParentJoin.edges (ParentJoin.derive kept)) i k := by
    intro i low k other
    obtain ⟨x, first, rfl⟩ := condensed.exists_seated low
    obtain ⟨y, second, rfl⟩ := condensed.exists_seated other
    exact (consistent.linked condensed (linked x first)).symm.trans
      (consistent.linked condensed (linked y second))
  obtain ⟨ordered, sorted, derived⟩ :=
    exists_orderedJoins positions (kept.map (·.identifier)) all
  obtain ⟨joins, made⟩ : ∃ joins, ordered.mapM (·.toSourceJoin (kept.map .query)) = .ok joins :=
    exists_mapM fun j member => exists_toSourceJoin condensed.distinct (derived j member)
  refine ⟨kept, ordered, joins, ?_, condensed⟩
  rw [resolveParents_eq, derives, deduped]
  change (orderedJoins [] kept positions (kept.map (·.identifier)) >>= _) = _
  rw [sorted]
  change (ordered.mapM (·.toSourceJoin (kept.map .query)) >>= _) = _
  rw [made]
  rfl

end Node

namespace Planner

/-- What a stack that covers a request says of its resolved nodes. -/
theorem of_covered {stack : List Node} {request : List Concept} {acceptPartial : Bool}
    {queries : List Query} (several : 2 ≤ stack.length)
    (resolved : Node.resolveAll stack = .ok queries)
    (covers : covered stack request acceptPartial = .ok true) :
    provideAll queries request acceptPartial = true ∧
      ∀ i < queries.length, Linked (ParentJoin.edges (ParentJoin.derive queries)) 0 i := by
  have count : queries.length = stack.length := by
    rw [Node.resolveAll_eq] at resolved
    simpa using (congrArg List.length (mapM_eq_ok.mp resolved)).symm
  unfold covered at covers
  split at covers
  · cases covers
  · rw [resolved] at covers
    have checks := pure_eq_ok.mp covers
    rw [Bool.and_eq_true, Bool.or_eq_true] at checks
    obtain ⟨provides, single | connected⟩ := checks
    · rw [beq_iff_eq] at single
      omega
    · refine ⟨provides, (ParentJoin.isConnected_iff (by omega) fun i member => ?_).mp connected⟩
      exact ParentJoin.lt_of_mem_endpoints_derive member

/-- An address that some parent has complete is not partial in the query over the parents. -/
theorem not_mem_partials {n : Node} {kept : List Query} {ordered : List ParentJoin}
    {joins : List SourceJoin} (none : n.partials = []) {m : Query} (member : m ∈ kept)
    {address : String} (complete : address ∈ m.completeAddresses) :
    address ∉ Concept.addresses (n.joinedQuery kept ordered joins).partials := by
  intro listed
  obtain ⟨c, held, rfl⟩ := List.mem_map.mp listed
  have flagged := Concept.mem_of_mem_unique held
  rw [none, List.append_nil] at flagged
  have isPartial := (List.mem_filter.mp flagged).2
  obtain ⟨provides, full⟩ := Query.mem_completeAddresses.mp complete
  simp only [Node.isPartialIn, Bool.and_eq_true, List.all_eq_true] at isPartial
  have lacking := isPartial.1.2 m (List.mem_filter.mpr ⟨member, provides⟩)
  rw [full] at lacking
  cases lacking

/-- A consistent stack that covers a request and can be joined resolves to a query for it. -/
theorem resolves_of_covered {stack : List Node} {request : List Concept} {acceptPartial : Bool}
    {queries : List Query} (depth : Nat) (several : 2 ≤ stack.length)
    (resolved : Node.resolveAll stack = .ok queries) (consistent : Query.Consistent queries)
    (covers : covered stack request acceptPartial = .ok true) :
    ∃ q, (Node.of (.merge []) (stack.flatMap (·.outputs)) request stack depth).resolve = .ok q ∧
      (∀ c ∈ request, c.address ∈ Concept.addresses q.outputs) ∧
      (acceptPartial = false → ∀ c ∈ request, c.address ∉ Concept.addresses q.partials) := by
  let n := Node.of (.merge []) (stack.flatMap (·.outputs)) request stack depth
  obtain ⟨provides, linked⟩ := of_covered several resolved covers
  have fits : ∀ q ∈ queries, q.Throughout Query.Fits := by
    intro q member
    obtain ⟨parent, _, made⟩ := Node.exists_of_mem_resolveAll resolved member
    exact (parent.settles_resolve_fits.ok made).2
  obtain ⟨kept, ordered, joins, made, condensed⟩ :=
    @Node.exists_resolveParents n queries rfl consistent fits linked
  refine ⟨n.joinedQuery kept ordered joins, ?_, fun c asked => ?_, fun complete c asked => ?_⟩
  · have bare : n.bare = .ok (n.joinedQuery kept ordered joins) := by
      change (Node.resolveAll stack >>= n.resolveParents) = _
      rw [resolved]
      exact made
    change n.resolve = _
    rw [Node.resolve_eq, bare]
    rfl
  · have listed : c.address ∈ Concept.addresses request := List.mem_map_of_mem asked
    change c.address ∈ Concept.addresses (Concept.unique (Concept.unique request))
    simpa using listed
  · subst complete
    obtain ⟨q, member, has⟩ := List.any_eq_true.mp (List.all_eq_true.mp provides c asked)
    obtain ⟨m, listed, takes⟩ := condensed.taken q member
    exact not_mem_partials rfl listed
      (takes.complete c.address (List.contains_iff_mem.mp (by simpa using has)))

end Planner

namespace Twins

def key : Concept := .key "k" .integer

def label : Concept := .property "p" .string [key]

/-- A node that reads a table of the concepts. -/
def reading (name : String) (cs : List Concept) : Node :=
  .of (.select (some (.table name (cs.map fun c => ⟨c.name, c, []⟩)))) cs cs [] 0

def joining (joins : List ParentJoin) (cs : List Concept) (parents : List Node) : Node :=
  .of (.merge joins) cs cs parents 0

/-- Two joins of one name, of which only the second has the label, and a table. -/
def stack : List Node :=
  [joining [] [key] [reading "t" [key], reading "u" [key]],
    joining [] [key, label] [reading "t" [key, label], reading "u" [key]],
    reading "v" [key]]

end Twins

theorem Planner.resolves_twins :
    ∃ queries, 2 ≤ Twins.stack.length ∧ Node.resolveAll Twins.stack = .ok queries ∧
      Query.Consistent queries ∧
      Planner.covered Twins.stack [Twins.key, Twins.label] false = .ok true ∧
      ∃ q, (Node.of (.merge []) (Twins.stack.flatMap (·.outputs)) [Twins.key, Twins.label]
          Twins.stack 0).resolve = .ok q ∧
        (∀ c ∈ [Twins.key, Twins.label], c.address ∈ Concept.addresses q.outputs) ∧
        ∀ c ∈ [Twins.key, Twins.label], c.address ∉ Concept.addresses q.partials := by
  have settled : Settles (Node.resolveAll Twins.stack) Query.Consistent fun _ => False := by
    decide +kernel
  have checked : Settles (Planner.covered Twins.stack [Twins.key, Twins.label] false) (· = true)
      fun _ => False := by
    decide +kernel
  have several : 2 ≤ Twins.stack.length := by decide
  obtain ⟨queries, resolved, consistent⟩ := settled.exists_ok
  obtain ⟨_, covers, rfl⟩ := checked.exists_ok
  obtain ⟨q, made, provides, complete⟩ :=
    Planner.resolves_of_covered 0 several resolved consistent covers
  exact ⟨queries, several, resolved, consistent, covers, q, made, provides, complete rfl⟩

namespace Twins

def wide : Node :=
  joining [] [key] [reading "a_at_k_join_b" [key], reading "a" [key], reading "b" [key]]

/-- The last two parents have one name, and are merged into a query of the name of the first. -/
def doubled : Node :=
  joining [⟨0, 1, [key], .inner, false⟩, ⟨1, 2, [key], .inner, false⟩] [key]
    [wide, reading "z" [key], joining [] [key] [reading "a_at_k_join_b" [key]],
      joining [] [key] [reading "a" [key], reading "b" [key]]]

/-- The last two nodes read two sources of one name, which their merger reads once. So the merger
has the name of the first node. -/
def renamed : List Node := [joining [] [key] [wide, reading "z" [key]], doubled, doubled]

/-- The node over the stack. -/
def joint : Node := .of (.merge []) (renamed.flatMap (·.outputs)) [key] renamed 0

end Twins

/-- Without different sources, alike queries of one name may have a merger of another name. -/
theorem Planner.covered_not_resolved :
    ∃ queries, Node.resolveAll Twins.renamed = .ok queries ∧
      (∀ q ∈ queries, ∀ c ∈ q.outputs, ∀ r ∈ queries, ∀ d ∈ r.outputs,
        c.address = d.address → c.purpose = d.purpose) ∧
      (∀ q ∈ queries, ∀ r ∈ queries, ∀ u ∈ q.nested, ∀ v ∈ r.nested,
        u.identifier = v.identifier → u.Alike v) ∧
      (∀ q ∈ queries, (∀ c ∈ q.outputs, c.purpose = .constant) → q.grain.isAbstract = true) ∧
      Planner.covered Twins.renamed [Twins.key] false = .ok true ∧
      ∃ name, Twins.joint.resolve = .error (.selfJoin name) := by
  have settled : Settles (Node.resolveAll Twins.renamed)
      (fun queries =>
        (∀ q ∈ queries, ∀ c ∈ q.outputs, ∀ r ∈ queries, ∀ d ∈ r.outputs,
          c.address = d.address → c.purpose = d.purpose) ∧
        (∀ q ∈ queries, ∀ r ∈ queries, ∀ u ∈ q.nested, ∀ v ∈ r.nested,
          u.identifier = v.identifier → u.Alike v) ∧
        ∀ q ∈ queries, (∀ c ∈ q.outputs, c.purpose = .constant) → q.grain.isAbstract = true)
      fun _ => False := by
    decide +kernel
  have checked : Settles (Planner.covered Twins.renamed [Twins.key] false) (· = true)
      fun _ => False := by
    decide +kernel
  have failing : Settles Twins.joint.resolve (fun _ => False)
      (· = .selfJoin "a_at_k_join_b_at_k_join_a_at_k_join_b_at_k_at_k_join_z_at_k_at_k") := by
    decide +kernel
  obtain ⟨queries, resolved, purposes, alike, keyed⟩ := settled.exists_ok
  obtain ⟨_, covers, rfl⟩ := checked.exists_ok
  obtain ⟨_, failed, rfl⟩ := failing.exists_error
  exact ⟨queries, resolved, purposes, alike, keyed, covers, _, failed⟩

end SemanticQuery
