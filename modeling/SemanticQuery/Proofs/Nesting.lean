import SemanticQuery.CompiledSelect
import SemanticQuery.Proofs.Assembly
import SemanticQuery.Proofs.Inquiries
import SemanticQuery.Proofs.Keys

/-!
How deep searches are nested. There is a bound for the concepts of a catalog, of a request and of a
row filter, and the row filter adds nothing to it if all that it reads is in the catalog or in the
request. Otherwise it does: a search for a concept at the end of a chain of derivations is nested as
deep as the chain is long.
-/

namespace SemanticQuery

/-- Whether a run comes to a halt. -/
def Search.Halts (x : Search α) (h : History) (halt : Halt) : Prop :=
  (x.runFrom h).1 = .error halt

theorem Search.Halts.bind {x : Search α} {h : History} {halt : Halt} (halts : x.Halts h halt)
    (k : α → Search β) : (x >>= k).Halts h halt := by
  have ran : x.runFrom h = (.error halt, (x.runFrom h).2) := Prod.ext halts rfl
  rw [Halts, runFrom_bind_error ran]

/-- The concepts that are declared in a catalog or bound to a column. -/
def Catalog.mentioned (catalog : Catalog) : List Concept :=
  catalog.concepts.values ++ catalog.datasources.flatMap (·.concepts)

namespace Planner

/-- The concepts that the row filter of a planner reads. -/
def filterReads (p : Planner) : List Concept :=
  match p.rowFilter with
  | some rowFilter => rowFilter.condition.reads
  | none => []

theorem seeds_eq (p : Planner) (request : List Concept) :
    p.seeds request = p.catalog.mentioned ++ (request ++ p.filterReads) :=
  List.append_assoc _ request p.filterReads

/-- A bound on the nesting of searches for the concepts of a catalog and others. -/
def nestingBound (catalog : Catalog) (asked : List Concept) : Nat :=
  Nat.pow 2 (4 * total ((catalog.mentioned ++ asked).map Concept.weight) + 2)

theorem searchBound_eq (p : Planner) (request : List Concept) :
    p.searchBound request = nestingBound p.catalog (request ++ p.filterReads) := by
  rw [searchBound, seeds_eq, nestingBound]

/-- If the concepts of the row filter are among those of the catalog and those asked for, they add
no keys. -/
theorem card_keys_lt_nestingBound {p : Planner} {asked : List Concept}
    (filtered : ∀ c ∈ p.filterReads, c ∈ p.catalog.mentioned ++ asked) :
    (p.keys asked).card < nestingBound p.catalog asked := by
  let unfiltered : Planner := { p with rowFilter := none }
  have seeds : unfiltered.seeds asked = p.catalog.mentioned ++ asked := by
    rw [seeds_eq]
    exact congrArg (p.catalog.mentioned ++ ·) (List.append_nil asked)
  have known : ∀ c, p.Known asked c → unfiltered.Known asked c := by
    intro c known
    obtain ⟨seed, start, held⟩ := List.mem_flatMap.mp known
    refine List.mem_flatMap.mpr ⟨seed, ?_, held⟩
    rw [seeds]
    rw [seeds_eq, ← List.append_assoc] at start
    rcases List.mem_append.mp start with own | read
    · exact own
    · exact filtered seed read
  calc (p.keys asked).card
      ≤ (unfiltered.keys asked).card := Finset.card_le_card (keys_subset known)
    _ < unfiltered.searchBound asked := card_keys_lt unfiltered asked
    _ = nestingBound p.catalog asked := by rw [searchBound, seeds, nestingBound]

/-- Whether every search for a request stays below a bound on the nesting of searches: no run is cut
short by it, and a larger bound makes no difference. -/
def EndsWithin (p : Planner) (request : List Concept) (bound : Nat) : Prop :=
  ∀ (depth : Nat) (acceptPartial : Bool) (history : History) (more : Nat),
    ((p.search bound request depth acceptPartial).runFrom history).1 ≠ .error .exhausted ∧
      (p.search (bound + more) request depth acceptPartial).runFrom history =
        (p.search bound request depth acceptPartial).runFrom history

theorem endsWithin_of_card_lt {p : Planner} {request roots : List Concept} {bound : Nat}
    (known : (Goal.request request).Known p roots) (enough : (p.keys roots).card < bound) :
    p.EndsWithin request bound := by
  intro depth acceptPartial history more
  have keeps : p.Keeps history roots history.inFlight history :=
    ⟨rfl, fun key node held => .inl held⟩
  have few : (p.freeKeys roots history.inFlight).card < bound :=
    (Finset.card_filter_le _ _).trans_lt enough
  constructor
  · intro exhausted
    have outcome := (searches_search bound request depth acceptPartial known history keeps).2
    rw [exhausted] at outcome
    exact absurd (outcome rfl) (Nat.not_le.mpr few)
  · induction more with
    | zero => rfl
    | succ more ih =>
      rw [← Nat.add_assoc, runFrom_search_succ depth acceptPartial (by omega) known keeps, ih]

section Chain

variable {p : Planner} {bound depth : Nat} {acceptPartial : Bool} {h : History} {halt : Halt}

/-- A search for one concept halts if the attempt to make a node for it does. -/
theorem halts_of_generate {c : Concept} (starts : Inquiry.Starts ⟨[c], depth, acceptPartial, h⟩)
    (halts : (p.generate (p.search bound) c [] (depth + 1) acceptPartial).Halts
      (h.start (History.key [c] acceptPartial)) halt) :
    (p.search (bound + 1) [c] depth acceptPartial).Halts h halt := by
  have alone : [c].filter (·.address != c.address) = [] := by simp
  have run := run_starts (p := p) starts bound
  refine (congrArg Prod.fst run).trans ?_
  refine Search.Halts.bind ?_ _
  change (p.stackNodes (p.search bound) [c] depth acceptPartial [c] []).Halts _ halt
  rw [stackNodes, alone]
  exact (halts.bind _).bind _

/-- Each concept of a chain is computed from the one before it. -/
structure Chain (p : Planner) (chain : Nat → Concept) (acceptPartial : Bool) : Prop where
  basic : ∀ n, p.strategy (chain (n + 1)) = .basic
  reads : ∀ n, (chain (n + 1)).reads = [chain n]
  apart : ∀ m n, History.key [chain m] acceptPartial = History.key [chain n] acceptPartial → m = n

/-- The searches for the concepts of a chain are nested in each other, so a bound is reached before
the start of a chain that is at least as long. -/
theorem Chain.exhausted {chain : Nat → Concept} (linked : p.Chain chain acceptPartial) {n : Nat}
    (short : bound ≤ n)
    (starts : ∀ m ≤ n, Inquiry.Starts ⟨[chain m], depth, acceptPartial, h⟩) :
    (p.search bound [chain n] depth acceptPartial).Halts h .exhausted := by
  induction bound generalizing n depth h with
  | zero => rfl
  | succ bound ih =>
    obtain ⟨n, rfl⟩ : ∃ m, n = m + 1 := ⟨n - 1, by omega⟩
    refine halts_of_generate (starts _ le_rfl) ?_
    rw [generate, linked.basic]
    refine Search.Halts.bind ?_ _
    rw [linked.reads]
    refine ih (Nat.le_of_succ_le_succ short) fun m before => ?_
    -- only the key of the longer chain is in flight now
    obtain ⟨absent, idle⟩ := starts m (Nat.le_succ_of_le before)
    refine ⟨absent, Bool.eq_false_iff.mpr fun flying => ?_⟩
    rcases Names.mem_insert.mp (List.contains_iff_mem.mp flying) with same | other
    · have : m = n + 1 := linked.apart m (n + 1) same
      omega
    · exact Bool.eq_false_iff.mp idle (List.contains_iff_mem.mpr other)

end Chain

end Planner

namespace Tallies

def sale : Concept := .key "sale" .integer

/-- The number of rows. -/
def tally : Concept :=
  .derive "tally" .metric (.call ⟨.count, [.literal (.integer 1)], .integer, .metric⟩)

def table : Datasource := .table "sales" [⟨"sale", sale, []⟩]

def concepts : NameMap Concept := .ofList [(sale.address, sale), (tally.address, tally)]

def catalog : Catalog := .of concepts [table]

theorem assembled_catalog : catalog.Assembled := by
  let first : Builder := { concepts := .ofList [(tally.address, tally)] }
  let second : Builder := { concepts, datasources := [table] }
  have declared : Builder.addConcept {} tally false = .ok first := rfl
  have added : first.addDatasource table = .ok second := rfl
  exact ⟨second, .addDatasource (.addConcept (.fresh false true) declared) added, rfl⟩

/-- The number so many after that of a sale. It is a property of the sale, and only the sale itself
is in the catalog. -/
def next : Nat → Concept
  | 0 => sale
  | n + 1 =>
    let increment : Call := ⟨.add, [.concept (next n), .literal (.integer 1)], .integer, .property⟩
    (Concept.derive ((next n).name ++ "_next") .property (.call increment)).withKeys [sale]

/-- A planner that counts only rows in which such a number is positive. -/
def planner (n : Nat) : Planner :=
  .of catalog {} (some ⟨.compare (.concept (next n)) (.literal (.integer 0)) .gt, [tally.address]⟩)

theorem name_next (n : Nat) : (next (n + 1)).name = (next n).name ++ "_next" := rfl

theorem length_address (n : Nat) : (next n).address.length = 10 + 5 * n := by
  have name : (next n).name.length = 4 + 5 * n := by
    induction n with
    | zero => rfl
    | succ n ih =>
      rw [name_next, String.length_append, ih]
      change 4 + 5 * n + 5 = _
      omega
  have ns : (next n).ns = "local" := by cases n <;> rfl
  rw [Concept.address, String.length_append, name, ns]
  change 6 + _ = _
  omega

theorem plain_next (n : Nat) : History.PlainPart (next n) := by
  have owner : sale.Plain := by decide
  have suffix : ∀ char ∈ "_next".toList, char ≠ '@' ∧ char ≠ '-' := by simp
  have plain : (next n).Plain := by
    induction n with
    | zero => exact owner
    | succ n ih =>
      intro char member
      rcases List.mem_append.mp member with ns | name
      · exact owner char (List.mem_append_left _ ns)
      · rw [name_next, String.toList_append] at name
        rcases List.mem_append.mp name with before | last
        · exact ih char (List.mem_append_right _ before)
        · exact suffix char last
  -- the only component is the sale, bare or as it is declared
  refine ⟨plain, ?_⟩
  cases n <;> exact List.forall_mem_singleton.mpr owner

theorem chain_next (n : Nat) (acceptPartial : Bool) : (planner n).Chain next acceptPartial where
  basic m := by
    have absent : catalog.isMaterialized (next (m + 1)).address = false := by
      refine Bool.eq_false_iff.mpr fun bound => ?_
      have own : (next (m + 1)).address ∈ ["local.sale"] := List.contains_iff_mem.mp bound
      have length := length_address (m + 1)
      rw [List.mem_singleton.mp own] at length
      change 10 = _ at length
      omega
    rw [Planner.strategy]
    exact if_neg (Bool.eq_false_iff.mp absent)
  reads m := rfl
  apart m k same := by
    have lengths := congrArg String.length
      (History.address_of_key_eq (plain_next m) (plain_next k) same)
    rw [length_address, length_address] at lengths
    omega

/-- A search for the tally asks for what the row filter reads, so it is nested one deeper. -/
theorem exhausted_tally (bound : Nat) :
    ((planner bound).search bound [tally] 0 false).Halts {} .exhausted := by
  cases bound with
  | zero => rfl
  | succ bound =>
    refine Planner.halts_of_generate ⟨rfl, rfl⟩ ?_
    change (((planner (bound + 1)).groupNode _ tally [] 1 false)).Halts _ _
    refine Search.Halts.bind (Search.Halts.bind ?_ _) _
    refine (chain_next (bound + 1) false).exhausted (Nat.le_succ bound) fun m before => ⟨rfl, ?_⟩
    refine Bool.eq_false_iff.mpr fun flying => ?_
    have same := List.mem_singleton.mp (List.contains_iff_mem.mp flying)
    have plain : History.PlainPart tally := ⟨by decide, List.forall_mem_nil _⟩
    have lengths := congrArg String.length
      (History.address_of_key_eq plain (plain_next m) same.symm)
    rw [length_address] at lengths
    change 11 = _ at lengths
    omega

end Tallies

/-- A search comes to an end. The bound on the nesting of searches depends on the catalog and on the
concepts that are asked for, those of the request and those that the row filter reads, but neither
on the graph and the settings nor on what the history remembers and has in flight. A row filter that
reads only concepts of the catalog and of the request makes no difference to it. -/
theorem Planner.search_terminates : ∃ bound : Catalog → List Concept → Nat,
    ∀ (p : Planner) (request : List Concept),
      p.searchBound request = bound p.catalog (request ++ p.filterReads) ∧
      p.EndsWithin request (p.searchBound request) ∧
      ((∀ c ∈ p.filterReads, c ∈ p.catalog.mentioned ++ request) →
        p.EndsWithin request (bound p.catalog request)) := by
  refine ⟨nestingBound, fun p request => ⟨searchBound_eq p request, ?_, fun filtered => ?_⟩⟩
  · exact endsWithin_of_card_lt (fun c => known_of_mem_request) (card_keys_lt p request)
  · exact endsWithin_of_card_lt (fun c => known_of_mem_request)
      (card_keys_lt_nestingBound filtered)

theorem Planner.search_terminates_sale :
    (∀ c ∈ (Tallies.planner 0).filterReads, c ∈ Tallies.catalog.mentioned ++ [Tallies.tally]) ∧
      (Tallies.planner 0).filterReads = [Tallies.sale] ∧
      ∃ bound : Catalog → List Concept → Nat,
        (Tallies.planner 0).EndsWithin [Tallies.tally] (bound Tallies.catalog [Tallies.tally]) := by
  have declared : ∀ c ∈ (Tallies.planner 0).filterReads,
      c ∈ Tallies.catalog.mentioned ++ [Tallies.tally] :=
    List.forall_mem_singleton.mpr List.mem_cons_self
  obtain ⟨bound, ends⟩ := Planner.search_terminates
  exact ⟨declared, rfl, bound, (ends (Tallies.planner 0) [Tallies.tally]).2.2 declared⟩

/-- No bound on the nesting of searches depends on the catalog and the request alone. -/
theorem Planner.nesting_unbounded :
    Tallies.catalog.Assembled ∧
      ¬ ∃ bound : Catalog → List Concept → Nat, ∀ rowFilter : RowFilter,
        (Planner.of Tallies.catalog {} (some rowFilter)).EndsWithin [Tallies.tally]
          (bound Tallies.catalog [Tallies.tally]) := by
  refine ⟨Tallies.assembled_catalog, ?_⟩
  rintro ⟨bound, ends⟩
  exact (ends _ 0 false {} 0).1 (Tallies.exhausted_tally (bound Tallies.catalog [Tallies.tally]))

end SemanticQuery
