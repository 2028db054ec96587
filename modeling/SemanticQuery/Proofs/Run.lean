import SemanticQuery.Proofs.Plans

/-!
Runs of the search. Whatever its outcome, a run leaves the same keys in flight as before and
remembers only nodes that are made by the rules. It does not reach the bound on nested searches:
each of them puts another key in flight, and there are fewer keys than the bound allows.
-/

namespace SemanticQuery

namespace Planner

/-- The history after the search of a key that was not in flight. -/
def settled (key : String) (outcome : Except Halt (Option Node)) (h : History) : History :=
  match outcome with
  | .error _ => h.finish key
  | .ok result =>
    if result.isSome || !h.isIncomplete key then (h.finish key).record key result
    else h.finish key

theorem runFrom_remembered {key : String} {h : History} {result : Option Node}
    (held : h.get? key = some result) (step : Search (Option Node)) :
    (remembering key step).runFrom h = (.ok result, h) := by
  simp only [remembering, Search.runFrom_bind, Search.runFrom_get, held, Search.runFrom_pure]

theorem runFrom_inFlight {key : String} {h : History} (absent : h.get? key = none)
    (flying : h.isInFlight key = true) (step : Search (Option Node)) :
    (remembering key step).runFrom h = (.ok none, h.shortCircuit) := by
  simp only [remembering, Search.runFrom_bind, Search.runFrom_get, absent, flying, if_true,
    Search.runFrom_set, Search.runFrom_pure]

theorem runFrom_fresh {key : String} {h : History} (absent : h.get? key = none)
    (fresh : h.isInFlight key = false) (step : Search (Option Node)) :
    (remembering key step).runFrom h =
      ((step.runFrom (h.start key)).1,
        settled key (step.runFrom (h.start key)).1 (step.runFrom (h.start key)).2) := by
  rcases ran : step.runFrom (h.start key) with ⟨outcome, after⟩
  simp only [remembering, Search.runFrom_bind, Search.runFrom_get, absent, fresh,
    Bool.false_eq_true, if_false, Search.runFrom_set, Search.runFrom_outcome, ran]
  cases outcome with
  | error halt => rfl
  | ok result =>
    dsimp only [settled]
    split <;> rfl

theorem search_succ (p : Planner) (bound : Nat) (request : List Concept) (depth : Nat)
    (acceptPartial : Bool) :
    p.search (bound + 1) request depth acceptPartial =
      remembering (History.key (Concept.unique request) acceptPartial)
        (p.searchStep (p.search bound) (Concept.unique request) depth acceptPartial) := rfl

/-- What holds of the history between two steps of a run: the keys in flight, and that a plan it
remembers was remembered from the start or is made by the rules for a request of its key. -/
structure Keeps (p : Planner) (start : History) (roots : List Concept) (flying : List String)
    (h : History) : Prop where
  inFlight : h.inFlight = flying
  plans : ∀ key node, h.get? key = some (some node) →
    start.get? key = some (some node) ∨
      ∃ request acceptPartial, (Goal.request request).Known p roots ∧
        History.key request acceptPartial = key ∧ p.Makes start roots (.request request) node

/-- The keys that are not in flight. -/
def freeKeys (p : Planner) (roots : List Concept) (flying : List String) : Finset String :=
  (p.keys roots).filter (· ∉ flying)

section

variable {p : Planner} {start : History} {roots : List Concept} {flying : List String}

/-- Putting a key in flight leaves fewer keys. -/
theorem card_freeKeys_insert {key : String} (member : key ∈ p.keys roots) (fresh : key ∉ flying) :
    (p.freeKeys roots (Names.insert key flying)).card < (p.freeKeys roots flying).card := by
  refine Finset.card_lt_card ((Finset.ssubset_iff_of_subset ?_).mpr ⟨key, ?_, ?_⟩)
  · intro other free
    obtain ⟨listed, absent⟩ := Finset.mem_filter.mp free
    exact Finset.mem_filter.mpr ⟨listed, fun held => absent (Names.mem_insert.mpr (.inr held))⟩
  · exact Finset.mem_filter.mpr ⟨member, fresh⟩
  · intro free
    exact (Finset.mem_filter.mp free).2 (Names.mem_insert.mpr (.inl rfl))

theorem Keeps.started {h : History} (keeps : p.Keeps start roots flying h) (key : String) :
    p.Keeps start roots (Names.insert key flying) (h.start key) :=
  ⟨congrArg (Names.insert key) keeps.inFlight, keeps.plans⟩

theorem Keeps.shortCircuit {h : History} (keeps : p.Keeps start roots flying h) :
    p.Keeps start roots flying h.shortCircuit := ⟨keeps.inFlight, keeps.plans⟩

theorem Keeps.finished {h : History} {key : String}
    (keeps : p.Keeps start roots (Names.insert key flying) h) (fresh : key ∉ flying) :
    p.Keeps start roots flying (h.finish key) :=
  ⟨(congrArg (·.filter (· != key)) keeps.inFlight).trans (Names.filter_insert fresh), keeps.plans⟩

theorem Keeps.recorded {h : History} (keeps : p.Keeps start roots flying h)
    {request : List Concept} {acceptPartial : Bool} {result : Option Node}
    (known : (Goal.request request).Known p roots)
    (made : ∀ node, result = some node → p.Makes start roots (.request request) node) :
    p.Keeps start roots flying (h.record (History.key request acceptPartial) result) := by
  refine ⟨keeps.inFlight, fun key node held => ?_⟩
  rw [History.get?, History.record, NameMap.get?_insert] at held
  split at held
  · next same =>
    cases held
    exact .inr ⟨request, acceptPartial, known, same.symm, made node rfl⟩
  · exact keeps.plans key node held

/-- A remembered plan serves every request of its key. -/
theorem Keeps.makes {h : History} (keeps : p.Keeps start roots flying h) {request : List Concept}
    {acceptPartial : Bool} {node : Node}
    (held : h.get? (History.key (Concept.unique request) acceptPartial) = some (some node)) :
    p.Makes start roots (.request request) node := by
  rcases keeps.plans _ node held with first | ⟨other, otherPartial, known, same, made⟩
  · exact .remembered first
  · exact .recalled known same made

theorem Keeps.settle {h : History} {key : String} {outcome : Except Halt (Option Node)}
    (keeps : p.Keeps start roots (Names.insert key flying) h) (fresh : key ∉ flying)
    {request : List Concept} {acceptPartial : Bool}
    (keyed : key = History.key request acceptPartial)
    (known : (Goal.request request).Known p roots)
    (made : ∀ node, outcome = .ok (some node) → p.Makes start roots (.request request) node) :
    p.Keeps start roots flying (settled key outcome h) := by
  unfold settled
  split
  · exact keeps.finished fresh
  · split
    · rw [keyed]
      exact (keyed ▸ keeps.finished fresh).recorded known fun node same => made node (same ▸ rfl)
    · exact keeps.finished fresh

/-- What is said of the outcome of a search. It may reach its bound only if there are at least as
many keys left as the bound allows nested searches. -/
abbrev Searches (p : Planner) (start : History) (roots : List Concept) (flying : List String)
    (bound : Nat) (request : List Concept) (x : Search (Option Node)) : Prop :=
  x.Yields (p.Keeps start roots flying)
    (fun answer => ∀ node, answer = some node → p.Makes start roots (.request request) node)
    fun halt => halt = .exhausted → bound ≤ (p.freeKeys roots flying).card

/-- One search keeps the invariant if the nested searches do, which run with its key in flight. -/
theorem searches_remembering {bound : Nat} {request : List Concept} {acceptPartial : Bool}
    {step : Search (Option Node)} (known : (Goal.request request).Known p roots)
    (runs : p.Searches start roots
      (Names.insert (History.key (Concept.unique request) acceptPartial) flying) bound
      (Concept.unique request) step) :
    p.Searches start roots flying (bound + 1) request
      (remembering (History.key (Concept.unique request) acceptPartial) step) := by
  let key := History.key (Concept.unique request) acceptPartial
  have knownUnique : (Goal.request (Concept.unique request)).Known p roots := fun c member =>
    known c (Concept.mem_of_mem_unique member)
  intro h keeps
  cases held : h.get? key with
  | some result =>
    rw [runFrom_remembered held]
    exact ⟨keeps, fun node same => keeps.makes (same ▸ held)⟩
  | none =>
    cases inFlight : h.isInFlight key with
    | true =>
      rw [runFrom_inFlight held inFlight]
      exact ⟨keeps.shortCircuit, by simp⟩
    | false =>
      have fresh : key ∉ flying := by
        rw [← keeps.inFlight]
        simpa [History.isInFlight] using inFlight
      have fewer := card_freeKeys_insert (key_mem_keys knownUnique acceptPartial) fresh
      obtain ⟨after, outcome⟩ := runs _ (keeps.started key)
      rw [runFrom_fresh held inFlight]
      refine ⟨after.settle fresh rfl knownUnique fun node same => ?_, ?_⟩
      · rw [same] at outcome
        exact outcome node rfl
      · split
        · next answer same =>
          rw [same] at outcome
          have own : key = History.key (Concept.unique request) acceptPartial := rfl
          exact fun node found => .recalled knownUnique own (outcome node found)
        · next halt same =>
          rw [same] at outcome
          intro exhausted
          have := outcome exhausted
          omega

/-- Every search leaves the keys in flight as they were, finds only plans that are made by the
rules, and reaches its bound only if that is too small. -/
theorem searches_search (bound : Nat) (request : List Concept) (depth : Nat) (acceptPartial : Bool)
    (known : (Goal.request request).Known p roots) :
    p.Searches start roots flying bound request (p.search bound request depth acceptPartial) := by
  induction bound generalizing flying request depth acceptPartial with
  | zero => exact fun h keeps => ⟨keeps, fun _ => Nat.zero_le _⟩
  | succ bound ih =>
    -- the nested searches have a smaller bound, but also one key less to put in flight
    refine searches_remembering known ?_
    exact (plans_searchStep fun c member => known c (Concept.mem_of_mem_unique member)).yields
      (by simp) fun nested depth acceptPartial asked => ih nested depth acceptPartial asked

/-- A bound beyond the number of keys that are left makes no difference. -/
theorem runFrom_search_succ {bound : Nat} {request : List Concept} {h : History} (depth : Nat)
    (acceptPartial : Bool) (enough : (p.freeKeys roots flying).card < bound)
    (known : (Goal.request request).Known p roots) (keeps : p.Keeps start roots flying h) :
    (p.search (bound + 1) request depth acceptPartial).runFrom h =
      (p.search bound request depth acceptPartial).runFrom h := by
  induction bound generalizing flying request depth acceptPartial h with
  | zero => omega
  | succ bound ih =>
    let key := History.key (Concept.unique request) acceptPartial
    have knownUnique : (Goal.request (Concept.unique request)).Known p roots := fun c member =>
      known c (Concept.mem_of_mem_unique member)
    rw [search_succ, search_succ]
    cases held : h.get? key with
    | some result => rw [runFrom_remembered held, runFrom_remembered held]
    | none =>
      cases inFlight : h.isInFlight key with
      | true => rw [runFrom_inFlight held inFlight, runFrom_inFlight held inFlight]
      | false =>
        have fresh : key ∉ flying := by
          rw [← keeps.inFlight]
          simpa [History.isInFlight] using inFlight
        -- so the bound of the nested searches is beyond the number of keys left to them
        have fewer : (p.freeKeys roots (Names.insert key flying)).card <
            (p.freeKeys roots flying).card :=
          card_freeKeys_insert (key_mem_keys knownUnique acceptPartial) fresh
        have step : p.Plans start roots (.request (Concept.unique request)) fun nested =>
            p.searchStep nested (Concept.unique request) depth acceptPartial :=
          plans_searchStep knownUnique
        have alike := step.runFrom_congr
          (fun nested depth partially h asked before =>
            ih depth partially (by omega) asked before)
          (fun nested depth partially asked => searches_search _ nested depth partially asked)
          (keeps.started key)
        rw [runFrom_fresh held inFlight, runFrom_fresh held inFlight, alike]

/-- A plan is made by the rules, and planning keeps the invariant whether a plan is found or not. -/
theorem keeps_plan {request : List Concept} {h : History} (depth : Nat)
    (known : (Goal.request request).Known p roots) (keeps : p.Keeps start roots flying h) :
    p.Keeps start roots flying (p.plan request depth h).2 ∧
      ∀ node, (p.plan request depth h).1 = .ok node →
        p.Makes start roots (.request request) node := by
  have run := searches_search (p.searchBound request) request depth p.acceptPartial known h keeps
  unfold Search.runFrom at run
  unfold plan
  dsimp only
  split
  · next node after ran =>
    rw [ran] at run
    refine ⟨run.1, fun found same => ?_⟩
    cases same
    exact run.2 node rfl
  all_goals
    next ran =>
    rw [ran] at run
    exact ⟨run.1, nofun⟩

/-- The history of a planner after it was asked for plans, each at some depth. -/
def historyAfter (p : Planner) (requests : List (List Concept × Nat)) : History :=
  requests.foldl (fun h request => (p.plan request.1 request.2 h).2) {}

theorem keeps_historyAfter {requests : List (List Concept × Nat)}
    (known : ∀ request ∈ requests, (Goal.request request.1).Known p roots) :
    p.Keeps {} roots [] (p.historyAfter requests) := by
  suffices run : ∀ h, p.Keeps {} roots [] h →
      p.Keeps {} roots []
        (requests.foldl (fun h request => (p.plan request.1 request.2 h).2) h) from
    run {} ⟨rfl, fun _ _ held => .inl held⟩
  induction requests with
  | nil => exact fun h keeps => keeps
  | cons request requests ih =>
    intro h keeps
    exact ih (fun other member => known other (List.mem_cons_of_mem _ member)) _
      (keeps_plan request.2 (known request List.mem_cons_self) keeps).1

/-- A plan is made by the rules, for known concepts, also if it is found after others. -/
theorem makes_plan {p : Planner} {earlier : List (List Concept × Nat)} {request : List Concept}
    {depth : Nat} {node : Node}
    (found : (p.plan request depth (p.historyAfter earlier)).1 = .ok node) :
    (Goal.request request).Known p (earlier.flatMap (·.1) ++ request) ∧
      p.Makes {} (earlier.flatMap (·.1) ++ request) (.request request) node := by
  have known : (Goal.request request).Known p (earlier.flatMap (·.1) ++ request) :=
    fun c asked => known_of_mem_request (List.mem_append_right _ asked)
  have before : ∀ other ∈ earlier,
      (Goal.request other.1).Known p (earlier.flatMap (·.1) ++ request) := by
    intro other member c asked
    refine known_of_mem_request (List.mem_append_left _ ?_)
    exact List.mem_flatMap.mpr ⟨other, member, asked⟩
  exact ⟨known, (keeps_plan depth known (keeps_historyAfter before)).2 node found⟩

end

end Planner

end SemanticQuery
