import SemanticQuery.Proofs.Balance

/-!
A miss is remembered only if it does not hang on the searches in flight. A search that meets one of
them marks all of them as incomplete, and a miss of an incomplete search is not remembered. A search
that meets none runs alike if fewer keys are in flight, and so does not depend on them.
-/

namespace SemanticQuery

/-- A history that remembers what another one does, while no other keys are in flight. -/
structure History.Calmer (calm h : History) : Prop where
  results : calm.results = h.results
  inFlight : ∀ key ∈ calm.inFlight, key ∈ h.inFlight
  tidy : calm.Tidy

namespace History.Calmer

variable {calm h : History}

theorem refl (tidy : h.Tidy) : h.Calmer h := ⟨rfl, fun _ flying => flying, tidy⟩

theorem empty (h : History) : Calmer { results := h.results } h :=
  ⟨rfl, fun _ flying => absurd flying List.not_mem_nil,
    fun _ marked => absurd marked List.not_mem_nil⟩

theorem start (calmer : calm.Calmer h) (key : String) : (calm.start key).Calmer (h.start key) := by
  refine ⟨calmer.results, fun other flying => ?_, calmer.tidy.start key⟩
  exact Names.mem_insert.mpr ((Names.mem_insert.mp flying).imp_right (calmer.inFlight other))

theorem get?_eq (calmer : calm.Calmer h) (key : String) : calm.get? key = h.get? key :=
  congrArg (·.get? key) calmer.results

end History.Calmer

namespace Search

variable {x : Search α} {h : History}

/-- Whether a run marks every key in flight as incomplete, unless it halts. -/
def Marks (x : Search α) (h : History) : Prop :=
  ∀ a after, x.runFrom h = (.ok a, after) → ∀ key ∈ h.inFlight, key ∈ after.incomplete

/-- Whether a run does not depend on the keys in flight: with fewer of them it has the same outcome
and finds the same results, and it changes nothing else. -/
def Steady (x : Search α) (h : History) : Prop :=
  ∀ calm : History, calm.Calmer h →
    x.runFrom calm = ((x.runFrom h).1, { calm with results := (x.runFrom h).2.results })

theorem Steady.of_unchanged {outcome : Except Halt α} (same : ∀ h, x.runFrom h = (outcome, h)) :
    x.Steady h := by
  intro calm calmer
  rw [same, same, ← calmer.results]

theorem Steady.after_eq {outcome : Except Halt α} {after : History} (steady : x.Steady h)
    (tidy : h.Tidy) (ran : x.runFrom h = (outcome, after)) :
    after = { h with results := after.results } := by
  have own := steady h (.refl tidy)
  rw [ran] at own
  exact congrArg Prod.snd own

theorem Steady.bind {k : α → Search β} (first : x.Steady h) (tidy : h.Tidy)
    (rest : ∀ a after, x.runFrom h = (.ok a, after) → (k a).Steady after) :
    (x >>= k).Steady h := by
  intro calm calmer
  have again := first calm calmer
  rcases ran : x.runFrom h with ⟨halt | a, after⟩
  · rw [ran] at again
    rw [runFrom_bind_error ran, runFrom_bind_error again]
  · rw [ran] at again
    rw [runFrom_bind_ok ran, runFrom_bind_ok again]
    have flying : after.inFlight = h.inFlight := by rw [first.after_eq tidy ran]
    exact rest a after ran _ ⟨rfl, fun key held => flying ▸ calmer.inFlight key held, calmer.tidy⟩

end Search

namespace Asks

variable {asked : List Concept → Prop} {found : List Concept → Node → Prop} {post : α → Prop}
  {x : Searcher → Search α} {search other : Searcher} {inv : History → Prop} {halts : Halt → Prop}
  {h : History}

/-- A program does not depend on the keys in flight if none of its inquiries does. -/
theorem steady (program : Asks asked found post x)
    (answers : ∀ request depth acceptPartial, asked request →
      (search request depth acceptPartial).Yields inv
        (fun answer => ∀ node, answer = some node → found request node) halts)
    (before : inv h) (tidy : h.Tidy)
    (steps : ∀ q : Inquiry, q.history.Tidy → Inquires x search h q →
      (search q.request q.depth q.acceptPartial).Steady q.history) :
    (x search).Steady h := by
  induction program generalizing h with
  | done a good => exact .of_unchanged fun _ => rfl
  | fail error => exact .of_unchanged fun _ => rfl
  | ask request depth acceptPartial next allowed _ ih =>
    have first := steps ⟨request, depth, acceptPartial, h⟩ tidy inquires_first
    refine first.bind tidy fun answer after ran => ?_
    have step := answers request depth acceptPartial allowed h before
    rw [ran] at step
    refine ih answer step.2 step.1 ?_ fun q tidy made => ?_
    · rw [first.after_eq tidy ran]
      exact tidy
    · exact steps q tidy (inquires_ask.mpr (.inr ⟨answer, after, ran, made⟩))

/-- A program that gives a result gives it with every search that answers the same. -/
theorem runFrom_of_ok (program : Asks asked found post x)
    (answers : ∀ request depth acceptPartial, asked request →
      (search request depth acceptPartial).Yields inv
        (fun answer => ∀ node, answer = some node → found request node) halts)
    (same : ∀ (q : Inquiry) answer after, q.run search = (.ok answer, after) →
      q.run other = (.ok answer, after))
    (before : inv h) {a : α} {after : History} (ran : (x search).runFrom h = (.ok a, after)) :
    (x other).runFrom h = (.ok a, after) := by
  induction program generalizing h with
  | done a good => exact ran
  | fail error => exact ran
  | ask request depth acceptPartial next allowed _ ih =>
    have step := answers request depth acceptPartial allowed h before
    rcases first : (search request depth acceptPartial).runFrom h with ⟨halt | answer, between⟩
    · rw [Search.runFrom_bind_error first] at ran
      cases ran
    · rw [Search.runFrom_bind_ok first] at ran
      rw [first] at step
      have again := same ⟨request, depth, acceptPartial, h⟩ answer between first
      rw [Search.runFrom_bind_ok again]
      exact ih answer step.2 step.1 ran

end Asks

namespace Planner

open History

section Settled

variable {key : String} {outcome : Except Halt (Option Node)} {h : History}

/-- What is remembered after a search that met no other one. -/
def noted (key : String) (outcome : Except Halt (Option Node)) (results : NameMap (Option Node)) :
    NameMap (Option Node) :=
  match outcome with
  | .ok result => results.insert key result
  | .error _ => results

theorem settled_start (fresh : key ∉ h.inFlight) (tidy : h.Tidy)
    (results : NameMap (Option Node)) :
    settled key outcome { h.start key with results := results } =
      { h with results := noted key outcome results } := by
  have unmarked : key ∉ h.incomplete := fun marked => fresh (tidy key marked)
  have flying : (Names.insert key h.inFlight).filter (· != key) = h.inFlight :=
    Names.filter_insert fresh
  have marks : h.incomplete.filter (· != key) = h.incomplete := by
    apply List.filter_eq_self.mpr
    intro other marked
    simpa using fun same : other = key => unmarked (same ▸ marked)
  cases outcome <;>
    simp [settled, noted, History.start, History.finish, History.record, History.isIncomplete,
      unmarked, flying, marks]

/-- Only the miss of a complete search is remembered. -/
theorem of_get?_settled (absent : h.get? key = none)
    (recorded : (settled key outcome h).get? key = some none) :
    outcome = .ok none ∧ key ∉ h.incomplete := by
  have finished : (h.finish key).get? key = none := absent
  cases outcome with
  | error halt =>
    rw [settled, finished] at recorded
    cases recorded
  | ok result =>
    rw [settled] at recorded
    split at recorded
    · next remembers =>
      rw [History.get?, History.record, NameMap.get?_insert, if_pos rfl] at recorded
      cases recorded
      exact ⟨rfl, by simpa [History.isIncomplete] using remembers⟩
    · rw [finished] at recorded
      cases recorded

end Settled

variable {p : Planner} {bound : Nat} {q inner : Inquiry}

/-- No search in flight is met, neither at once nor in the course of the search. -/
def Quiet (p : Planner) (bound : Nat) (q : Inquiry) : Prop :=
  ¬ q.IsCut ∧ ∀ inner, p.Below bound q inner → ¬ inner.IsCut

/-- A search that meets none in flight does not depend on the keys in flight. -/
theorem steady_search (bound : Nat) (q : Inquiry) (tidy : q.history.Tidy)
    (quiet : p.Quiet bound q) :
    (p.search bound q.request q.depth q.acceptPartial).Steady q.history := by
  induction bound generalizing q with
  | zero => exact .of_unchanged fun _ => rfl
  | succ bound ih =>
    intro calm calmer
    let again : Inquiry := { q with history := calm }
    change again.run (p.search (bound + 1)) =
      ((q.run (p.search (bound + 1))).1,
        { calm with results := (q.run (p.search (bound + 1))).2.results })
    have get? : again.history.get? again.key = q.history.get? q.key := calmer.get?_eq q.key
    rcases q.remembered_or_isCut_or_starts with ⟨result, held⟩ | cut | starts
    · rw [run_remembered held, run_remembered (get?.trans held), ← calmer.results]
    · exact absurd cut quiet.1
    · have fresh : q.key ∉ calm.inFlight := fun flying => starts.fresh (calmer.inFlight _ flying)
      have landed : calm.isInFlight q.key = false := by simpa [History.isInFlight] using fresh
      have startsAgain : again.Starts := ⟨get?.trans starts.1, landed⟩
      have work : (p.work q (p.search bound)).Steady (q.history.start q.key) := by
        have keeps := (keeps_self p q.request q.history).started q.key
        refine (plans_work fun _ => known_of_mem_request).steady (searches_search bound) keeps
          (tidy.start q.key) fun inner tidy made => ih inner tidy ⟨?_, fun deeper below => ?_⟩
        · exact quiet.2 inner (.direct starts made)
        · exact quiet.2 deeper (.deeper starts made below)
      rcases ran : (p.work q (p.search bound)).runFrom (q.history.start q.key) with ⟨outcome, after⟩
      have rerun : (p.work again (p.search bound)).runFrom (again.history.start again.key) =
          (outcome, { calm.start q.key with results := after.results }) := by
        have moved := work (calm.start q.key) (calmer.start q.key)
        rwa [ran] at moved
      rw [run_starts starts, run_starts startsAgain, rerun, ran,
        work.after_eq (tidy.start q.key) ran]
      dsimp only
      rw [settled_start starts.fresh tidy]
      exact congrArg (Prod.mk outcome) (settled_start fresh calmer.tidy after.results)

/-- A search with a larger bound on the nested ones gives the same result. -/
theorem run_of_ok (bound more : Nat) (q : Inquiry) {answer : Option Node} {after : History}
    (ran : q.run (p.search bound) = (.ok answer, after)) :
    q.run (p.search (bound + more)) = (.ok answer, after) := by
  induction bound generalizing q answer after with
  | zero => cases ran
  | succ bound ih =>
    rw [Nat.add_right_comm]
    rcases q.remembered_or_isCut_or_starts with ⟨result, held⟩ | cut | starts
    · rwa [run_remembered held] at ran ⊢
    · rwa [run_isCut cut] at ran ⊢
    · have keeps := (keeps_self p q.request q.history).started q.key
      rw [run_starts starts] at ran ⊢
      rcases work : (p.work q (p.search bound)).runFrom (q.history.start q.key) with
        ⟨halt | found, between⟩
      · rw [work] at ran
        cases ran
      · rw [work] at ran
        rwa [(plans_work fun _ => known_of_mem_request).runFrom_of_ok (searches_search bound)
          (fun inner answer after => ih inner) keeps work]

/-- A search that is cut short marks every key in flight. -/
theorem marks_of_isCut (bound : Nat) (cut : q.IsCut) :
    (p.search bound q.request q.depth q.acceptPartial).Marks q.history := by
  intro answer after ran key flying
  cases bound with
  | zero => cases ran
  | succ bound =>
    have same := (run_isCut cut bound).symm.trans ran
    cases same
    exact mem_incomplete_shortCircuit.mpr (.inr flying)

/-- What a search has marked stays marked while the one that has asked for it goes on. -/
theorem marks_work {outer : Inquiry}
    (made : Inquires (p.work outer) (p.search bound) (outer.history.start outer.key) q)
    (marks : (p.search bound q.request q.depth q.acceptPartial).Marks q.history) :
    (p.work outer (p.search bound)).Marks (outer.history.start outer.key) := by
  have keeps := (keeps_self p outer.request outer.history).started outer.key
  have known : (Goal.request outer.request).Known p outer.request := fun _ => known_of_mem_request
  obtain ⟨allowed, before, earlier, next, further, rest⟩ := (plans_work known).of_inquires Continues
    .refl .trans (searches_search bound) (fun q _ _ => continues_run p bound q) keeps made
  intro a after ran key flying
  rw [rest] at ran
  have answered := searches_search bound q.request q.depth q.acceptPartial allowed q.history before
  rcases first : (p.search bound q.request q.depth q.acceptPartial).runFrom q.history with
    ⟨halt | answer, between⟩
  · rw [Search.runFrom_bind_error first] at ran
    cases ran
  · rw [Search.runFrom_bind_ok first] at ran
    rw [first] at answered
    have later := (further answer answered.2).related Continues .refl .trans (searches_search bound)
      (fun q _ _ => continues_run p bound q) answered.1
    rw [ran] at later
    have inner : key ∈ q.history.inFlight := earlier.inFlight ▸ flying
    have marked := marks answer between first key inner
    have own := continues_run p bound q
    rw [Inquiry.run, first] at own
    exact later.marked key (own.inFlight ▸ inner) marked

theorem marks_of_starts (starts : q.Starts)
    (marks : (p.work q (p.search bound)).Marks (q.history.start q.key)) :
    (p.search (bound + 1) q.request q.depth q.acceptPartial).Marks q.history := by
  intro answer after ran key flying
  change q.run (p.search (bound + 1)) = _ at ran
  rw [run_starts starts] at ran
  rcases work : (p.work q (p.search bound)).runFrom (q.history.start q.key) with ⟨outcome, between⟩
  rw [work] at ran
  cases ran
  rw [settled_incomplete]
  simp only [List.mem_filter, bne_iff_ne]
  refine ⟨marks _ _ work key (Names.mem_insert.mpr (.inr flying)), ?_⟩
  rintro rfl
  exact starts.fresh flying

/-- If a search is cut short, the one in the course of which it is made marks every key in flight,
its own included. -/
theorem marks_of_below {outer : Inquiry} (below : p.Below (bound + 1) outer inner)
    (cut : inner.IsCut) :
    (p.work outer (p.search bound)).Marks (outer.history.start outer.key) := by
  induction bound generalizing outer with
  | zero =>
    cases below with
    | direct starts made => exact marks_work made (marks_of_isCut 0 cut)
    | deeper starts made below => cases below
  | succ bound ih =>
    cases below with
    | direct starts made => exact marks_work made (marks_of_isCut (bound + 1) cut)
    | @deeper _ _ middle _ starts made below =>
      have middleStarts : middle.Starts := by cases below <;> assumption
      exact marks_work made (marks_of_starts middleStarts (ih below))

/-- A search that records a miss has met none in flight. -/
theorem quiet_of_recorded (bound : Nat) (q : Inquiry) (absent : q.history.get? q.key = none)
    (recorded : (q.run (p.search bound)).2.get? q.key = some none) :
    p.Quiet bound q ∧ (q.run (p.search bound)).1 = .ok none := by
  cases bound with
  | zero => cases absent.symm.trans recorded
  | succ bound =>
    rcases q.remembered_or_isCut_or_starts with ⟨result, held⟩ | cut | starts
    · cases absent.symm.trans held
    · rw [run_isCut cut] at recorded
      cases absent.symm.trans recorded
    · rw [run_starts starts] at recorded ⊢
      have keeps := (keeps_self p q.request q.history).started q.key
      have flying : q.key ∈ (q.history.start q.key).inFlight := Names.mem_insert.mpr (.inl rfl)
      have continues := (plans_work fun _ => known_of_mem_request).related Continues .refl .trans
        (searches_search bound) (fun q _ _ => continues_run p bound q) keeps
      obtain ⟨missed, complete⟩ :=
        of_get?_settled (continues.absent q.key flying starts.1) recorded
      refine ⟨⟨fun cut => ?_, fun inner below cut => ?_⟩, missed⟩
      · cases starts.2.symm.trans cut.2
      · exact complete (marks_of_below below cut none _ (Prod.ext missed rfl) q.key flying)

/-- A miss that a search records is sound, at every state that a planner can be in: no search in its
course has met one in flight, and the search for the same request misses as well if nothing is in
flight and the results are those that were remembered when it began. -/
theorem miss_sound {p : Planner} {h : History} (reached : p.Reached h) (bound : Nat)
    (request : List Concept) (depth : Nat) (acceptPartial : Bool)
    {outcome : Except Halt (Option Node)} {after : History}
    (ran : (p.search bound request depth acceptPartial).runFrom h = (outcome, after))
    (absent : h.get? (History.key (Concept.unique request) acceptPartial) = none)
    (recorded : after.get? (History.key (Concept.unique request) acceptPartial) = some none) :
    (∀ inner, p.Below bound ⟨request, depth, acceptPartial, h⟩ inner → ¬ inner.IsCut) ∧
      ∀ more, (p.search (bound + more) request depth acceptPartial).runFrom
        { results := h.results } = (.ok none, { results := after.results }) := by
  let q : Inquiry := ⟨request, depth, acceptPartial, h⟩
  let calm : Inquiry := { q with history := { results := h.results } }
  have run : q.run (p.search bound) = (outcome, after) := ran
  have miss : (q.run (p.search bound)).2.get? q.key = some none := by rwa [run]
  obtain ⟨quiet, missed⟩ := quiet_of_recorded bound q absent miss
  have again : calm.run (p.search bound) =
      ((q.run (p.search bound)).1, { results := (q.run (p.search bound)).2.results }) :=
    steady_search bound q reached.tidy quiet { results := h.results } (.empty h)
  rw [missed, run] at again
  exact ⟨quiet.2, fun more => run_of_ok bound more calm again⟩

end Planner

namespace Parcels

/-- A key that no table has. -/
def lost : Concept := .key "lost" .integer

def counted : Concept :=
  .derive "counted" .property
    (.call ⟨.multiply, [.concept lost, .literal (.integer 2)], .integer, .property⟩)

def countedKey : String := History.key (Concept.unique [counted]) false

end Parcels

/-- While the search for parcels is in flight, the one for what is counted asks for the lost key in
vain, and its miss is recorded. -/
theorem Planner.miss_sound_counted :
    Parcels.planner.Reached Parcels.flying ∧ Parcels.flying.get? Parcels.countedKey = none ∧
      ∃ outcome after,
        (Parcels.planner.search 8 [Parcels.counted] 1 false).runFrom Parcels.flying =
          (outcome, after) ∧
        after.get? Parcels.countedKey = some none ∧
        (∀ inner, Parcels.planner.Below 8 ⟨[Parcels.counted], 1, false, Parcels.flying⟩ inner →
          ¬ inner.IsCut) ∧
        (Parcels.planner.search 8 [Parcels.counted] 1 false).runFrom {} =
          (.ok none, { results := after.results }) := by
  let ran := (Parcels.planner.search 8 [Parcels.counted] 1 false).runFrom Parcels.flying
  have absent : Parcels.flying.get? Parcels.countedKey = none := rfl
  have recorded : ran.2.get? Parcels.countedKey = some none := by
    have missed : (ran.2.get? Parcels.countedKey).map (·.isNone) = some true := by decide +kernel
    obtain ⟨result, held, none⟩ := Option.map_eq_some_iff.mp missed
    rw [held, Option.isNone_iff_eq_none.mp none]
  obtain ⟨quiet, again⟩ := Planner.miss_sound Parcels.reached_flying 8 [Parcels.counted] 1 false
    (Prod.eta ran).symm absent recorded
  exact ⟨Parcels.reached_flying, absent, ran.1, ran.2, rfl, recorded, quiet, again 0⟩

end SemanticQuery
