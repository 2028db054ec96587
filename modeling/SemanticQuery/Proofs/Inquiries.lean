import SemanticQuery.Proofs.Run

/-!
The searches that are made while another one runs. A program makes an inquiry of the search that it
is given if its own run hangs on the answer, and the inquiries below a search are those that it
makes while its key is in flight, with the ones below them.
-/

namespace SemanticQuery

/-- A search that is asked for, and the history that it starts from. -/
structure Inquiry where
  request : List Concept
  depth : Nat
  acceptPartial : Bool
  history : History

namespace Inquiry

/-- The outcome of the search, and the history after it. -/
def run (q : Inquiry) (search : Searcher) : Except Halt (Option Node) × History :=
  (search q.request q.depth q.acceptPartial).runFrom q.history

def key (q : Inquiry) : String := History.key (Concept.unique q.request) q.acceptPartial

/-- Whether the search has to be done: its key is neither remembered nor in flight. -/
def Starts (q : Inquiry) : Prop := q.history.get? q.key = none ∧ q.history.isInFlight q.key = false

/-- Whether the search is cut short: its key is in flight, and no result of it is remembered. -/
def IsCut (q : Inquiry) : Prop := q.history.get? q.key = none ∧ q.history.isInFlight q.key = true

theorem Starts.fresh {q : Inquiry} (starts : q.Starts) : q.key ∉ q.history.inFlight := by
  simpa [History.isInFlight] using starts.2

theorem remembered_or_isCut_or_starts (q : Inquiry) :
    (∃ result, q.history.get? q.key = some result) ∨ q.IsCut ∨ q.Starts := by
  cases held : q.history.get? q.key with
  | some result => exact .inl ⟨result, rfl⟩
  | none =>
    cases flying : q.history.isInFlight q.key with
    | true => exact .inr (.inl ⟨held, flying⟩)
    | false => exact .inr (.inr ⟨held, flying⟩)

end Inquiry

theorem Search.runFrom_bind_ok {x : Search α} {k : α → Search β} {h after : History} {a : α}
    (ran : x.runFrom h = (.ok a, after)) : (x >>= k).runFrom h = (k a).runFrom after := by
  rw [runFrom_bind, ran]

theorem Search.runFrom_bind_error {x : Search α} {k : α → Search β} {h after : History}
    {halt : Halt} (ran : x.runFrom h = (.error halt, after)) :
    (x >>= k).runFrom h = (.error halt, after) := by
  rw [runFrom_bind, ran]

namespace Searcher

open Classical in
/-- A search that gives another answer to one inquiry. -/
noncomputable def answering (search : Searcher) (q : Inquiry)
    (answer : Except Halt (Option Node) × History) : Searcher := fun request depth acceptPartial =>
  ExceptT.mk fun h : History =>
    if (⟨request, depth, acceptPartial, h⟩ : Inquiry) = q then answer
    else (search request depth acceptPartial).runFrom h

variable {search : Searcher} {q : Inquiry} {answer : Except Halt (Option Node) × History}

theorem run_answering : q.run (search.answering q answer) = answer := if_pos rfl

theorem run_answering_of_ne {r : Inquiry} (other : r ≠ q) :
    r.run (search.answering q answer) = r.run search := if_neg other

end Searcher

/-- A program makes an inquiry if it runs otherwise with some search that differs from the given one
in the answer to that inquiry only. -/
def Inquires (x : Searcher → Search α) (search : Searcher) (h : History) (q : Inquiry) : Prop :=
  ∃ other : Searcher, (∀ r, r ≠ q → r.run other = r.run search) ∧
    (x other).runFrom h ≠ (x search).runFrom h

section Ask

variable {search : Searcher} {request : List Concept} {depth : Nat} {acceptPartial : Bool}
  {h : History} {next : Option Node → Searcher → Search α} {q : Inquiry}

theorem inquires_first :
    Inquires (fun search => search request depth acceptPartial >>= fun answer => next answer search)
      search h ⟨request, depth, acceptPartial, h⟩ := by
  let ran := (search request depth acceptPartial >>= fun answer => next answer search).runFrom h
  let other : History := { inFlight := "" :: ran.2.inFlight }
  let first : Inquiry := ⟨request, depth, acceptPartial, h⟩
  refine ⟨search.answering first (.error .exhausted, other),
    fun r => Searcher.run_answering_of_ne, ?_⟩
  have stopped :
      (search.answering first (.error .exhausted, other) request depth acceptPartial).runFrom h =
        (.error .exhausted, other) :=
    Searcher.run_answering
  rw [Search.runFrom_bind_error stopped]
  intro same
  have longer : ("" :: ran.2.inFlight).length = ran.2.inFlight.length :=
    congrArg (·.2.inFlight.length) same
  simp at longer

/-- A program that asks at once makes that inquiry. If it is answered, the program goes on to make
the others, and there are no more. -/
theorem inquires_ask :
    Inquires (fun search => search request depth acceptPartial >>= fun answer => next answer search)
      search h q ↔
      q = ⟨request, depth, acceptPartial, h⟩ ∨
        ∃ answer after, (search request depth acceptPartial).runFrom h = (.ok answer, after) ∧
          Inquires (next answer) search after q := by
  by_cases same : q = ⟨request, depth, acceptPartial, h⟩
  · subst same
    simp [inquires_first]
  have head (other : Searcher) (agree : ∀ r, r ≠ q → r.run other = r.run search) :
      (other request depth acceptPartial).runFrom h =
        (search request depth acceptPartial).runFrom h :=
    agree ⟨request, depth, acceptPartial, h⟩ fun eq => same eq.symm
  rw [or_iff_right same]
  constructor
  · rintro ⟨other, agree, differs⟩
    rcases ran : (search request depth acceptPartial).runFrom h with ⟨_ | answer, after⟩
    · rw [Search.runFrom_bind_error ran, Search.runFrom_bind_error ((head other agree).trans ran)]
        at differs
      exact absurd rfl differs
    · rw [Search.runFrom_bind_ok ran, Search.runFrom_bind_ok ((head other agree).trans ran)]
        at differs
      exact ⟨answer, after, rfl, other, agree, differs⟩
  · rintro ⟨answer, after, ran, other, agree, differs⟩
    refine ⟨other, agree, ?_⟩
    rw [Search.runFrom_bind_ok ran, Search.runFrom_bind_ok ((head other agree).trans ran)]
    exact differs

end Ask

namespace Asks

variable {asked : List Concept → Prop} {found : List Concept → Node → Prop} {post : α → Prop}
  {x : Searcher → Search α} {search : Searcher} {inv : History → Prop} {halts : Halt → Prop}

/-- What every search does to the history, whatever its outcome, a program does as well. -/
theorem related (moves : History → History → Prop) (refl : ∀ h, moves h h)
    (trans : ∀ {a b c}, moves a b → moves b c → moves a c) (program : Asks asked found post x)
    (answers : ∀ request depth acceptPartial, asked request →
      (search request depth acceptPartial).Yields inv
        (fun answer => ∀ node, answer = some node → found request node) halts)
    (steps : ∀ q : Inquiry, asked q.request → inv q.history → moves q.history (q.run search).2)
    {h : History} (before : inv h) : moves h ((x search).runFrom h).2 := by
  induction program generalizing h with
  | done a good => exact refl h
  | fail error => exact refl h
  | ask request depth acceptPartial next allowed _ ih =>
    have first := steps ⟨request, depth, acceptPartial, h⟩ allowed before
    have step := answers request depth acceptPartial allowed h before
    rw [Inquiry.run] at first
    rcases ran : (search request depth acceptPartial).runFrom h with ⟨_ | answer, after⟩
    · rw [Search.runFrom_bind_error ran]
      rwa [ran] at first
    · rw [Search.runFrom_bind_ok ran]
      rw [ran] at step first
      exact trans first (ih answer step.2 step.1)

/-- An inquiry of a program is one that it may make, and comes after what the searches before it do
to the history. What the program does from there on is to make it and go on with the answer. -/
theorem of_inquires (moves : History → History → Prop) (refl : ∀ h, moves h h)
    (trans : ∀ {a b c}, moves a b → moves b c → moves a c) (program : Asks asked found post x)
    (answers : ∀ request depth acceptPartial, asked request →
      (search request depth acceptPartial).Yields inv
        (fun answer => ∀ node, answer = some node → found request node) halts)
    (steps : ∀ q : Inquiry, asked q.request → inv q.history → moves q.history (q.run search).2)
    {h : History} (before : inv h) {q : Inquiry} (made : Inquires x search h q) :
    asked q.request ∧ inv q.history ∧ moves h q.history ∧
      ∃ next : Option Node → Searcher → Search α,
        (∀ answer, (∀ node, answer = some node → found q.request node) →
          Asks asked found post (next answer)) ∧
        (x search).runFrom h =
          (search q.request q.depth q.acceptPartial >>= fun answer => next answer search).runFrom
            q.history := by
  induction program generalizing h with
  | done a good =>
    obtain ⟨_, _, differs⟩ := made
    exact absurd rfl differs
  | fail error =>
    obtain ⟨_, _, differs⟩ := made
    exact absurd rfl differs
  | ask request depth acceptPartial next allowed further ih =>
    rcases inquires_ask.mp made with rfl | ⟨answer, after, ran, made⟩
    · exact ⟨allowed, before, refl h, next, further, rfl⟩
    · have step := answers request depth acceptPartial allowed h before
      have first := steps ⟨request, depth, acceptPartial, h⟩ allowed before
      rw [Inquiry.run, ran] at first
      rw [ran] at step
      rw [Search.runFrom_bind_ok ran]
      obtain ⟨also, later, onward, rest⟩ := ih answer step.2 step.1 made
      exact ⟨also, later, trans first onward, rest⟩

end Asks

namespace Planner

/-- What is done for an inquiry while its key is in flight. -/
def work (p : Planner) (q : Inquiry) (search : Searcher) : Search (Option Node) :=
  p.searchStep search (Concept.unique q.request) q.depth q.acceptPartial

/-- The inquiries that are made in the course of another one, at any depth. -/
inductive Below (p : Planner) : (bound : Nat) → Inquiry → Inquiry → Prop
  | direct {bound : Nat} {outer inner : Inquiry} : outer.Starts →
      Inquires (p.work outer) (p.search bound) (outer.history.start outer.key) inner →
      Below p (bound + 1) outer inner
  | deeper {bound : Nat} {outer middle inner : Inquiry} : outer.Starts →
      Inquires (p.work outer) (p.search bound) (outer.history.start outer.key) middle →
      Below p bound middle inner → Below p (bound + 1) outer inner

variable {p : Planner} {q : Inquiry}

theorem run_remembered {result : Option Node} (held : q.history.get? q.key = some result)
    (bound : Nat) : q.run (p.search (bound + 1)) = (.ok result, q.history) :=
  runFrom_remembered held _

theorem run_isCut (cut : q.IsCut) (bound : Nat) :
    q.run (p.search (bound + 1)) = (.ok none, q.history.shortCircuit) :=
  runFrom_inFlight cut.1 cut.2 _

theorem run_starts (starts : q.Starts) (bound : Nat) :
    q.run (p.search (bound + 1)) =
      let ran := (p.work q (p.search bound)).runFrom (q.history.start q.key)
      (ran.1, settled q.key ran.1 ran.2) :=
  runFrom_fresh starts.1 starts.2 _

end Planner

end SemanticQuery
