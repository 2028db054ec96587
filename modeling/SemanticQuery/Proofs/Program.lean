import SemanticQuery.Plan.Search

/-!
Programs that plan with the help of nested searches. Such a program may fail, or ask the search for
a plan and go on with the answer, and it does not touch the history on its own. What it does
therefore follows from what the searches do that it asks for, and two searches that answer alike
make it run alike.
-/

namespace SemanticQuery

namespace Search

/-- The outcome of a run that starts with a history, and the history after it. -/
def runFrom (x : Search α) (h : History) : Except Halt α × History := x.run.run h

@[simp] theorem runFrom_pure (a : α) (h : History) : (pure a : Search α).runFrom h = (.ok a, h) :=
  rfl

@[simp] theorem runFrom_get (h : History) : (get : Search History).runFrom h = (.ok h, h) := rfl

@[simp] theorem runFrom_set (h h' : History) :
    (set h' : Search PUnit).runFrom h = (.ok ⟨⟩, h') := rfl

@[simp] theorem runFrom_outcome (x : Search α) (h : History) :
    x.outcome.runFrom h = (.ok (x.runFrom h).1, (x.runFrom h).2) := rfl

theorem runFrom_bind (x : Search α) (k : α → Search β) (h : History) :
    (x >>= k).runFrom h =
      match x.runFrom h with
      | (.ok a, h') => (k a).runFrom h'
      | (.error halt, h') => (.error halt, h') := by
  simp only [runFrom, ExceptT.run_bind, StateT.run_bind]
  rcases x.run.run h with ⟨_ | _, h'⟩ <;> rfl

/-- A run keeps an invariant of the history, whatever its outcome, and its result or the reason why
it halts is as stated. -/
def Yields (x : Search α) (inv : History → Prop) (post : α → Prop) (halts : Halt → Prop) : Prop :=
  ∀ h, inv h → inv (x.runFrom h).2 ∧
    match (x.runFrom h).1 with
    | .ok a => post a
    | .error halt => halts halt

theorem Yields.bind {x : Search α} {k : α → Search β} {inv : History → Prop} {mid : α → Prop}
    {post : β → Prop} {halts : Halt → Prop} (first : x.Yields inv mid halts)
    (rest : ∀ a, mid a → (k a).Yields inv post halts) : (x >>= k).Yields inv post halts := by
  intro h before
  have step := first h before
  rcases ran : x.runFrom h with ⟨outcome, h'⟩
  rw [ran] at step
  rw [runFrom_bind, ran]
  cases outcome with
  | ok a => exact rest a step.2 h' step.1
  | error halt => exact step

end Search

/-- A program that asks searches only for requests as in `asked`, and whose result is as in `post`
if every answer is as in `found`. -/
inductive Asks (asked : List Concept → Prop) (found : List Concept → Node → Prop)
    (post : α → Prop) : (Searcher → Search α) → Prop
  | done (a : α) : post a → Asks asked found post fun _ => pure a
  | fail (error : PlanError) : Asks asked found post fun _ => throw (.failed error)
  | ask (request : List Concept) (depth : Nat) (acceptPartial : Bool)
      (next : Option Node → Searcher → Search α) :
      asked request →
      (∀ answer, (∀ node, answer = some node → found request node) →
        Asks asked found post (next answer)) →
      Asks asked found post fun search =>
        search request depth acceptPartial >>= fun answer => next answer search

namespace Asks

variable {asked : List Concept → Prop} {found : List Concept → Node → Prop}

theorem ofExcept {result : Except PlanError α} {post : α → Prop}
    (good : ∀ a, result = .ok a → post a) :
    Asks asked found post fun _ => Search.ofExcept result := by
  cases result with
  | ok a => exact .done a (good a rfl)
  | error error => exact .fail error

/-- A program may end with a search. -/
theorem answer {request : List Concept} {depth : Nat} {acceptPartial : Bool}
    {post : Option Node → Prop} (allowed : asked request)
    (good : ∀ answer, (∀ node, answer = some node → found request node) → post answer) :
    Asks asked found post fun search => search request depth acceptPartial := by
  have program : Asks asked found post fun search =>
      search request depth acceptPartial >>= fun answer => pure answer :=
    .ask request depth acceptPartial (fun answer _ => pure answer) allowed fun answer found =>
      .done answer (good answer found)
  simpa only [bind_pure] using program

/-- A program may go on with what another has found. -/
theorem bind {x : Searcher → Search α} {k : α → Searcher → Search β} {mid : α → Prop}
    {post : β → Prop} (first : Asks asked found mid x)
    (rest : ∀ a, mid a → Asks asked found post (k a)) :
    Asks asked found post fun search => x search >>= fun a => k a search := by
  induction first with
  | done a good =>
    simp only [pure_bind]
    exact rest a good
  | fail error => exact .fail error
  | ask request depth acceptPartial next allowed _ ih =>
    simp only [bind_assoc]
    exact .ask request depth acceptPartial _ allowed fun answer good => ih answer good

theorem weaken {x : Searcher → Search α} {post weaker : α → Prop}
    (program : Asks asked found post x) (implied : ∀ a, post a → weaker a) :
    Asks asked found weaker x := by
  induction program with
  | done a good => exact .done a (implied a good)
  | fail error => exact .fail error
  | ask request depth acceptPartial next allowed _ ih =>
    exact .ask request depth acceptPartial next allowed ih

/-- A program keeps every invariant that the search keeps, and halts for no other reason than a
failure of its own and those of the search. -/
theorem yields {x : Searcher → Search α} {post : α → Prop} {search : Searcher}
    {inv : History → Prop} {halts : Halt → Prop} (program : Asks asked found post x)
    (fails : ∀ error, halts (.failed error))
    (answers : ∀ request depth acceptPartial, asked request →
      (search request depth acceptPartial).Yields inv
        (fun answer => ∀ node, answer = some node → found request node) halts) :
    (x search).Yields inv post halts := by
  induction program with
  | done a good => exact fun h before => ⟨before, good⟩
  | fail error => exact fun h before => ⟨before, fails error⟩
  | ask request depth acceptPartial next allowed _ ih =>
    exact (answers request depth acceptPartial allowed).bind ih

/-- Searches that run alike wherever an invariant holds, and keep it, make a program run alike. -/
theorem runFrom_congr {x : Searcher → Search α} {post : α → Prop} {search other : Searcher}
    {inv : History → Prop} {halts : Halt → Prop} (program : Asks asked found post x)
    (alike : ∀ request depth acceptPartial h, asked request → inv h →
      (search request depth acceptPartial).runFrom h =
        (other request depth acceptPartial).runFrom h)
    (answers : ∀ request depth acceptPartial, asked request →
      (search request depth acceptPartial).Yields inv
        (fun answer => ∀ node, answer = some node → found request node) halts)
    {h : History} (before : inv h) : (x search).runFrom h = (x other).runFrom h := by
  induction program generalizing h with
  | done a good => rfl
  | fail error => rfl
  | ask request depth acceptPartial next allowed _ ih =>
    have same := alike request depth acceptPartial h allowed before
    have step := answers request depth acceptPartial allowed h before
    rcases ran : (search request depth acceptPartial).runFrom h with ⟨outcome, h'⟩
    rw [ran] at step same
    rw [Search.runFrom_bind, Search.runFrom_bind, ran, ← same]
    cases outcome with
    | ok answer => exact ih answer step.2 step.1
    | error halt => rfl

end Asks

end SemanticQuery
