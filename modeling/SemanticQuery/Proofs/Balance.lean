import SemanticQuery.Concept.Declare
import SemanticQuery.Proofs.Inquiries

/-!
The history is in balance after every search. Whatever the outcome, the keys in flight are those
from before, only keys in flight are marked as incomplete, and nothing that was remembered is
forgotten or replaced. This holds at every state that a planner can be in, also in the middle of a
search.
-/

namespace SemanticQuery

namespace History

/-- Only keys in flight are incomplete. -/
def Tidy (h : History) : Prop := ∀ key ∈ h.incomplete, key ∈ h.inFlight

/-- How a search moves a history on: it ends with the keys in flight with which it began, takes no
mark from them and marks no others, and neither forgets a result nor finds one for them. -/
structure Continues (before after : History) : Prop where
  inFlight : after.inFlight = before.inFlight
  marked : ∀ key ∈ before.inFlight, key ∈ before.incomplete → key ∈ after.incomplete
  unmarked : ∀ key ∈ after.incomplete, key ∈ before.incomplete ∨ key ∈ before.inFlight
  results : ∀ key result, before.get? key = some result → after.get? key = some result
  absent : ∀ key ∈ before.inFlight, before.get? key = none → after.get? key = none

theorem Continues.refl (h : History) : h.Continues h :=
  ⟨rfl, fun _ _ marked => marked, fun _ => .inl, fun _ _ held => held, fun _ _ absent => absent⟩

theorem Continues.trans {a b c : History} (first : a.Continues b) (second : b.Continues c) :
    a.Continues c where
  inFlight := second.inFlight.trans first.inFlight
  marked key flying marked :=
    second.marked key (first.inFlight ▸ flying) (first.marked key flying marked)
  unmarked key marked := by
    rcases second.unmarked key marked with before | flying
    · exact first.unmarked key before
    · exact .inr (first.inFlight ▸ flying)
  results key result held := second.results key result (first.results key result held)
  absent key flying missing :=
    second.absent key (first.inFlight ▸ flying) (first.absent key flying missing)

theorem Continues.tidy {before after : History} (continues : before.Continues after)
    (tidy : before.Tidy) : after.Tidy := by
  intro key marked
  rw [continues.inFlight]
  exact (continues.unmarked key marked).elim (tidy key) id

theorem mem_foldl_insert {names others : List String} {name : String} :
    name ∈ names.foldl (fun all name => Names.insert name all) others ↔
      name ∈ others ∨ name ∈ names := by
  induction names generalizing others with
  | nil => simp
  | cons first rest ih =>
    rw [List.foldl_cons, ih, Names.mem_insert, List.mem_cons, or_assoc, or_left_comm]

theorem mem_incomplete_shortCircuit {h : History} {key : String} :
    key ∈ h.shortCircuit.incomplete ↔ key ∈ h.incomplete ∨ key ∈ h.inFlight := mem_foldl_insert

theorem continues_shortCircuit (h : History) : h.Continues h.shortCircuit where
  inFlight := rfl
  marked _ _ marked := mem_incomplete_shortCircuit.mpr (.inl marked)
  unmarked _ marked := mem_incomplete_shortCircuit.mp marked
  results _ _ held := held
  absent _ _ missing := missing

theorem Tidy.start {h : History} (tidy : h.Tidy) (key : String) : (h.start key).Tidy :=
  fun other marked => Names.mem_insert.mpr (.inr (tidy other marked))

end History

namespace Planner

open History

section Settled

variable {key : String} {outcome : Except Halt (Option Node)} {h after : History}

theorem settled_inFlight : (settled key outcome h).inFlight = h.inFlight.filter (· != key) := by
  unfold settled
  split
  · rfl
  · split <;> rfl

theorem settled_incomplete :
    (settled key outcome h).incomplete = h.incomplete.filter (· != key) := by
  unfold settled
  split
  · rfl
  · split <;> rfl

/-- Settling a search records a result for its own key at most. -/
theorem get?_settled {other : String} (distinct : other ≠ key) :
    (settled key outcome h).get? other = h.get? other := by
  unfold settled
  split
  · rfl
  · split
    · exact (NameMap.get?_insert _ _ _ _).trans (if_neg distinct)
    · rfl

/-- A search that was put in flight, worked off and settled. -/
theorem continues_settled (absent : h.get? key = none) (fresh : key ∉ h.inFlight)
    (continues : (h.start key).Continues after) : h.Continues (settled key outcome after) := by
  have others : ∀ other ∈ h.inFlight, other ≠ key := fun other flying same => fresh (same ▸ flying)
  have started : ∀ other ∈ h.inFlight, other ∈ (h.start key).inFlight :=
    fun other flying => Names.mem_insert.mpr (.inr flying)
  refine ⟨?_, fun other flying marked => ?_, fun other marked => ?_, fun other result held => ?_,
    fun other flying missing => ?_⟩
  · rw [settled_inFlight, continues.inFlight]
    exact Names.filter_insert fresh
  · rw [settled_incomplete]
    simp only [List.mem_filter, bne_iff_ne]
    exact ⟨continues.marked other (started other flying) marked, others other flying⟩
  · rw [settled_incomplete] at marked
    simp only [List.mem_filter, bne_iff_ne] at marked
    refine (continues.unmarked other marked.1).imp_right fun flying => ?_
    exact (Names.mem_insert.mp flying).resolve_left marked.2
  · have distinct : other ≠ key := by
      rintro rfl
      rw [absent] at held
      cases held
    rw [get?_settled distinct]
    exact continues.results other result held
  · rw [get?_settled (others other flying)]
    exact continues.absent other (started other flying) missing

end Settled

section

variable {p : Planner} {start : History} {roots : List Concept} {flying : List String} {bound : Nat}
  {q inner : Inquiry}

/-- The work for an inquiry follows the rules for plans. -/
theorem plans_work (known : (Goal.request q.request).Known p roots) :
    p.Plans start roots (.request (Concept.unique q.request)) (p.work q) :=
  plans_searchStep fun c member => known c (Concept.mem_of_mem_unique member)

/-- A search moves the history on, whatever its outcome. -/
theorem continues_search (bound : Nat) (q : Inquiry)
    (known : (Goal.request q.request).Known p roots)
    (keeps : p.Keeps start roots flying q.history) :
    q.history.Continues (q.run (p.search bound)).2 := by
  induction bound generalizing flying q with
  | zero => exact .refl _
  | succ bound ih =>
    rcases q.remembered_or_isCut_or_starts with ⟨result, held⟩ | cut | starts
    · rw [run_remembered held]
      exact .refl _
    · rw [run_isCut cut]
      exact continues_shortCircuit _
    · rw [run_starts starts]
      apply continues_settled starts.1 starts.fresh
      exact (plans_work known).related Continues .refl .trans (searches_search bound) ih
        (keeps.started q.key)

theorem keeps_self (p : Planner) (roots : List Concept) (h : History) :
    p.Keeps h roots h.inFlight h :=
  ⟨rfl, fun _ _ held => .inl held⟩

theorem continues_run (p : Planner) (bound : Nat) (q : Inquiry) :
    q.history.Continues (q.run (p.search bound)).2 :=
  continues_search bound q (fun _ => known_of_mem_request) (keeps_self p q.request q.history)

end

/-- The histories that a planner can have, also in the middle of a search: at the start, once the
key of a search is put in flight, and after a search. -/
inductive Reached (p : Planner) : History → Prop
  | fresh : Reached p {}
  | begun {q : Inquiry} : q.Starts → Reached p q.history → Reached p (q.history.start q.key)
  | searched {q : Inquiry} (bound : Nat) :
      Reached p q.history → Reached p (q.run (p.search bound)).2

theorem Reached.tidy {p : Planner} {h : History} (reached : p.Reached h) : h.Tidy := by
  induction reached with
  | fresh => exact fun key marked => absurd marked List.not_mem_nil
  | begun _ _ ih => exact ih.start _
  | searched bound _ ih => exact (continues_run p bound _).tidy ih

/-- Every search that is made in the course of another one starts from a history that is reached. -/
theorem Reached.of_below {p : Planner} {bound : Nat} {outer inner : Inquiry}
    (below : p.Below bound outer inner) (reached : p.Reached outer.history) :
    p.Reached inner.history := by
  have made {bound : Nat} {q r : Inquiry} (starts : q.Starts)
      (made : Inquires (p.work q) (p.search bound) (q.history.start q.key) r)
      (reached : p.Reached q.history) : p.Reached r.history := by
    have known : (Goal.request q.request).Known p q.request := fun _ => known_of_mem_request
    have keeps := (keeps_self p q.request q.history).started q.key
    obtain ⟨_, _, onward, _⟩ := (plans_work known).of_inquires
      (fun before after => p.Reached before → p.Reached after)
      (fun _ reached => reached) (fun first second reached => second (first reached))
      (searches_search bound) (fun _ _ _ reached => reached.searched bound) keeps made
    exact onward (.begun starts reached)
  induction below with
  | direct starts inquires => exact made starts inquires reached
  | deeper starts inquires _ ih => exact ih (made starts inquires reached)

/-- A search leaves the history in balance, at every state that a planner can be in and whether it
finds a plan, finds none or fails: the keys in flight are those from before, only they may be
incomplete, and every result that was remembered is remembered still. The searches made in its
course start from such states too. -/
theorem search_balanced {p : Planner} {h : History} (reached : p.Reached h) (bound : Nat)
    (request : List Concept) (depth : Nat) (acceptPartial : Bool)
    {outcome : Except Halt (Option Node)} {after : History}
    (ran : (p.search bound request depth acceptPartial).runFrom h = (outcome, after)) :
    after.inFlight = h.inFlight ∧ (∀ key ∈ after.incomplete, key ∈ after.inFlight) ∧
      (h.inFlight = [] → after.incomplete = []) ∧
      (∀ key result, h.get? key = some result → after.get? key = some result) ∧
      ∀ inner, p.Below bound ⟨request, depth, acceptPartial, h⟩ inner →
        p.Reached inner.history := by
  have continues : h.Continues after := by
    have run := continues_run p bound ⟨request, depth, acceptPartial, h⟩
    rwa [Inquiry.run, ran] at run
  have tidy : after.Tidy := continues.tidy reached.tidy
  refine ⟨continues.inFlight, tidy, fun idle => ?_, continues.results,
    fun inner below => reached.of_below below⟩
  apply List.eq_nil_iff_forall_not_mem.mpr
  intro key marked
  have flying := tidy key marked
  rw [continues.inFlight, idle] at flying
  exact List.not_mem_nil flying

end Planner

namespace Parcels

def parcel : Concept := .key "parcel" .integer

def doubled : Concept :=
  .derive "doubled" .property
    (.call ⟨.multiply, [.concept parcel, .literal (.integer 2)], .integer, .property⟩)

def table : Datasource := .table "parcels" [⟨"parcel", parcel, []⟩]

def catalog : Catalog :=
  .of (.ofList [(doubled.address, doubled), (parcel.address, parcel)]) [table]

def planner : Planner := ⟨catalog, .ofCatalog catalog, false, true, none⟩

/-- The first search of a planner. -/
def outer : Inquiry := ⟨[parcel], 0, false, {}⟩

/-- The history while it is in flight. -/
def flying : History := outer.history.start outer.key

theorem reached_flying : planner.Reached flying := .begun ⟨rfl, rfl⟩ .fresh

end Parcels

/-- The search for what is doubled meets the one in flight, which is marked as incomplete. -/
theorem Planner.search_balanced_doubled :
    Parcels.planner.Reached Parcels.flying ∧
      ∃ outcome after,
        (Parcels.planner.search 8 [Parcels.doubled] 1 false).runFrom Parcels.flying =
          (outcome, after) ∧
        after.inFlight = [Parcels.outer.key] ∧ after.incomplete = [Parcels.outer.key] ∧
        (∀ key ∈ after.incomplete, key ∈ after.inFlight) ∧
        ∀ key result, Parcels.flying.get? key = some result → after.get? key = some result := by
  let ran := (Parcels.planner.search 8 [Parcels.doubled] 1 false).runFrom Parcels.flying
  obtain ⟨inFlight, tidy, _, results, _⟩ :=
    Planner.search_balanced Parcels.reached_flying 8 [Parcels.doubled] 1 false (Prod.eta ran).symm
  refine ⟨Parcels.reached_flying, ran.1, ran.2, rfl, inFlight, ?_, tidy, results⟩
  decide +kernel

end SemanticQuery
