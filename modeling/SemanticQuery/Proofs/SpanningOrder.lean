import SemanticQuery.Proofs.JoinOrder

/-!
An order of joins is a spanning tree of their ends. The passes over the joins come to an end without
any bound on their number. They put the joins in order exactly if all ends are linked to each other:
the order starts with the first join, and every later join attaches one end that is new.
-/

namespace SemanticQuery

/-- Whether all ends of edges are linked to each other. Without edges there is nothing to link. -/
def Connected (edges : List (α × α)) : Prop :=
  ∀ a ∈ endpoints edges, ∀ b ∈ endpoints edges, Linked edges a b

namespace ParentJoin

variable {given joins ordered : List ParentJoin} {names : List String} {a : Attached}

/-- A join that says the same as another from its other side. -/
structure Reverses (k j : ParentJoin) : Prop where
  left : k.left = j.right
  right : k.right = j.left
  concepts : k.concepts = j.concepts
  mutualOnly : k.mutualOnly = j.mutualOnly
  leftOuter : k.joinType = .leftOuter ↔ j.joinType = .rightOuter
  rightOuter : k.joinType = .rightOuter ↔ j.joinType = .leftOuter
  others : j.joinType ≠ .leftOuter → j.joinType ≠ .rightOuter → k.joinType = j.joinType

theorem reverses_flip (j : ParentJoin) : j.flip.Reverses j := by
  obtain ⟨left, right, concepts, joinType, mutualOnly⟩ := j
  constructor <;> cases joinType <;> simp [flip, JoinType.flipped]

/-- An order of joins in which they grow a spanning tree of the ends of the given joins. -/
structure IsSpanningOrder (given ordered : List ParentJoin) : Prop where
  first : ordered.head? = given.head?
  later : ∀ k ∈ ordered.tail, k ∈ given ∨ ∃ j ∈ given, k.Reverses j
  attaches : ∀ before k after, ordered = before ++ k :: after → before ≠ [] →
    k.left ∈ endpoints (edges before) ∧ k.right ∉ endpoints (edges before)
  ends : ∀ i, i ∈ endpoints (edges ordered) ↔ i ∈ endpoints (edges given)
  fewer : given ≠ [] → ordered.length + 1 = (endpoints (edges given)).toFinset.card
  none : given = [] → ordered = []

/-- One pass over joins that wait. -/
def pass (a : Attached) (joins : List ParentJoin) : Attached :=
  joins.foldl Attached.take { a with waiting := [] }

/-- The answer that the passes come to, however many it takes. -/
inductive Loop (names : List String) :
    Attached → List ParentJoin → Except PlanError (List ParentJoin) → Prop
  | done {a : Attached} : Loop names a [] (.ok a.joins)
  | stuck {a : Attached} {joins : List ParentJoin} :
      joins ≠ [] → (pass a joins).waiting.length = joins.length →
      Loop names a joins (.error (.disconnectedJoins ((pass a joins).parents.map (label names))
        ((pass a joins).waiting.flatMap fun j => [label names j.left, label names j.right])))
  | again {a : Attached} {joins : List ParentJoin} {answer : Except PlanError (List ParentJoin)} :
      joins ≠ [] → (pass a joins).waiting.length ≠ joins.length →
      Loop names (pass a joins) (pass a joins).waiting answer → Loop names a joins answer

theorem orderFrom_succ (passes : Nat) (some : joins ≠ []) :
    orderFrom names (passes + 1) a joins =
      if (pass a joins).waiting.length == joins.length then
        .error (.disconnectedJoins ((pass a joins).parents.map (label names))
          ((pass a joins).waiting.flatMap fun j => [label names j.left, label names j.right]))
      else orderFrom names passes (pass a joins) (pass a joins).waiting := by
  rcases joins with _ | ⟨j, joins⟩
  · exact absurd rfl some
  · rfl

/-- As many passes as there are joins are enough, since each pass that is not the last leaves fewer
joins waiting. -/
theorem loop_orderFrom {passes : Nat} (enough : joins.length ≤ passes) :
    Loop names a joins (orderFrom names passes a joins) := by
  induction passes generalizing a joins with
  | zero =>
    have empty : joins = [] := List.length_eq_zero_iff.mp (by omega)
    subst empty
    exact .done
  | succ passes ih =>
    by_cases empty : joins = []
    · subst empty
      exact .done
    · simp only [orderFrom_succ passes empty]
      split
      · next stuck => exact .stuck empty (eq_of_beq stuck)
      · next moves =>
        have fewer : (pass a joins).waiting.length ≠ joins.length := by simpa using moves
        have atMost := Attached.length_waiting_le joins { a with waiting := [] }
        apply Loop.again empty fewer
        apply ih
        simp only [List.length_nil, pass] at atMost fewer ⊢
        omega

/-- The passes come to one answer. -/
theorem Loop.unique {answer other : Except PlanError (List ParentJoin)}
    (loop : Loop names a joins answer) (again : Loop names a joins other) : answer = other := by
  induction loop with
  | done =>
    cases again with
    | done => rfl
    | stuck some => exact absurd rfl some
    | again some => exact absurd rfl some
  | stuck some stuck =>
    cases again with
    | done => exact absurd rfl some
    | stuck => rfl
    | again _ moves => exact absurd stuck moves
  | again some moves _ ih =>
    cases again with
    | done => exact absurd rfl some
    | stuck _ stuck => exact absurd stuck moves
    | again _ _ rest => exact ih rest

theorem Attached.prefix_take (a : Attached) (j : ParentJoin) : a.joins <+: (a.take j).joins := by
  unfold take
  repeat' split
  all_goals simp

theorem Attached.prefix_foldl_take (joins : List ParentJoin) (a : Attached) :
    a.joins <+: (joins.foldl take a).joins := by
  induction joins generalizing a with
  | nil => simp
  | cons j joins ih => exact (a.prefix_take j).trans (ih (a.take j))

/-- Joins that were taken up stay in front. -/
theorem Loop.keeps {answer : Except PlanError (List ParentJoin)} (loop : Loop names a joins answer)
    (done : answer = .ok ordered) : a.joins <+: ordered := by
  induction loop with
  | done =>
    cases done
    simp
  | stuck => cases done
  | @again a joins answer _ _ _ ih =>
    exact (Attached.prefix_foldl_take joins { a with waiting := [] }).trans (ih done)

/-- The first join is taken up first, as it is. -/
theorem Loop.head (loop : Loop names {} joins (.ok ordered)) : ordered.head? = joins.head? := by
  rcases joins with _ | ⟨j, joins⟩
  · cases loop with
    | done => rfl
    | again some => exact absurd rfl some
  · cases loop with
    | again _ _ rest =>
      have started : (({} : Attached).take j).joins = [j] := rfl
      have kept := Attached.prefix_foldl_take joins (({} : Attached).take j)
      rw [started] at kept
      obtain ⟨after, rfl⟩ := kept.trans (rest.keeps rfl)
      simp

/-- What an order links, the joins that it is made of link. -/
theorem Ordered.linked {i k : Nat} (sorted : Ordered given ordered)
    (linked : Linked (edges ordered) i k) : Linked (edges given) i k := by
  apply linked.map (f := id)
  intro x y adjacent
  obtain ⟨j, listed, sides⟩ := adjacent_edges.mp adjacent
  apply Relation.ReflTransGen.single
  apply adjacent_edges.mpr
  rcases sorted.origin j listed with own | ⟨other, own, rfl⟩
  · exact ⟨j, own, sides⟩
  · exact ⟨other, own, by simpa [flip, and_comm, or_comm] using sides⟩

/-- Joins that can be put in order are connected. -/
theorem Ordered.connected (sorted : Ordered given ordered) : Connected (edges given) := by
  intro i first k second
  apply sorted.linked
  apply sorted.growing.linked
  · exact (sorted.ends i).mpr first
  · exact (sorted.ends k).mpr second

theorem Ordered.attaches (sorted : Ordered given ordered) {before after : List ParentJoin}
    {k : ParentJoin} (split : ordered = before ++ k :: after) (later : before ≠ []) :
    k.left ∈ endpoints (edges before) ∧ k.right ∉ endpoints (edges before) := by
  have edgesSplit : edges ordered = edges before ++ (k.left, k.right) :: edges after := by
    simp [split, edges]
  exact sorted.growing.attaches edgesSplit (by simpa [edges] using later)

/-- A growing tree has one join fewer than ends. -/
theorem Ordered.length (sorted : Ordered given ordered) (some : ordered ≠ []) :
    ordered.length + 1 = (endpoints (edges given)).toFinset.card := by
  have card := sorted.growing.card (by simpa [edges] using some)
  have same : (endpoints (edges ordered)).toFinset = (endpoints (edges given)).toFinset := by
    ext i
    simp [sorted.ends]
  rw [← same, card]
  simp [edges]

theorem Ordered.isSpanningOrder (sorted : Ordered given ordered)
    (first : ordered.head? = given.head?) : IsSpanningOrder given ordered where
  first := first
  later k member := by
    rcases sorted.origin k (List.mem_of_mem_tail member) with own | ⟨j, own, rfl⟩
    · exact .inl own
    · exact .inr ⟨j, own, reverses_flip j⟩
  attaches _ _ _ split later := sorted.attaches split later
  ends := sorted.ends
  fewer some := by
    apply sorted.length
    rintro rfl
    cases given with
    | nil => exact some rfl
    | cons j given => simp at first
  none empty := by
    subst empty
    simpa using first

/-- Joins of different parents are put in an order that grows a spanning tree of their ends, exactly
if these are connected. -/
theorem order_isSpanningOrder (names : List String) (apart : ∀ j ∈ joins, j.left ≠ j.right) :
    (∀ answer, Loop names {} joins answer ↔ answer = order joins names) ∧
      ((∃ ordered, order joins names = .ok ordered) ↔ Connected (edges joins)) ∧
      (∀ ordered, order joins names = .ok ordered → IsSpanningOrder joins ordered) ∧
      (¬ Connected (edges joins) →
        ∃ available remaining,
          order joins names = .error (.disconnectedJoins available remaining)) := by
  have loop : Loop names {} joins (order joins names) := loop_orderFrom (Nat.le_refl _)
  have only : ∀ answer, Loop names {} joins answer ↔ answer = order joins names :=
    fun answer => ⟨fun other => other.unique loop, fun same => same ▸ loop⟩
  have sorts := sorts_order names apart
  cases answer : order joins names with
  | ok ordered =>
    rw [answer] at loop only sorts
    have sorted : Ordered joins ordered := sorts
    refine ⟨only, ⟨fun _ => sorted.connected, fun _ => ⟨ordered, rfl⟩⟩, ?_, ?_⟩
    · rintro _ ⟨⟩
      exact sorted.isSpanningOrder loop.head
    · exact fun apart => absurd sorted.connected apart
  | error error =>
    rw [answer] at only sorts
    obtain ⟨⟨available, remaining, rfl⟩, i, first, k, second, unlinked⟩ := sorts
    refine ⟨only, ⟨?_, ?_⟩, ?_, fun _ => ⟨available, remaining, rfl⟩⟩
    · rintro ⟨_, ⟨⟩⟩
    · exact fun connected => absurd (connected i first k second) unlinked
    · rintro _ ⟨⟩

end ParentJoin

namespace Chain

/-- A chain of four parents. The second join has to wait, and is taken from its other side. -/
def joins : List ParentJoin :=
  [⟨2, 3, [], .full, false⟩, ⟨0, 1, [], .leftOuter, false⟩, ⟨1, 2, [], .leftOuter, true⟩]

def ordered : List ParentJoin :=
  [⟨2, 3, [], .full, false⟩, ⟨2, 1, [], .rightOuter, true⟩, ⟨1, 0, [], .rightOuter, false⟩]

/-- The chain without the join in its middle. -/
def broken : List ParentJoin := [⟨2, 3, [], .full, false⟩, ⟨0, 1, [], .leftOuter, false⟩]

end Chain

theorem ParentJoin.order_isSpanningOrder_chain :
    (∀ j ∈ Chain.joins, j.left ≠ j.right) ∧ Connected (edges Chain.joins) ∧
      IsSpanningOrder Chain.joins Chain.ordered ∧ ¬ Connected (edges Chain.broken) := by
  have apart : ∀ j ∈ Chain.joins, j.left ≠ j.right := by decide
  have brokenApart : ∀ j ∈ Chain.broken, j.left ≠ j.right := by decide
  obtain ⟨_, connected, spanning, _⟩ := order_isSpanningOrder [] apart
  obtain ⟨_, brokenConnected, _, _⟩ := order_isSpanningOrder [] brokenApart
  refine ⟨apart, connected.mp ⟨Chain.ordered, rfl⟩, spanning Chain.ordered rfl, fun linked => ?_⟩
  obtain ⟨_, ⟨⟩⟩ := brokenConnected.mpr linked

end SemanticQuery
