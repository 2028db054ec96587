import Mathlib.Combinatorics.SimpleGraph.Connectivity.Connected
import SemanticQuery.Proofs.SpanningOrder

/-!
The connectivity test decides whether the graph of the joins is connected. Its passes come to an end
without any bound on their number, since each pass that is not the last reaches a further end of a
join. The test agrees with the order of joins, although this starts from the first join and leaves
joins out: joins connect all parents exactly if they can be put in order and those that are kept
connect all parents.
-/

namespace SemanticQuery

namespace ParentJoin

variable {joins ordered : List ParentJoin} {count : Nat} {reached : List Nat}

/-- The undirected graph on the parents that has the joins as its edges. -/
def graph (joins : List ParentJoin) (count : Nat) : SimpleGraph (Fin count) :=
  .fromRel fun a b => ∃ j ∈ joins, j.left = a ∧ j.right = b

theorem adjacent_of_adj {a b : Fin count} (adj : (graph joins count).Adj a b) :
    Adjacent (edges joins) a.val b.val := by
  obtain ⟨_, ⟨j, listed, sides⟩ | ⟨j, listed, sides⟩⟩ := (SimpleGraph.fromRel_adj _ a b).mp adj
  · exact adjacent_edges.mpr ⟨j, listed, .inl sides⟩
  · exact adjacent_edges.mpr ⟨j, listed, .inr sides⟩

theorem reachable_of_adjacent {a b : Fin count} (adjacent : Adjacent (edges joins) a.val b.val) :
    (graph joins count).Reachable a b := by
  by_cases same : a = b
  · subst same
    exact .rfl
  · refine SimpleGraph.Adj.reachable ((SimpleGraph.fromRel_adj _ a b).mpr ⟨same, ?_⟩)
    obtain ⟨j, listed, sides | sides⟩ := adjacent_edges.mp adjacent
    · exact .inl ⟨j, listed, sides⟩
    · exact .inr ⟨j, listed, sides⟩

/-- A way along joins stays among the parents, so it is a walk of the graph. -/
theorem reachable_of_linked (below : ∀ i ∈ endpoints (edges joins), i < count) {a : Fin count}
    {i : Nat} (linked : Linked (edges joins) a i) (low : i < count) :
    (graph joins count).Reachable a ⟨i, low⟩ := by
  induction linked with
  | refl => exact .rfl
  | @tail k i way adjacent ih =>
    have inside : k < count := by
      rcases Linked.eq_or_mem way with rfl | ends
      · exact a.isLt
      · exact below k ends
    exact (ih inside).trans (reachable_of_adjacent adjacent)

theorem linked_of_reachable {a b : Fin count} (reachable : (graph joins count).Reachable a b) :
    Linked (edges joins) a b := by
  rw [SimpleGraph.reachable_iff_reflTransGen] at reachable
  exact reachable.lift Fin.val fun _ _ => adjacent_of_adj

/-- A graph with a first vertex is connected if all vertices are reached from it. -/
theorem connected_graph_iff (some : 0 < count) (below : ∀ i ∈ endpoints (edges joins), i < count) :
    (graph joins count).Connected ↔ ∀ i < count, Linked (edges joins) 0 i := by
  constructor
  · intro connected i low
    exact linked_of_reachable (connected.preconnected ⟨0, some⟩ ⟨i, low⟩)
  · intro linked
    refine (SimpleGraph.connected_iff_exists_forall_reachable _).mpr ⟨⟨0, some⟩, fun b => ?_⟩
    exact reachable_of_linked below (linked b b.isLt) b.isLt

/-- The answer that the passes of the test come to, however many it takes. -/
inductive Spreads (joins : List ParentJoin) (count : Nat) : List Nat → Bool → Prop
  | all {reached : List Nat} :
      (reach joins reached).length = count → Spreads joins count reached true
  | stuck {reached : List Nat} :
      (reach joins reached).length ≠ count → (reach joins reached).length = reached.length →
      Spreads joins count reached false
  | again {reached : List Nat} {answer : Bool} :
      (reach joins reached).length ≠ count → (reach joins reached).length ≠ reached.length →
      Spreads joins count (reach joins reached) answer → Spreads joins count reached answer

/-- The passes come to one answer. -/
theorem Spreads.unique {answer other : Bool} (spreads : Spreads joins count reached answer)
    (again : Spreads joins count reached other) : answer = other := by
  induction spreads with
  | all full =>
    cases again with
    | all => rfl
    | stuck less => exact absurd full less
    | again less => exact absurd full less
  | stuck less same =>
    cases again with
    | all full => exact absurd full less
    | stuck => rfl
    | again _ grows => exact absurd same grows
  | again less grows _ ih =>
    cases again with
    | all full => exact absurd full less
    | stuck _ same => exact absurd same grows
    | again _ _ rest => exact ih rest

/-- The passes that are left are enough if they are more than the ends of joins that are not reached
yet, since each pass that is not the last reaches one of these. -/
theorem spreads_connectedFrom {passes : Nat} (increasing : reached.Pairwise (· < ·))
    (inside : ∀ i ∈ reached, i ∈ 0 :: endpoints (edges joins))
    (enough : 2 * joins.length + 2 ≤ passes + reached.length) :
    Spreads joins count reached (connectedFrom joins count passes reached) := by
  induction passes generalizing reached with
  | zero =>
    have few := length_reached_le increasing inside
    omega
  | succ passes ih =>
    have next : ∀ i ∈ reach joins reached, i ∈ 0 :: endpoints (edges joins) := by
      intro i member
      obtain ⟨k, own, way⟩ := exists_linked_of_mem_reach member
      rcases way.eq_or_mem with rfl | ends
      · exact inside i own
      · exact List.mem_cons_of_mem _ ends
    rw [connectedFrom]
    split
    · next full => exact .all (eq_of_beq full)
    · next less =>
      have less : (reach joins reached).length ≠ count := by simpa using less
      split
      · next same => exact .stuck less (eq_of_beq same)
      · next grows =>
        have grows : (reach joins reached).length ≠ reached.length := by simpa using grows
        have more := length_lt_reach increasing grows
        exact .again less grows (ih (pairwise_reach joins increasing) next (by omega))

theorem spreads_isConnected (joins : List ParentJoin) (several : 2 ≤ count) :
    Spreads joins count [0] (isConnected joins count) := by
  have notFew : decide (count < 2) = false := decide_eq_false (Nat.not_lt.mpr several)
  rw [isConnected, notFew, Bool.false_or]
  exact spreads_connectedFrom (by simp) (by simp) (by simp)

/-- Joins of different parents connect all parents if and only if they can be put in order and the
ordered joins connect all parents. -/
theorem isConnected_iff_order (names : List String) (several : 2 ≤ count)
    (below : ∀ i ∈ endpoints (edges joins), i < count) (apart : ∀ j ∈ joins, j.left ≠ j.right) :
    isConnected joins count = true ↔
      ∃ ordered, order joins names = .ok ordered ∧ isConnected ordered count = true := by
  have kept {ordered : List ParentJoin} (sorted : Ordered joins ordered) :
      isConnected ordered count = true ↔ ∀ i < count, Linked (edges ordered) 0 i :=
    isConnected_iff several fun i member => below i ((sorted.ends i).mp member)
  rw [isConnected_iff several below]
  constructor
  · intro linked
    have ends := mem_endpoints_of_linked several linked
    obtain ⟨ordered, done, sorted⟩ := exists_order names apart fun i first k second =>
      (linked i (below i first)).symm.trans (linked k (below k second))
    refine ⟨ordered, done, (kept sorted).mpr fun i low => ?_⟩
    apply sorted.growing.linked
    · exact (sorted.ends 0).mpr (ends 0 (by omega))
    · exact (sorted.ends i).mpr (ends i low)
  · rintro ⟨ordered, done, connected⟩ i low
    have sorted : Ordered joins ordered := by simpa [done, Sorts] using sorts_order names apart
    exact sorted.linked ((kept sorted).mp connected i low)

/-- The test answers for every list of joins between several parents, and it answers whether their
graph is connected. So it agrees with the order of joins. -/
theorem isConnected_decides (several : 2 ≤ count)
    (below : ∀ j ∈ joins, j.left < count ∧ j.right < count) :
    (∀ answer, Spreads joins count [0] answer ↔ answer = isConnected joins count) ∧
      (isConnected joins count = true ↔ (graph joins count).Connected) ∧
      ((∀ j ∈ joins, j.left ≠ j.right) → ∀ names, isConnected joins count = true ↔
        ∃ ordered, order joins names = .ok ordered ∧ isConnected ordered count = true) := by
  have ends : ∀ i ∈ endpoints (edges joins), i < count := by
    intro i member
    obtain ⟨j, listed, rfl | rfl⟩ := mem_endpoints_edges.mp member
    · exact (below j listed).1
    · exact (below j listed).2
  have spreads := spreads_isConnected joins several
  refine ⟨fun answer => ⟨fun other => ?_, fun same => ?_⟩, ?_, fun apart names => ?_⟩
  · exact other.unique spreads
  · exact same ▸ spreads
  · rw [isConnected_iff several ends, connected_graph_iff (by omega) ends]
  · exact isConnected_iff_order names several ends apart

end ParentJoin

/-- The chain of four parents is connected, and falls apart without the join in its middle. -/
theorem ParentJoin.isConnected_decides_chain :
    (∀ j ∈ Chain.joins, j.left < 4 ∧ j.right < 4) ∧ (graph Chain.joins 4).Connected ∧
      isConnected Chain.ordered 4 = true ∧ ¬ (graph Chain.broken 4).Connected := by
  have below : ∀ j ∈ Chain.joins, j.left < 4 ∧ j.right < 4 := by decide
  have brokenBelow : ∀ j ∈ Chain.broken, j.left < 4 ∧ j.right < 4 := by decide
  have apart : ∀ j ∈ Chain.joins, j.left ≠ j.right := by decide
  have whole : isConnected Chain.joins 4 = true := by decide
  obtain ⟨_, connected, orders⟩ := isConnected_decides (by decide) below
  obtain ⟨_, brokenConnected, _⟩ := isConnected_decides (by decide) brokenBelow
  refine ⟨below, connected.mp whole, ?_, fun linked => ?_⟩
  · obtain ⟨_, ⟨⟩, kept⟩ := (orders apart []).mp whole
    exact kept
  · exact absurd (brokenConnected.mpr linked) (by decide)

end SemanticQuery
