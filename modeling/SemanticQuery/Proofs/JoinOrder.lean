import Mathlib.Data.Finset.Card
import Mathlib.Data.List.Perm.Subperm
import Mathlib.Logic.Relation
import SemanticQuery.Plan.Join

/-!
Joins as the edges of an undirected graph on the positions of the parents. Putting joins in order
gives a tree that grows by one parent with each join and has the ends of all joins, and it fails
only if the ends are not linked to each other. The connectivity test finds exactly whether all
parents are linked.
-/

namespace SemanticQuery

section Edges

variable {α β : Type*} {edges : List (α × α)} {a b : α}

def endpoints (edges : List (α × α)) : List α := edges.flatMap fun e => [e.1, e.2]

/-- Edges of which each after the first leads from an end of those before it to a new end. -/
inductive Growing : List (α × α) → Prop
  | none : Growing []
  | first {a b : α} : a ≠ b → Growing [(a, b)]
  | next {edges : List (α × α)} {a b : α} :
      Growing edges → a ∈ endpoints edges → b ∉ endpoints edges → Growing (edges ++ [(a, b)])

def Adjacent (edges : List (α × α)) (a b : α) : Prop := (a, b) ∈ edges ∨ (b, a) ∈ edges

/-- Whether a way along edges, in either direction, leads from one vertex to another. -/
def Linked (edges : List (α × α)) : α → α → Prop := Relation.ReflTransGen (Adjacent edges)

theorem mem_endpoints : a ∈ endpoints edges ↔ ∃ e ∈ edges, a = e.1 ∨ a = e.2 := by
  simp [endpoints]

theorem endpoints_append (edges others : List (α × α)) :
    endpoints (edges ++ others) = endpoints edges ++ endpoints others := by
  simp [endpoints]

theorem length_endpoints (edges : List (α × α)) : (endpoints edges).length = 2 * edges.length := by
  induction edges with
  | nil => rfl
  | cons e edges ih =>
    simp only [endpoints, List.flatMap_cons, List.length_append, List.length_cons,
      List.length_nil] at ih ⊢
    omega

theorem mem_endpoints_map {f : α → β} {x : β} :
    x ∈ endpoints (edges.map (Prod.map f f)) ↔ ∃ a ∈ endpoints edges, f a = x := by
  simp only [mem_endpoints, List.mem_map]
  constructor
  · rintro ⟨_, ⟨e, listed, rfl⟩, rfl | rfl⟩
    · exact ⟨e.1, ⟨e, listed, .inl rfl⟩, rfl⟩
    · exact ⟨e.2, ⟨e, listed, .inr rfl⟩, rfl⟩
  · rintro ⟨a, ⟨e, listed, rfl | rfl⟩, rfl⟩
    · exact ⟨_, ⟨e, listed, rfl⟩, .inl rfl⟩
    · exact ⟨_, ⟨e, listed, rfl⟩, .inr rfl⟩

/-- A growing tree has one end more than edges. -/
theorem Growing.card [DecidableEq α] (growing : Growing edges) (some : edges ≠ []) :
    (endpoints edges).toFinset.card = edges.length + 1 := by
  induction growing with
  | none => exact absurd rfl some
  | @first a b apart =>
    have ends : (endpoints [(a, b)]).toFinset = {a, b} := by simp [endpoints]
    rw [ends, Finset.card_pair apart]
    rfl
  | @next edges a b growing left right ih =>
    have started : edges ≠ [] := by
      rintro rfl
      simp [endpoints] at left
    have ends : (endpoints (edges ++ [(a, b)])).toFinset =
        insert b (endpoints edges).toFinset := by
      ext x
      simp only [endpoints_append, List.mem_toFinset, List.mem_append, Finset.mem_insert]
      simp only [endpoints, List.flatMap_cons, List.flatMap_nil, List.append_nil, List.mem_cons,
        List.not_mem_nil, or_false]
      constructor
      · rintro (old | rfl | rfl)
        · exact .inr old
        · exact .inr left
        · exact .inl rfl
      · rintro (rfl | old)
        · exact .inr (.inr rfl)
        · exact .inl old
    have fresh : b ∉ (endpoints edges).toFinset := by simpa using right
    rw [ends, Finset.card_insert_of_notMem fresh, ih started]
    simp

/-- Renaming the vertices keeps a growing tree if no two ends get one name. -/
theorem Growing.map {f : α → β} (growing : Growing edges)
    (apart : ∀ a ∈ endpoints edges, ∀ b ∈ endpoints edges, f a = f b → a = b) :
    Growing (edges.map (Prod.map f f)) := by
  induction growing with
  | none => exact .none
  | @first a b different =>
    refine .first fun same => different ?_
    exact apart a (by simp [endpoints]) b (by simp [endpoints]) same
  | @next edges a b growing left right ih =>
    have old {x : α} (member : x ∈ endpoints edges) : x ∈ endpoints (edges ++ [(a, b)]) := by
      rw [endpoints_append]
      exact List.mem_append_left _ member
    have new : b ∈ endpoints (edges ++ [(a, b)]) := by
      rw [endpoints_append]
      exact List.mem_append_right _ (by simp [endpoints])
    rw [List.map_append]
    refine .next (ih fun x first y second => apart x (old first) y (old second))
      (mem_endpoints_map.mpr ⟨a, left, rfl⟩) fun held => ?_
    obtain ⟨x, member, same⟩ := mem_endpoints_map.mp held
    rw [apart x (old member) b new same] at member
    exact right member

/-- Each edge after the first attaches its second end. -/
theorem Growing.attaches (growing : Growing edges) {before after : List (α × α)} {e : α × α}
    (split : edges = before ++ e :: after) (later : before ≠ []) :
    e.1 ∈ endpoints before ∧ e.2 ∉ endpoints before := by
  induction growing generalizing after with
  | none => simp at split
  | first _ =>
    rcases before with _ | ⟨x, before⟩
    · exact absurd rfl later
    · simp at split
  | @next edges a b growing left right ih =>
    rcases List.eq_nil_or_concat after with rfl | ⟨rest, last, rfl⟩
    · obtain ⟨rfl, same⟩ := List.append_inj' split rfl
      cases same
      exact ⟨left, right⟩
    · have shorter : edges ++ [(a, b)] = (before ++ e :: rest) ++ [last] := by simpa using split
      exact ih (List.append_inj' shorter rfl).1

theorem Linked.symm (linked : Linked edges a b) : Linked edges b a := by
  induction linked with
  | refl => exact .refl
  | tail _ adjacent ih => exact ih.head adjacent.symm

theorem Linked.eq_or_mem (linked : Linked edges a b) : b = a ∨ b ∈ endpoints edges := by
  induction linked with
  | refl => exact .inl rfl
  | tail _ adjacent _ =>
    refine .inr (mem_endpoints.mpr ?_)
    rcases adjacent with forward | backward
    · exact ⟨_, forward, .inr rfl⟩
    · exact ⟨_, backward, .inl rfl⟩

/-- A way that leaves a set of vertices crosses its border. -/
theorem Linked.exists_crossing (inside : α → Prop) (linked : Linked edges a b) (start : inside a)
    (finish : ¬ inside b) : ∃ x y, Adjacent edges x y ∧ inside x ∧ ¬ inside y := by
  induction linked with
  | refl => exact absurd start finish
  | @tail x y way adjacent ih =>
    by_cases reached : inside x
    · exact ⟨x, y, adjacent, reached, finish⟩
    · exact ih reached

/-- What each edge of one graph leads to in another, ways do. -/
theorem Linked.map {f : α → β} {others : List (β × β)} (linked : Linked edges a b)
    (edge : ∀ x y, Adjacent edges x y → Linked others (f x) (f y)) :
    Linked others (f a) (f b) := by
  induction linked with
  | refl => exact .refl
  | tail _ adjacent ih => exact ih.trans (edge _ _ adjacent)

theorem Linked.append (linked : Linked edges a b) (others : List (α × α)) :
    Linked (edges ++ others) a b := by
  refine linked.map (f := id) fun x y adjacent => .single ?_
  exact adjacent.imp (List.mem_append_left _) (List.mem_append_left _)

/-- All ends of growing edges are linked to each other. -/
theorem Growing.linked (growing : Growing edges) (first : a ∈ endpoints edges)
    (second : b ∈ endpoints edges) : Linked edges a b := by
  induction growing generalizing a b with
  | none => cases first
  | @first x y _ =>
    have edge : Linked [(x, y)] x y := .single (.inl (by simp))
    simp only [endpoints, List.flatMap_cons, List.flatMap_nil, List.append_nil, List.mem_cons,
      List.not_mem_nil, or_false] at first second
    rcases first with rfl | rfl <;> rcases second with rfl | rfl
    · exact .refl
    · exact edge
    · exact edge.symm
    · exact .refl
  | @next edges x y _ old _ ih =>
    have edge : Linked (edges ++ [(x, y)]) x y := .single (.inl (by simp))
    have toRoot : ∀ z ∈ endpoints (edges ++ [(x, y)]), Linked (edges ++ [(x, y)]) x z := by
      intro z member
      rw [endpoints_append, List.mem_append] at member
      rcases member with member | member
      · exact (ih old member).append _
      · simp only [endpoints, List.flatMap_cons, List.flatMap_nil, List.append_nil, List.mem_cons,
          List.not_mem_nil, or_false] at member
        rcases member with rfl | rfl
        · exact .refl
        · exact edge
    exact (toRoot a first).symm.trans (toRoot b second)

end Edges

namespace ParentJoin

def edges (joins : List ParentJoin) : List (Nat × Nat) := joins.map fun j => (j.left, j.right)

theorem mem_endpoints_edges {joins : List ParentJoin} {i : Nat} :
    i ∈ endpoints (edges joins) ↔ ∃ j ∈ joins, i = j.left ∨ i = j.right := by
  simp [mem_endpoints, edges]

theorem adjacent_edges {joins : List ParentJoin} {i k : Nat} :
    Adjacent (edges joins) i k ↔
      ∃ j ∈ joins, (j.left = i ∧ j.right = k) ∨ (j.left = k ∧ j.right = i) := by
  simp only [Adjacent, edges, List.mem_map, Prod.mk.injEq]
  constructor
  · rintro (⟨j, listed, same⟩ | ⟨j, listed, same⟩)
    · exact ⟨j, listed, .inl same⟩
    · exact ⟨j, listed, .inr same⟩
  · rintro ⟨j, listed, same | same⟩
    · exact .inl ⟨j, listed, same⟩
    · exact .inr ⟨j, listed, same⟩

theorem mem_insertIndex {index other : Nat} {indices : List Nat} :
    other ∈ insertIndex index indices ↔ other = index ∨ other ∈ indices := by
  induction indices with
  | nil => simp [insertIndex]
  | cons first rest ih =>
    simp only [insertIndex]
    split
    · simp
    · split
      · next same =>
        subst same
        simp
      · simp only [List.mem_cons, ih]
        constructor <;> rintro (h | h | h) <;> simp [h]

theorem pairwise_insertIndex {index : Nat} {indices : List Nat}
    (increasing : indices.Pairwise (· < ·)) : (insertIndex index indices).Pairwise (· < ·) := by
  induction indices with
  | nil => simp [insertIndex]
  | cons first rest ih =>
    obtain ⟨least, tail⟩ := List.pairwise_cons.mp increasing
    simp only [insertIndex]
    split
    · next lt =>
      refine List.pairwise_cons.mpr ⟨?_, increasing⟩
      intro other member
      rcases List.mem_cons.mp member with rfl | member
      · exact lt
      · exact Nat.lt_trans lt (least other member)
    · split
      · exact increasing
      · refine List.pairwise_cons.mpr ⟨?_, ih tail⟩
        intro other member
        rcases mem_insertIndex.mp member with rfl | member
        · omega
        · exact least other member

/-- What holds of the joins that were taken up: they form a growing tree with the attached parents
as its ends, and each is one of the given joins, or one with its sides exchanged. -/
structure Attached.Tree (given : List ParentJoin) (a : Attached) : Prop where
  parents : ∀ i, i ∈ a.parents ↔ i ∈ endpoints (edges a.joins)
  growing : Growing (edges a.joins)
  origin : ∀ k ∈ a.joins, k ∈ given ∨ ∃ j ∈ given, k = j.flip

namespace Attached

variable {given joins : List ParentJoin} {a b : Attached} {j : ParentJoin}

theorem tree_empty (given : List ParentJoin) : Tree given {} :=
  ⟨by simp [endpoints, edges], .none, by simp⟩

/-- A tree grows by a join from an attached parent to a new one. -/
theorem Tree.attach (tree : a.Tree given) {k : ParentJoin} {parents : List Nat}
    {waiting : List ParentJoin} (left : k.left ∈ a.parents) (right : k.right ∉ a.parents)
    (added : ∀ i, i ∈ parents ↔ i = k.right ∨ i ∈ a.parents)
    (origin : k ∈ given ∨ ∃ j ∈ given, k = j.flip) :
    Tree given ⟨parents, a.joins ++ [k], waiting⟩ where
  parents i := by
    have ends : i ∈ endpoints (edges (a.joins ++ [k])) ↔
        i ∈ a.parents ∨ i = k.left ∨ i = k.right := by
      rw [tree.parents i]
      simp [edges, endpoints]
    rw [added, ends]
    constructor
    · rintro (same | old)
      · exact .inr (.inr same)
      · exact .inl old
    · rintro (old | rfl | same)
      · exact .inr old
      · exact .inr left
      · exact .inl same
  growing := by
    have grown : edges (a.joins ++ [k]) = edges a.joins ++ [(k.left, k.right)] := by simp [edges]
    rw [grown]
    exact .next tree.growing ((tree.parents _).mp left) (mt (tree.parents _).mpr right)
  origin other member := by
    rcases List.mem_append.mp member with old | new
    · exact tree.origin other old
    · rw [List.mem_singleton.mp new]
      exact origin

theorem Tree.start (tree : a.Tree given) (none : a.parents = []) {parents : List Nat}
    {waiting : List ParentJoin} (listed : j ∈ given) (apart : j.left ≠ j.right)
    (added : ∀ i, i ∈ parents ↔ i = j.left ∨ i = j.right) :
    Tree given ⟨parents, a.joins ++ [j], waiting⟩ := by
  have empty : a.joins = [] := by
    rcases joined : a.joins with _ | ⟨k, rest⟩
    · rfl
    · have attached := (tree.parents k.left).mpr
        (mem_endpoints_edges.mpr ⟨k, by simp [joined], .inl rfl⟩)
      simp [none] at attached
  rw [empty]
  refine ⟨fun i => ?_, .first apart, fun k member => ?_⟩
  · rw [added]
    simp [endpoints, edges]
  · rw [List.mem_singleton.mp member]
    exact .inl listed

/-- What taking up one join can do: it is attached, or dropped since both sides are attached, or it
has to wait since neither side is. -/
theorem take_cases (tree : a.Tree given) (listed : j ∈ given) (apart : j.left ≠ j.right) :
    (a.take j).Tree given ∧ (∀ i ∈ a.parents, i ∈ (a.take j).parents) ∧
      ((a.take j).waiting = a.waiting ∧ j.left ∈ (a.take j).parents ∧
          j.right ∈ (a.take j).parents ∨
        (a.take j).waiting = a.waiting ++ [j] ∧ (a.take j).parents = a.parents ∧
          a.parents ≠ [] ∧ j.left ∉ a.parents ∧ j.right ∉ a.parents) := by
  unfold take
  split
  · next none =>
    rw [List.isEmpty_iff] at none
    refine ⟨tree.start none listed apart ?_, by simp [none], .inl ⟨rfl, ?_, ?_⟩⟩
    · simp [mem_insertIndex]
    · simp [mem_insertIndex]
    · simp [mem_insertIndex]
  · next some =>
    rw [List.isEmpty_iff] at some
    split
    · next left right =>
      rw [List.contains_iff_mem] at left right
      exact ⟨tree, fun i held => held, .inl ⟨rfl, left, right⟩⟩
    · next left right =>
      have here : j.left ∈ a.parents := List.contains_iff_mem.mp left
      have new : j.right ∉ a.parents := by simpa using right
      refine ⟨tree.attach here new (fun i => mem_insertIndex) (.inl listed), ?_,
        .inl ⟨rfl, ?_, ?_⟩⟩
      · exact fun i held => mem_insertIndex.mpr (.inr held)
      · exact mem_insertIndex.mpr (.inr here)
      · exact mem_insertIndex.mpr (.inl rfl)
    · next left right =>
      have new : j.left ∉ a.parents := by simpa using left
      have here : j.right ∈ a.parents := List.contains_iff_mem.mp right
      refine ⟨tree.attach (k := j.flip) here new (fun i => mem_insertIndex)
        (.inr ⟨j, listed, rfl⟩), ?_, .inl ⟨rfl, ?_, ?_⟩⟩
      · exact fun i held => mem_insertIndex.mpr (.inr held)
      · exact mem_insertIndex.mpr (.inl rfl)
      · exact mem_insertIndex.mpr (.inr here)
    · next left right =>
      have outside : j.left ∉ a.parents ∧ j.right ∉ a.parents := by
        constructor
        · simpa using left
        · simpa using right
      exact ⟨⟨tree.parents, tree.growing, tree.origin⟩, fun i held => held,
        .inr ⟨rfl, rfl, some, outside⟩⟩

/-- A pass keeps the tree. The joins that it leaves waiting are among those that it was given, and
both sides of all others are attached. -/
theorem tree_pass (tree : a.Tree given) (listed : ∀ j ∈ joins, j ∈ given)
    (apart : ∀ j ∈ given, j.left ≠ j.right) :
    (joins.foldl take a).Tree given ∧ (∀ i ∈ a.parents, i ∈ (joins.foldl take a).parents) ∧
      ∃ rest, (joins.foldl take a).waiting = a.waiting ++ rest ∧ rest.Sublist joins ∧
        ∀ j ∈ joins, j ∈ rest ∨
          j.left ∈ (joins.foldl take a).parents ∧ j.right ∈ (joins.foldl take a).parents := by
  induction joins generalizing a with
  | nil => exact ⟨tree, fun i held => held, [], by simp, List.nil_sublist _, by simp⟩
  | cons j joins ih =>
    obtain ⟨next, kept, outcome⟩ := take_cases tree (listed j List.mem_cons_self)
      (apart j (listed j List.mem_cons_self))
    obtain ⟨last, keptAfter, rest, waiting, sublist, others⟩ :=
      ih next fun k member => listed k (List.mem_cons_of_mem _ member)
    refine ⟨last, fun i held => keptAfter i (kept i held), ?_⟩
    rcases outcome with ⟨same, left, right⟩ | ⟨deferred, -, -, -, -⟩
    · refine ⟨rest, by rw [List.foldl_cons, waiting, same], sublist.cons j, ?_⟩
      intro k member
      rcases List.mem_cons.mp member with rfl | member
      · exact .inr ⟨keptAfter _ left, keptAfter _ right⟩
      · exact others k member
    · refine ⟨j :: rest, by rw [List.foldl_cons, waiting, deferred]; simp, sublist.cons_cons j, ?_⟩
      intro k member
      rcases List.mem_cons.mp member with rfl | member
      · exact .inl List.mem_cons_self
      · exact (others k member).imp_left (List.mem_cons_of_mem _)

theorem length_waiting_le (joins : List ParentJoin) (a : Attached) :
    (joins.foldl take a).waiting.length ≤ a.waiting.length + joins.length := by
  induction joins generalizing a with
  | nil => simp
  | cons j joins ih =>
    have step : (a.take j).waiting.length ≤ a.waiting.length + 1 := by
      unfold take
      repeat' split
      all_goals simp
    have rest := ih (a.take j)
    simp only [List.foldl_cons, List.length_cons]
    omega

/-- In a pass in which all joins wait, none has an attached side. -/
theorem outside_of_stuck (tree : a.Tree given) (listed : ∀ j ∈ joins, j ∈ given)
    (apart : ∀ j ∈ given, j.left ≠ j.right)
    (stuck : (joins.foldl take a).waiting.length = a.waiting.length + joins.length) :
    ∀ j ∈ joins, a.parents ≠ [] ∧ j.left ∉ a.parents ∧ j.right ∉ a.parents := by
  induction joins generalizing a with
  | nil => simp
  | cons j joins ih =>
    obtain ⟨next, -, outcome⟩ := take_cases tree (listed j List.mem_cons_self)
      (apart j (listed j List.mem_cons_self))
    have rest := length_waiting_le joins (a.take j)
    rw [List.foldl_cons, List.length_cons] at stuck
    rcases outcome with ⟨same, -, -⟩ | ⟨deferred, unchanged, some, left, right⟩
    · rw [same] at rest
      omega
    · intro k member
      rcases List.mem_cons.mp member with rfl | member
      · exact ⟨some, left, right⟩
      · have shorter : (joins.foldl take (a.take j)).waiting.length =
            (a.take j).waiting.length + joins.length := by
          rw [stuck, deferred, List.length_append, List.length_singleton]
          omega
        have later := ih next (fun k member => listed k (List.mem_cons_of_mem _ member)) shorter k
          member
        rwa [unchanged] at later

end Attached

/-- Joins in an order in which each after the first attaches one parent to those before: a growing
tree of given joins, some with their sides exchanged, with the ends of all given joins. -/
structure Ordered (given ordered : List ParentJoin) : Prop where
  growing : Growing (edges ordered)
  ends : ∀ i, i ∈ endpoints (edges ordered) ↔ i ∈ endpoints (edges given)
  origin : ∀ k ∈ ordered, k ∈ given ∨ ∃ j ∈ given, k = j.flip

variable {given joins : List ParentJoin} {names : List String}

/-- The attached parents are ends of given joins. -/
theorem Attached.Tree.mem_ends {a : Attached} (tree : a.Tree given) {i : Nat}
    (attached : i ∈ a.parents) : i ∈ endpoints (edges given) := by
  obtain ⟨k, listed, side⟩ := mem_endpoints_edges.mp ((tree.parents i).mp attached)
  rcases tree.origin k listed with own | ⟨j, own, rfl⟩
  · exact mem_endpoints_edges.mpr ⟨k, own, side⟩
  · exact mem_endpoints_edges.mpr ⟨j, own, side.symm⟩

theorem Attached.Tree.ordered {a : Attached} (tree : a.Tree given)
    (attached : ∀ j ∈ given, j.left ∈ a.parents ∧ j.right ∈ a.parents) :
    Ordered given a.joins := by
  refine ⟨tree.growing, fun i => ⟨fun member => ?_, fun member => ?_⟩, tree.origin⟩
  · exact tree.mem_ends ((tree.parents i).mpr member)
  · obtain ⟨j, own, rfl | rfl⟩ := mem_endpoints_edges.mp member
    · exact (tree.parents _).mp (attached j own).1
    · exact (tree.parents _).mp (attached j own).2

/-- Attached parents are not linked to joins that have no attached side. -/
theorem Attached.Tree.exists_unlinked {a : Attached} {first : ParentJoin} (tree : a.Tree given)
    (listed : first ∈ given) (some : a.parents ≠ []) (waits : first.left ∉ a.parents)
    (pending : ∀ j ∈ given, (j.left ∉ a.parents ∧ j.right ∉ a.parents) ∨
      j.left ∈ a.parents ∧ j.right ∈ a.parents) :
    ∃ i ∈ endpoints (edges given), ∃ k ∈ endpoints (edges given), ¬ Linked (edges given) i k := by
  obtain ⟨i, attached⟩ := List.exists_mem_of_ne_nil _ some
  refine ⟨i, tree.mem_ends attached, first.left,
    mem_endpoints_edges.mpr ⟨first, listed, .inl rfl⟩, fun linked => ?_⟩
  obtain ⟨x, y, adjacent, inside, beyond⟩ :=
    linked.exists_crossing (· ∈ a.parents) attached waits
  obtain ⟨j, own, sides⟩ := adjacent_edges.mp adjacent
  rcases pending j own with ⟨left, right⟩ | ⟨left, right⟩
  · rcases sides with ⟨rfl, -⟩ | ⟨-, rfl⟩
    · exact left inside
    · exact right inside
  · rcases sides with ⟨-, rfl⟩ | ⟨rfl, -⟩
    · exact beyond right
    · exact beyond left

/-- What the passes make of joins: they are put in order, or some are not linked to the others. -/
def Sorts (given : List ParentJoin) : Except PlanError (List ParentJoin) → Prop
  | .ok ordered => Ordered given ordered
  | .error error => (∃ available remaining, error = .disconnectedJoins available remaining) ∧
      ∃ i ∈ endpoints (edges given), ∃ k ∈ endpoints (edges given), ¬ Linked (edges given) i k

theorem sorts_orderFrom {a : Attached} {passes : Nat} (apart : ∀ j ∈ given, j.left ≠ j.right)
    (tree : a.Tree given) (listed : ∀ j ∈ joins, j ∈ given)
    (pending : ∀ j ∈ given, j ∈ joins ∨ j.left ∈ a.parents ∧ j.right ∈ a.parents)
    (enough : joins.length ≤ passes) : Sorts given (orderFrom names passes a joins) := by
  induction passes generalizing a joins with
  | zero =>
    have none : joins = [] := List.length_eq_zero_iff.mp (by omega)
    subst none
    exact tree.ordered fun j own => (pending j own).resolve_left List.not_mem_nil
  | succ passes ih =>
    rcases joins with _ | ⟨first, joins⟩
    · exact tree.ordered fun j own => (pending j own).resolve_left List.not_mem_nil
    · let fresh : Attached := { a with waiting := [] }
      have freshTree : fresh.Tree given := ⟨tree.parents, tree.growing, tree.origin⟩
      rw [orderFrom]
      · split
        · next stuck =>
          have outside := Attached.outside_of_stuck freshTree listed apart
            (by simpa [fresh] using stuck)
          obtain ⟨some, waits, -⟩ := outside first List.mem_cons_self
          refine ⟨⟨_, _, rfl⟩, freshTree.exists_unlinked (listed first List.mem_cons_self) some
            waits fun j own => ?_⟩
          exact (pending j own).imp_left fun waiting => (outside j waiting).2
        · next progress =>
          obtain ⟨next, kept, rest, waiting, sublist, others⟩ :=
            Attached.tree_pass freshTree listed apart
          have left : ((first :: joins).foldl Attached.take fresh).waiting = rest := by
            simpa [fresh] using waiting
          have fewer : rest.length ≤ passes := by
            have shorter := sublist.length_le
            have different : rest.length ≠ (first :: joins).length := by
              rw [← left]
              simpa using progress
            omega
          rw [left]
          refine ih next (fun j member => listed j (sublist.subset member)) (fun j own => ?_) fewer
          rcases pending j own with waits | ⟨both, bothToo⟩
          · exact others j waits
          · exact .inr ⟨kept _ both, kept _ bothToo⟩
      · nofun

/-- Joins of different parents are put in order, or some of their ends are not linked. -/
theorem sorts_order (names : List String) (apart : ∀ j ∈ joins, j.left ≠ j.right) :
    Sorts joins (order joins names) :=
  sorts_orderFrom apart (Attached.tree_empty joins) (fun _ member => member)
    (fun _ member => .inl member) (Nat.le_refl _)

/-- Joins whose ends are all linked to each other can be put in order. -/
theorem exists_order (names : List String) (apart : ∀ j ∈ joins, j.left ≠ j.right)
    (linked : ∀ i ∈ endpoints (edges joins), ∀ k ∈ endpoints (edges joins),
      Linked (edges joins) i k) :
    ∃ ordered, order joins names = .ok ordered ∧ Ordered joins ordered := by
  have sorts := sorts_order names apart
  cases done : order joins names with
  | ok ordered =>
    rw [done] at sorts
    exact ⟨ordered, rfl, sorts⟩
  | error error =>
    rw [done] at sorts
    obtain ⟨-, i, first, k, second, unlinked⟩ := sorts
    exact absurd (linked i first k second) unlinked

section Reach

variable {reached : List Nat} {count : Nat}

theorem reach_cons (j : ParentJoin) (joins : List ParentJoin) (reached : List Nat) :
    reach (j :: joins) reached =
      reach joins (if reached.contains j.left || reached.contains j.right then
        insertIndex j.left (insertIndex j.right reached) else reached) := rfl

theorem subset_reach (joins : List ParentJoin) (reached : List Nat) :
    ∀ i ∈ reached, i ∈ reach joins reached := by
  induction joins generalizing reached with
  | nil => exact fun i member => member
  | cons j joins ih =>
    intro i member
    rw [reach_cons]
    apply ih
    split
    · exact mem_insertIndex.mpr (.inr (mem_insertIndex.mpr (.inr member)))
    · exact member

theorem pairwise_reach (joins : List ParentJoin) (increasing : reached.Pairwise (· < ·)) :
    (reach joins reached).Pairwise (· < ·) := by
  induction joins generalizing reached with
  | nil => exact increasing
  | cons j joins ih =>
    rw [reach_cons]
    apply ih
    split
    · exact pairwise_insertIndex (pairwise_insertIndex increasing)
    · exact increasing

/-- A pass reaches only what joins link to what was reached before. -/
theorem exists_linked_of_mem_reach {i : Nat} (member : i ∈ reach joins reached) :
    ∃ k ∈ reached, Linked (edges joins) k i := by
  suffices linked : ∀ (rest : List ParentJoin), (∀ j ∈ rest, j ∈ joins) → ∀ now : List Nat,
      (∀ k ∈ now, ∃ r ∈ reached, Linked (edges joins) r k) →
        ∀ k ∈ reach rest now, ∃ r ∈ reached, Linked (edges joins) r k from
    linked joins (fun _ own => own) reached (fun k own => ⟨k, own, .refl⟩) i member
  intro rest
  induction rest with
  | nil => exact fun _ now held => held
  | cons j rest ih =>
    intro own now held
    rw [reach_cons]
    apply ih fun k later => own k (List.mem_cons_of_mem _ later)
    have listed := own j List.mem_cons_self
    have forward : Adjacent (edges joins) j.left j.right :=
      adjacent_edges.mpr ⟨j, listed, .inl ⟨rfl, rfl⟩⟩
    split
    · next touched =>
      rw [Bool.or_eq_true, List.contains_iff_mem, List.contains_iff_mem] at touched
      intro k added
      rcases mem_insertIndex.mp added with rfl | added
      · rcases touched with left | right
        · exact held _ left
        · obtain ⟨r, start, way⟩ := held _ right
          exact ⟨r, start, way.tail forward.symm⟩
      · rcases mem_insertIndex.mp added with rfl | before
        · rcases touched with left | right
          · obtain ⟨r, start, way⟩ := held _ left
            exact ⟨r, start, way.tail forward⟩
          · exact held _ right
        · exact held k before
    · exact held

/-- What a pass adds nothing to is closed under the joins. -/
theorem mem_of_closed {j : ParentJoin} (listed : j ∈ joins)
    (closed : ∀ i ∈ reach joins reached, i ∈ reached)
    (touched : j.left ∈ reached ∨ j.right ∈ reached) : j.left ∈ reached ∧ j.right ∈ reached := by
  suffices added : ∀ now : List Nat, (∀ i ∈ reached, i ∈ now) →
      j.left ∈ reach joins now ∧ j.right ∈ reach joins now by
    obtain ⟨left, right⟩ := added reached fun _ own => own
    exact ⟨closed _ left, closed _ right⟩
  clear closed
  induction joins with
  | nil => cases listed
  | cons k joins ih =>
    intro now grown
    rw [reach_cons]
    rcases List.mem_cons.mp listed with rfl | later
    · have here : (now.contains j.left || now.contains j.right) = true := by
        rw [Bool.or_eq_true, List.contains_iff_mem, List.contains_iff_mem]
        exact touched.imp (grown _) (grown _)
      rw [if_pos here]
      constructor
      · exact subset_reach _ _ _ (mem_insertIndex.mpr (.inl rfl))
      · exact subset_reach _ _ _ (mem_insertIndex.mpr (.inr (mem_insertIndex.mpr (.inl rfl))))
    · apply ih later
      intro i own
      split
      · exact mem_insertIndex.mpr (.inr (mem_insertIndex.mpr (.inr (grown i own))))
      · exact grown i own

/-- What a pass adds nothing to has all that is linked to it. -/
theorem mem_of_linked {a b : Nat} (closed : ∀ i ∈ reach joins reached, i ∈ reached)
    (start : a ∈ reached) (linked : Linked (edges joins) a b) : b ∈ reached := by
  by_contra outside
  obtain ⟨x, y, adjacent, inside, beyond⟩ := linked.exists_crossing (· ∈ reached) start outside
  obtain ⟨j, listed, sides⟩ := adjacent_edges.mp adjacent
  rcases sides with ⟨rfl, rfl⟩ | ⟨rfl, rfl⟩
  · exact beyond (mem_of_closed listed closed (.inl inside)).2
  · exact beyond (mem_of_closed listed closed (.inr inside)).1

/-- A pass that reaches no more positions reaches the same ones. -/
theorem closed_of_length_eq (increasing : reached.Pairwise (· < ·))
    (same : (reach joins reached).length = reached.length) :
    ∀ i ∈ reach joins reached, i ∈ reached := by
  have distinct : reached.Nodup := increasing.imp Nat.ne_of_lt
  have inside : reached.Subperm (reach joins reached) :=
    List.subperm_of_subset distinct (subset_reach joins reached)
  have permuted := inside.perm_of_length_le same.le
  exact fun i member => permuted.mem_iff.mpr member

/-- A pass that does not keep the number of reached positions reaches more. -/
theorem length_lt_reach (increasing : reached.Pairwise (· < ·))
    (grows : (reach joins reached).length ≠ reached.length) :
    reached.length < (reach joins reached).length := by
  have inside : reached.Subperm (reach joins reached) :=
    List.subperm_of_subset (increasing.imp Nat.ne_of_lt) (subset_reach joins reached)
  exact Nat.lt_of_le_of_ne inside.length_le grows.symm

/-- Apart from the first position, only ends of joins are reached. -/
theorem length_reached_le (increasing : reached.Pairwise (· < ·))
    (inside : ∀ i ∈ reached, i ∈ 0 :: endpoints (edges joins)) :
    reached.length ≤ 2 * joins.length + 1 := by
  have few := (List.subperm_of_subset (increasing.imp Nat.ne_of_lt) inside).length_le
  rwa [List.length_cons, length_endpoints, edges, List.length_map] at few

theorem subperm_range {indices : List Nat} (increasing : indices.Pairwise (· < ·))
    (below : ∀ i ∈ indices, i < count) : indices.Subperm (List.range count) :=
  List.subperm_of_subset (increasing.imp Nat.ne_of_lt) fun i member =>
    List.mem_range.mpr (below i member)

/-- Increasing positions below a count are all of them if there are as many. -/
theorem mem_of_length_eq {indices : List Nat} (increasing : indices.Pairwise (· < ·))
    (below : ∀ i ∈ indices, i < count) (full : indices.length = count) :
    ∀ i < count, i ∈ indices := by
  have permuted := (subperm_range increasing below).perm_of_length_le (by simp [full])
  exact fun i low => permuted.mem_iff.mpr (List.mem_range.mpr low)

/-- There are as many increasing positions below a count if they are all of them. -/
theorem length_eq_of_mem {indices : List Nat} (increasing : indices.Pairwise (· < ·))
    (below : ∀ i ∈ indices, i < count) (every : ∀ i < count, i ∈ indices) :
    indices.length = count := by
  have inside : (List.range count).Subperm indices :=
    List.subperm_of_subset List.nodup_range fun i member => every i (List.mem_range.mp member)
  have few : indices.length ≤ count := by
    simpa using (subperm_range increasing below).length_le
  have many : count ≤ indices.length := by simpa using inside.length_le
  exact Nat.le_antisymm few many

/-- The passes tell whether all positions are linked to the first, if enough of them are left to
reach all ends of joins. -/
theorem connectedFrom_iff {passes : Nat} (some : 0 < count)
    (below : ∀ i ∈ endpoints (edges joins), i < count) (start : 0 ∈ reached)
    (increasing : reached.Pairwise (· < ·)) (linked : ∀ i ∈ reached, Linked (edges joins) 0 i)
    (enough : 2 * joins.length + 2 ≤ passes + reached.length) :
    connectedFrom joins count passes reached = true ↔
      ∀ i < count, Linked (edges joins) 0 i := by
  induction passes generalizing reached with
  | zero =>
    -- there are not as many positions
    have few : reached.length ≤ 2 * joins.length + 1 :=
      length_reached_le increasing fun i member => List.mem_cons.mpr (linked i member).eq_or_mem
    omega
  | succ passes ih =>
    have nextIncreasing := pairwise_reach joins increasing
    have nextLinked : ∀ i ∈ reach joins reached, Linked (edges joins) 0 i := by
      intro i member
      obtain ⟨k, own, way⟩ := exists_linked_of_mem_reach member
      exact (linked k own).trans way
    have nextBelow : ∀ i ∈ reach joins reached, i < count := by
      intro i member
      rcases (nextLinked i member).eq_or_mem with rfl | ends
      · exact some
      · exact below i ends
    rw [connectedFrom]
    split
    · next full =>
      have all := mem_of_length_eq nextIncreasing nextBelow (by simpa using full)
      simp only [true_iff]
      exact fun i low => nextLinked i (all i low)
    · next notFull =>
      split
      · next same =>
        have closed := closed_of_length_eq increasing (by simpa using same)
        simp only [Bool.false_eq_true, false_iff]
        intro all
        have every : ∀ i < count, i ∈ reach joins reached := fun i low =>
          subset_reach joins reached i (mem_of_linked closed start (all i low))
        exact notFull (by simpa using length_eq_of_mem nextIncreasing nextBelow every)
      · next grows =>
        have more := length_lt_reach increasing (by simpa using grows)
        exact ih (subset_reach joins reached 0 start) nextIncreasing nextLinked (by omega)

/-- Joins of parents below a count connect them if and only if all are linked to the first. -/
theorem isConnected_iff (several : 2 ≤ count)
    (below : ∀ i ∈ endpoints (edges joins), i < count) :
    isConnected joins count = true ↔ ∀ i < count, Linked (edges joins) 0 i := by
  have notFew : (decide (count < 2)) = false := decide_eq_false (Nat.not_lt.mpr several)
  rw [isConnected, notFew, Bool.false_or]
  refine connectedFrom_iff (by omega) below List.mem_cons_self (by simp) (fun i member => ?_) ?_
  · rw [List.mem_singleton.mp member]
    exact .refl
  · simp

/-- Parents that are all linked to the first are ends of joins, if there are several. -/
theorem mem_endpoints_of_linked (several : 2 ≤ count)
    (linked : ∀ i < count, Linked (edges joins) 0 i) :
    ∀ i < count, i ∈ endpoints (edges joins) := by
  intro i low
  by_cases zero : i = 0
  · subst zero
    exact (linked 1 several).symm.eq_or_mem.resolve_left (by omega)
  · exact (linked i low).eq_or_mem.resolve_left zero

end Reach

/-- Ordered joins that connect parents have all of them as ends, and are one fewer. -/
theorem Ordered.spans {ordered : List ParentJoin} (sorted : Ordered given ordered)
    (several : 2 ≤ count) (below : ∀ i ∈ endpoints (edges given), i < count)
    (connected : isConnected ordered count = true) :
    (∀ i, i ∈ endpoints (edges ordered) ↔ i < count) ∧ ordered.length + 1 = count := by
  have low : ∀ i ∈ endpoints (edges ordered), i < count :=
    fun i member => below i ((sorted.ends i).mp member)
  have linked := (isConnected_iff several low).mp connected
  have ends : ∀ i, i ∈ endpoints (edges ordered) ↔ i < count :=
    fun i => ⟨low i, mem_endpoints_of_linked several linked i⟩
  refine ⟨ends, ?_⟩
  have some : edges ordered ≠ [] := by
    intro none
    have first := (ends 0).mpr (by omega)
    rw [none] at first
    cases first
  have card := sorted.growing.card some
  have all : (endpoints (edges ordered)).toFinset = Finset.range count := by
    ext i
    rw [List.mem_toFinset, ends, Finset.mem_range]
  rw [all, Finset.card_range, edges, List.length_map] at card
  exact card.symm

section Derived

/-!
The joins that follow from what parents share.
-/

theorem of_mem_pairs {related : α → α → Prop} {items : List α} {a b : α}
    (member : (a, b) ∈ pairs items) (pairwise : items.Pairwise related) :
    a ∈ items ∧ b ∈ items ∧ related a b := by
  induction items with
  | nil => cases member
  | cons first rest ih =>
    obtain ⟨ahead, later⟩ := List.pairwise_cons.mp pairwise
    rcases List.mem_append.mp member with member | member
    · obtain ⟨b, listed, same⟩ := List.mem_map.mp member
      cases same
      exact ⟨List.mem_cons_self, List.mem_cons_of_mem _ listed, ahead b listed⟩
    · obtain ⟨left, right, apart⟩ := ih member later
      exact ⟨List.mem_cons_of_mem _ left, List.mem_cons_of_mem _ right, apart⟩

theorem mem_pairs_or {items : List α} {a b : α} (left : a ∈ items) (right : b ∈ items)
    (apart : a ≠ b) : (a, b) ∈ pairs items ∨ (b, a) ∈ pairs items := by
  induction items with
  | nil => cases left
  | cons first rest ih =>
    simp only [pairs, List.mem_append, List.mem_map, Prod.mk.injEq]
    rcases List.mem_cons.mp left with rfl | leftLater
    · rcases List.mem_cons.mp right with rfl | rightLater
      · exact absurd rfl apart
      · exact .inl (.inl ⟨b, rightLater, rfl, rfl⟩)
    · rcases List.mem_cons.mp right with rfl | rightLater
      · exact .inr (.inl ⟨a, leftLater, rfl, rfl⟩)
      · exact (ih leftLater rightLater).imp .inr .inr

/-- The parents with their positions, those with fewer partial outputs first. -/
def placed (parents : List Query) : List (Nat × Query) :=
  sortBy (fun a b => a.2.partials.length ≤ b.2.partials.length)
    (parents.zipIdx.map fun (q, index) => (index, q))

theorem derive_eq (parents : List Query) :
    derive parents = (pairs (placed parents)).filterMap fun (left, right) => between? left right :=
  rfl

theorem mem_placed {parents : List Query} {i : Nat} {q : Query} :
    (i, q) ∈ placed parents ↔ parents[i]? = some q := by
  rw [placed, perm_sortBy.mem_iff]
  simp [List.mem_zipIdx_iff_getElem?]

theorem pairwise_placed (parents : List Query) :
    (placed parents).Pairwise fun a b => a.1 ≠ b.1 := by
  have distinct : (parents.zipIdx.map fun (q, index) => (index, q)).Pairwise
      fun a b => a.1 ≠ b.1 := by
    have indices : (parents.zipIdx.map Prod.snd).Nodup := by
      rw [List.zipIdx_map_snd]
      exact List.nodup_range'
    exact List.pairwise_map.mpr (List.pairwise_map.mp indices)
  exact (perm_sortBy.pairwise_iff fun apart => apart.symm).mpr distinct

theorem sides_of_between? {left right : Nat × Query} {j : ParentJoin}
    (made : between? left right = some j) : j.left = left.1 ∧ j.right = right.1 := by
  unfold between? at made
  split at made
  · cases made
    exact ⟨rfl, rfl⟩
  · dsimp only at made
    split at made
    · cases made
    · cases made
      exact ⟨rfl, rfl⟩

/-- A derived join is the one between the parents at its two positions. -/
theorem of_mem_derive {parents : List Query} {j : ParentJoin} (member : j ∈ derive parents) :
    j.left ≠ j.right ∧ ∃ left right, parents[j.left]? = some left ∧
      parents[j.right]? = some right ∧ between? (j.left, left) (j.right, right) = some j := by
  rw [derive_eq] at member
  obtain ⟨⟨⟨i, left⟩, k, right⟩, listed, made⟩ := List.mem_filterMap.mp member
  obtain ⟨first, second, apart⟩ := of_mem_pairs listed (pairwise_placed parents)
  obtain ⟨rfl, rfl⟩ := sides_of_between? made
  exact ⟨apart, left, right, mem_placed.mp first, mem_placed.mp second, made⟩

theorem lt_of_mem_endpoints_derive {parents : List Query} {i : Nat}
    (member : i ∈ endpoints (edges (derive parents))) : i < parents.length := by
  obtain ⟨j, listed, side⟩ := mem_endpoints_edges.mp member
  obtain ⟨_, left, right, first, second, _⟩ := of_mem_derive listed
  rcases side with rfl | rfl
  · exact (List.getElem?_eq_some_iff.mp first).1
  · exact (List.getElem?_eq_some_iff.mp second).1

end Derived

end ParentJoin

end SemanticQuery
