import SemanticQuery.Proofs.Mergers
import SemanticQuery.Proofs.WellFormed

/-!
The joins of merged queries. The joins of a resolved query are a spanning tree of its sources. A
merger has the joins of its first query and, behind them, those of the second whose sides or type
are others, so it has a spanning tree only if it has no others.
-/

namespace SemanticQuery

section Edges

variable {α : Type*} {edges : List (α × α)}

/-- Edges of which each after the first attaches its second end form a growing tree, unless the
first one is a loop and all ends are second ends. -/
theorem growing_or_subset
    (attached : ∀ before e after, edges = before ++ e :: after → before ≠ [] →
      e.1 ∈ endpoints before ∧ e.2 ∉ endpoints before) :
    Growing edges ∨ endpoints edges ⊆ edges.map Prod.snd := by
  induction edges using List.reverseRecOn with
  | nil => exact .inl .none
  | append_singleton edges e ih =>
    have earlier := ih fun before d after split =>
      attached before d (after ++ [e]) (by rw [split, List.append_assoc, List.cons_append])
    rcases edges.eq_nil_or_concat with rfl | started
    · by_cases loop : e.1 = e.2
      · exact .inr (by simp [endpoints, loop])
      · exact .inl (.first loop)
    · have some : edges ≠ [] := by
        obtain ⟨before, last, rfl⟩ := started
        simp
      obtain ⟨old, new⟩ := attached edges e [] rfl some
      rcases earlier with growing | inside
      · exact .inl (.next growing old new)
      · refine .inr fun x member => ?_
        rw [List.map_append, List.mem_append]
        rw [endpoints_append, List.mem_append] at member
        rcases member with member | member
        · exact .inl (inside member)
        · rcases (by simpa [endpoints] using member : x = e.1 ∨ x = e.2) with rfl | rfl
          · exact .inl (inside old)
          · exact .inr (by simp)

end Edges

namespace SourceJoin

/-- Joins that form a spanning tree of named sources and attach these one by one. -/
structure Spans (names : List String) (joins : List SourceJoin) : Prop where
  count : joins.length + 1 = names.length
  growing : Growing (edges joins)
  ends : ∀ name, name ∈ endpoints (edges joins) ↔ name ∈ names

theorem Spans.perm {names others : List String} {joins : List SourceJoin}
    (spans : Spans names joins) (permuted : names.Perm others) : Spans others joins :=
  ⟨spans.count.trans permuted.length_eq, spans.growing, fun name =>
    (spans.ends name).trans permuted.mem_iff⟩

/-- Joins that attach sources of different names do not start with a loop. -/
theorem Attach.spans {sources : List Source} {joins : List SourceJoin}
    (attach : Attach sources joins) (distinct : (sources.map Source.name).Nodup) :
    Spans (sources.map Source.name) joins := by
  have ends : sources.map Source.name ⊆ endpoints (edges joins) := by
    intro name member
    obtain ⟨s, listed, rfl⟩ := List.mem_map.mp member
    exact attach.all s listed
  have growing : Growing (edges joins) := by
    refine (growing_or_subset fun before e after split later => ?_).resolve_right fun inside => ?_
    · obtain ⟨first, rest, rfl, rfl, tail⟩ := List.map_eq_append_iff.mp split
      obtain ⟨j, last, rfl, rfl, rfl⟩ := List.map_eq_cons_iff.mp tail
      exact attach.attached first j last rfl (by simpa using later)
    · have shorter := (distinct.subperm (List.Subset.trans ends inside)).length_le
      have count := attach.count
      simp [edges] at shorter
      omega
  refine ⟨by simpa using attach.count, growing, fun name => ⟨fun member => ?_, (ends ·)⟩⟩
  obtain ⟨_, listed, side⟩ := mem_endpoints.mp member
  obtain ⟨j, own, rfl⟩ := List.mem_map.mp listed
  obtain ⟨left, here, right, there, leftName, rightName, _⟩ := attach.keyed j own
  rcases side with rfl | rfl
  · exact List.mem_map.mpr ⟨left, here, leftName⟩
  · exact List.mem_map.mpr ⟨right, there, rightName⟩

end SourceJoin

namespace Query

/-- The joins of the first query come first. -/
theorem prefix_mergeJoins (a b : List SourceJoin) : a <+: mergeJoins a b := by
  unfold mergeJoins
  induction b generalizing a with
  | nil => exact List.prefix_rfl
  | cons j b ih =>
    rw [List.foldl_cons]
    split
    · exact ih a
    · exact (List.prefix_append a [j]).trans (ih _)

/-- No join is added if the first query has joins of the same sides and types. -/
theorem length_mergeJoins {a b : List SourceJoin} :
    (mergeJoins a b).length = a.length ↔ ∀ j ∈ b, ∃ k ∈ a, k.id = j.id := by
  induction b generalizing a with
  | nil => simp [mergeJoins]
  | cons j b ih =>
    rw [List.forall_mem_cons, ← ih]
    by_cases known : ∃ k ∈ a, k.id = j.id
    · have skipped : mergeJoins a (j :: b) = mergeJoins a b := by
        rw [mergeJoins, List.foldl_cons, if_pos (by simpa using known)]
        rfl
      rw [skipped]
      simp [known]
    · have added : mergeJoins a (j :: b) = mergeJoins (a ++ [j]) b := by
        rw [mergeJoins, List.foldl_cons, if_neg (by simpa using known)]
        rfl
      have longer := (prefix_mergeJoins (a ++ [j]) b).length_le
      rw [List.length_append, List.length_singleton] at longer
      rw [added]
      exact iff_of_false (by omega) fun both => known both.1

end Query

namespace Source

variable {mergeNested : Query → Query → Except PlanError Query}

/-- Sources of different names that are all there add no source, whatever the names of mergers. -/
theorem length_foldlM_absorb {ss kept out : List Source} (distinct : (ss.map Source.name).Nodup)
    (listed : ∀ s ∈ ss, s.name ∈ kept.map Source.name)
    (done : ss.foldlM (fun kept incoming => incoming.absorb mergeNested kept) kept = .ok out) :
    out.length = kept.length := by
  induction ss generalizing kept with
  | nil =>
    cases done
    rfl
  | cons s ss ih =>
    obtain ⟨here, later⟩ := List.forall_mem_cons.mp listed
    rw [List.map_cons, List.nodup_cons] at distinct
    rw [List.foldlM_cons] at done
    obtain ⟨next, absorbed, rest⟩ := bind_eq_ok.mp done
    rcases absorb_cases absorbed with ⟨new, _⟩ | ⟨before, t, joint, after, rfl, same, _, rfl⟩
    · exact absurd here new
    · -- the joint source may have another name, but none of those to come has the name it had
      have stays : ∀ u ∈ ss, u.name ∈ (before ++ joint :: after).map Source.name := by
        intro u member
        have old := later u member
        have other : u.name ≠ t.name := by
          intro equal
          exact distinct.1 (List.mem_map.mpr ⟨u, member, equal.trans same⟩)
        simp only [List.map_append, List.map_cons, List.mem_append, List.mem_cons] at old ⊢
        tauto
      rw [ih distinct.2 stays rest]
      simp

end Source

namespace Query

/-- Queries over sources of the same different names merge into as many sources. -/
theorem length_sources_merge {a b m : Query}
    (names : a.sources.map Source.name = b.sources.map Source.name)
    (distinct : (a.sources.map Source.name).Nodup) (made : a.merge b = .ok m) :
    m.sources.length = a.sources.length := by
  obtain ⟨_, _, sources, folded, rfl⟩ := of_merge made
  rw [List.foldlM_append, Source.foldlM_absorb_new (by simpa using distinct)] at folded
  apply Source.length_foldlM_absorb (names ▸ distinct) _ folded
  intro s member
  rw [List.nil_append, names]
  exact List.mem_map_of_mem member

/-- The joins of two resolved queries over sources of the same names. Those of the first are a
spanning tree and stay in front; they remain one if and only if the second has no others. -/
theorem merge_spans_iff {n p : Node} {a b m : Query} (resolved : n.resolve = .ok a)
    (alsoResolved : p.resolve = .ok b)
    (names : a.sources.map Source.name = b.sources.map Source.name)
    (several : 2 ≤ a.sources.length) (distinct : (a.sources.map Source.name).Nodup)
    (made : a.merge b = .ok m) :
    SourceJoin.Spans (a.sources.map Source.name) a.joins ∧
      SourceJoin.Spans (b.sources.map Source.name) b.joins ∧ a.joins <+: m.joins ∧
      (SourceJoin.Spans (m.sources.map Source.name) m.joins ↔
        (∀ s ∈ a.sources, s.name ∈ m.sources.map Source.name) ∧
          ∀ j ∈ b.joins, ∃ k ∈ a.joins, k.id = j.id) := by
  have spans {n : Node} {q : Query} (resolved : n.resolve = .ok q) (several : 2 ≤ q.sources.length)
      (distinct : (q.sources.map Source.name).Nodup) :
      SourceJoin.Spans (q.sources.map Source.name) q.joins :=
    ((n.settles_resolve_fits.ok resolved).1.joined several distinct).spans distinct
  have first := spans resolved several distinct
  have size := length_sources_merge names distinct made
  obtain ⟨_, _, sources, _, rfl⟩ := of_merge made
  have front : a.joins <+: (a.merged b sources).joins := prefix_mergeJoins a.joins b.joins
  have same : (∀ j ∈ b.joins, ∃ k ∈ a.joins, k.id = j.id) ↔
      (a.merged b sources).joins = a.joins := by
    rw [← length_mergeJoins]
    exact ⟨fun equal => (front.eq_of_length equal.symm).symm, congrArg List.length⟩
  refine ⟨first, ?_, front, ?_⟩
  · have lengths := congrArg List.length names
    rw [List.length_map, List.length_map] at lengths
    exact spans alsoResolved (by omega) (names ▸ distinct)
  · rw [same]
    constructor
    · intro tree
      have equal : (a.merged b sources).joins = a.joins := by
        refine (front.eq_of_length ?_).symm
        have count := tree.count
        have ownCount := first.count
        rw [List.length_map] at count ownCount
        omega
      refine ⟨fun s member => ?_, equal⟩
      rw [← tree.ends, equal, first.ends]
      exact List.mem_map_of_mem member
    · rintro ⟨kept, equal⟩
      have inside : a.sources.map Source.name ⊆ (a.merged b sources).sources.map Source.name := by
        intro name member
        obtain ⟨s, own, rfl⟩ := List.mem_map.mp member
        exact kept s own
      rw [equal]
      refine first.perm ((distinct.subperm inside).perm_of_length_le ?_)
      rw [List.length_map, List.length_map, size]

end Query

namespace Depot

def item : Concept := .key "item" .integer

def price : Concept := .property "price" .float [item]

def shelf : Concept := .property "shelf" .string [item]

/-- Not every item has a shelf. -/
def goods : Datasource :=
  .table "goods" [⟨"item", item, []⟩, ⟨"price", price, []⟩, ⟨"shelf", shelf, [.incomplete]⟩]

def orders : Datasource := .table "orders" [⟨"item", item, []⟩]

def reading (d : Datasource) (concepts : List Concept) : Node :=
  .of (.select (some d)) concepts concepts [] 0

/-- The goods with some of its columns, joined with the orders. -/
def ordered (concepts : List Concept) : Node :=
  .of (.merge []) concepts concepts [reading goods concepts, reading orders [item]] 0

/-- The name and the sources of the joined query, whatever the columns. -/
def Named (q : Query) : Prop :=
  q.identifier = "goods_at_item_join_orders_at_item_at_item" ∧
    q.sources.map Source.name = ["goods_at_item", "orders_at_item"]

instance : DecidablePred Named := fun _ => instDecidableAnd

theorem Named.same {a b : Query} (first : Named a) (second : Named b) :
    a.identifier = b.identifier ∧ a.sources.map Source.name = b.sources.map Source.name ∧
      2 ≤ a.sources.length ∧ (a.sources.map Source.name).Nodup := by
  refine ⟨first.1.trans second.1.symm, first.2.trans second.2.symm, ?_, ?_⟩
  · rw [← List.length_map Source.name, first.2]
    exact Nat.le_refl 2
  · rw [first.2]
    decide +kernel

end Depot

open Depot in
theorem Query.merge_spans_iff_priced :
    ∃ a b m, (ordered [item]).resolve = .ok a ∧ (ordered [item, price]).resolve = .ok b ∧
      a.identifier = b.identifier ∧ a.sources.map Source.name = b.sources.map Source.name ∧
      2 ≤ a.sources.length ∧ (a.sources.map Source.name).Nodup ∧ a.merge b = .ok m ∧
      SourceJoin.Spans (m.sources.map Source.name) m.joins := by
  have settled : Settles (ordered [item]).resolve
      (fun a => (Named a ∧ a.joins.map SourceJoin.id = ["goods_at_itemorders_at_itemleft outer"]) ∧
        Settles (ordered [item, price]).resolve
          (fun b => (Named b ∧
              b.joins.map SourceJoin.id = ["goods_at_itemorders_at_itemleft outer"]) ∧
            Settles (a.merge b) Named fun _ => False) fun _ => False)
      fun _ => False := by
    decide +kernel
  obtain ⟨a, resolved, ⟨first, ids⟩, settled⟩ := settled.exists_ok
  obtain ⟨b, alsoResolved, ⟨second, otherIds⟩, settled⟩ := settled.exists_ok
  obtain ⟨m, made, third⟩ := settled.exists_ok
  obtain ⟨same, names, several, distinct⟩ := first.same second
  refine ⟨a, b, m, resolved, alsoResolved, same, names, several, distinct, made, ?_⟩
  have spans := merge_spans_iff resolved alsoResolved names several distinct made
  refine spans.2.2.2.mpr ⟨fun s member => ?_, fun j member => ?_⟩
  · rw [third.2, ← first.2]
    exact List.mem_map_of_mem member
  · have listed := List.mem_map_of_mem (f := SourceJoin.id) member
    rw [otherIds, ← ids] at listed
    exact List.mem_map.mp listed

open Depot in
/-- Partial outputs turn a join around, and both joins are kept. -/
theorem Query.merge_not_spans :
    ∃ a b m, (ordered [item]).resolve = .ok a ∧ (ordered [item, shelf]).resolve = .ok b ∧
      a.identifier = b.identifier ∧ a.sources.map Source.name = b.sources.map Source.name ∧
      2 ≤ a.sources.length ∧ (a.sources.map Source.name).Nodup ∧ a.merge b = .ok m ∧
      ¬ SourceJoin.Spans (m.sources.map Source.name) m.joins := by
  have settled : Settles (ordered [item]).resolve
      (fun a => Named a ∧
        Settles (ordered [item, shelf]).resolve
          (fun b => Named b ∧
            Settles (a.merge b) (fun m => Named m ∧ m.joins.length = 2) fun _ => False)
          fun _ => False)
      fun _ => False := by
    decide +kernel
  obtain ⟨a, resolved, first, settled⟩ := settled.exists_ok
  obtain ⟨b, alsoResolved, second, settled⟩ := settled.exists_ok
  obtain ⟨m, made, third, both⟩ := settled.exists_ok
  obtain ⟨same, names, several, distinct⟩ := first.same second
  refine ⟨a, b, m, resolved, alsoResolved, same, names, several, distinct, made, fun spans => ?_⟩
  have count := spans.count
  rw [both, third.2] at count
  cases count

end SemanticQuery
