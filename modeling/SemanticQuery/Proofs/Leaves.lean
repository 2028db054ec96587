import SemanticQuery.Plan.Leaf
import SemanticQuery.Proofs.Outcome

/-!
How leaves are made. A leaf reads one table, or joins nodes that each read one. So what every node
that reads a table has, and a join of such nodes keeps, every leaf has.
-/

namespace SemanticQuery

theorem mem_of_mem_combinations {size : Nat} {items chosen : List α} {a : α}
    (member : chosen ∈ combinations items size) (listed : a ∈ chosen) : a ∈ items := by
  unfold combinations at member
  split at member
  · obtain ⟨p, _, rfl⟩ := List.mem_map.mp member
    obtain ⟨i, _, rfl⟩ := List.mem_pmap.mp listed
    exact List.getElem_mem _
  · cases member

namespace Planner

variable {p : Planner} {n : Node} {c : Concept} {optional : List Concept} {depth : Nat}
  {acceptPartial : Bool}

/-- A table select has constants only, or reads a datasource that covers its concepts. -/
theorem selectFromTable_cases {cs : List Concept}
    (found : p.selectFromTable cs depth acceptPartial = .ok (some n)) :
    (∀ c ∈ cs, c.purpose = .constant) ∧ n = .of (.select none) cs cs [] depth ∨
      ∃ d, p.coveringDatasource? cs acceptPartial p.catalog.datasources = .ok (some d) ∧
        n = .of (.select (some d)) d.concepts cs [] depth := by
  unfold selectFromTable at found
  split at found
  · cases found
  · split at found
    · next constants =>
      cases found
      refine .inl ⟨fun c member => ?_, rfl⟩
      exact beq_iff_eq.mp (List.all_eq_true.mp constants c member)
    · obtain ⟨covering, search, found⟩ := bind_eq_ok.mp found
      cases covering with
      | none => cases found
      | some d =>
        cases found
        exact .inr ⟨d, search, rfl⟩

/-- What becomes of the leaves that were gathered for a concept. -/
def joinLeaves (p : Planner) (c : Concept) (optional : List Concept) (depth : Nat)
    (acceptPartial : Bool) (leaves : Leaves) : Except PlanError (Option Node) :=
  if !leaves.nodes.isEmpty && (leaves.cover optional || p.acceptPartialOptional) then
    match leaves.nodes with
    | [node] => pure (some node)
    | nodes => pure (some (.of (.merge []) (nodes.flatMap (·.outputs)) (nodes.flatMap (·.outputs))
        nodes depth))
  else if p.acceptPartialOptional then p.selectFromTable [c] depth acceptPartial
  else pure none

/-- A leaf is selected whole, or made of gathered leaves. -/
theorem selectNode_cases (found : p.selectNode c optional depth acceptPartial = .ok (some n)) :
    p.selectFromTable (c :: optional) depth acceptPartial = .ok (some n) ∨
      ∃ leaves : Leaves, p.joinLeaves c optional depth acceptPartial leaves = .ok (some n) ∧
        (leaves = {} ∨ ∃ materialized size, (∀ o ∈ materialized, o ∈ optional) ∧
          p.gather c materialized optional depth acceptPartial size {} = .ok leaves) := by
  let readable (x : Concept) := x.purpose == .constant || p.catalog.isMaterialized x.address
  let materialized := optional.filter fun o => p.catalog.isMaterialized o.address
  let gathered : Except PlanError Leaves :=
    if ParentJoin.isJoinKey c then
      p.gather c materialized optional depth acceptPartial materialized.length {}
    else pure {}
  let attempt (whole : Option Node) : Except PlanError (Option Node) :=
    if whole.isSome then pure whole
    else if !(c :: optional).all readable && !p.catalog.isMaterialized c.address then pure none
    else gathered >>= p.joinLeaves c optional depth acceptPartial
  have steps : p.selectNode c optional depth acceptPartial =
      ((if (c :: optional).all readable then p.selectFromTable (c :: optional) depth acceptPartial
        else pure none) >>= attempt) := by
    unfold selectNode
    dsimp only [attempt, gathered]
    cases ParentJoin.isJoinKey c <;> cases (c :: optional).all readable <;> rfl
  rw [steps] at found
  obtain ⟨whole, selected, found⟩ := bind_eq_ok.mp found
  cases whole with
  | some node =>
    cases found
    split at selected
    · exact .inl selected
    · cases selected
  | none =>
    simp only [attempt, Option.isSome_none, Bool.false_eq_true, if_false] at found
    split at found
    · cases found
    · obtain ⟨leaves, gathering, found⟩ := bind_eq_ok.mp found
      refine .inr ⟨leaves, found, ?_⟩
      simp only [gathered] at gathering
      split at gathering
      · exact .inr ⟨materialized, _, fun o kept => (List.mem_filter.mp kept).1, gathering⟩
      · exact .inl (pure_eq_ok.mp gathering).symm

section

variable {holds : Node → Prop}
  (table : ∀ cs, (∀ x ∈ cs, x = c ∨ x ∈ optional) → ∀ node,
    p.selectFromTable cs depth acceptPartial = .ok (some node) → holds node)

include table

/-- Each combination adds at most one node, which reads a table. -/
theorem holds_tryCombination {leaves after : Leaves} {combination : List Concept}
    (others : ∀ o ∈ combination, o ∈ optional) (held : ∀ node ∈ leaves.nodes, holds node)
    (tried : p.tryCombination c depth acceptPartial leaves combination = .ok after) :
    ∀ node ∈ after.nodes, holds node := by
  unfold tryCombination at tried
  split at tried
  · cases tried
    exact held
  · obtain ⟨found, selected, tried⟩ := bind_eq_ok.mp tried
    cases found with
    | none =>
      cases tried
      exact held
    | some leaf =>
      cases tried
      intro node member
      rcases List.mem_append.mp member with before | added
      · exact held node before
      · rw [List.mem_singleton.mp added]
        refine table _ (fun x asked => ?_) leaf selected
        rcases List.mem_cons.mp asked with rfl | asked
        · exact .inl rfl
        · exact .inr (others x (List.mem_filter.mp asked).1)

theorem holds_gather {materialized wanted : List Concept} {size : Nat} {leaves after : Leaves}
    (others : ∀ o ∈ materialized, o ∈ optional) (held : ∀ node ∈ leaves.nodes, holds node)
    (gathered : p.gather c materialized wanted depth acceptPartial size leaves = .ok after) :
    ∀ node ∈ after.nodes, holds node := by
  induction size generalizing leaves with
  | zero =>
    cases gathered
    exact held
  | succ size ih =>
    rw [gather] at gathered
    obtain ⟨next, tried, gathered⟩ := bind_eq_ok.mp gathered
    have kept : ∀ node ∈ next.nodes, holds node := by
      refine foldlM_keeps (fun leaves : Leaves => ∀ node ∈ leaves.nodes, holds node)
        (fun leaves combination member after before step => ?_) held tried
      refine holds_tryCombination table (fun o chosen => ?_) before step
      exact others o (mem_of_mem_combinations member chosen)
    split at gathered
    · cases gathered
      exact kept
    · exact ih kept gathered

/-- What table selects have and joins of them keep, leaves have. -/
theorem holds_selectNode
    (join : ∀ nodes : List Node, (∀ node ∈ nodes, holds node) →
      holds (.of (.merge []) (nodes.flatMap (·.outputs)) (nodes.flatMap (·.outputs)) nodes depth))
    (found : p.selectNode c optional depth acceptPartial = .ok (some n)) : holds n := by
  rcases selectNode_cases found with whole | ⟨leaves, joined, gathered⟩
  · exact table _ (fun x member => List.mem_cons.mp member) n whole
  · have held : ∀ node ∈ leaves.nodes, holds node := by
      rcases gathered with rfl | ⟨materialized, size, among, gathered⟩
      · simp
      · exact holds_gather table among (by simp) gathered
    unfold joinLeaves at joined
    split at joined
    · split at joined
      · next node single =>
        cases joined
        exact held n (by simp [single])
      · cases joined
        exact join _ held
    · split at joined
      · exact table [c] (fun x member => .inl (List.mem_singleton.mp member)) n joined
      · cases joined

end

end Planner

end SemanticQuery
