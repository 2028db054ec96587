import SemanticQuery.Proofs.Keys
import SemanticQuery.Proofs.Resolution
import SemanticQuery.Proofs.Run

/-!
What plans put out. A plan for a request puts out every address that is asked for, also if it is
remembered from an earlier search, as long as no name has a character that sets keys apart.
-/

namespace SemanticQuery

namespace Node

theorem mem_outputAddresses {n : Node} {address : String} :
    address ∈ n.outputAddresses ↔ ∃ o ∈ n.outputs, o.address = address := List.mem_map

theorem mem_outputAddresses_of {kind : NodeKind} {inputs outputs : List Concept}
    {parents : List Node} {depth : Nat} {c : Concept} (member : c ∈ outputs) :
    c.address ∈ (Node.of kind inputs outputs parents depth).outputAddresses :=
  Concept.mem_addresses_unique.mpr (List.mem_map_of_mem member)

theorem mem_outputAddresses_withOutputs {n : Node} {outputs : List Concept} {c : Concept}
    (member : c ∈ outputs) : c.address ∈ (n.withOutputs outputs).outputAddresses :=
  Concept.mem_addresses_unique.mpr (List.mem_map_of_mem member)

end Node

namespace Planner

variable {p : Planner} {roots : List Concept}

/-- A known concept is a reachable one, at some grain. -/
theorem plainPart_of_known (plain : ∀ c ∈ p.reachable roots, c.Plain) {c : Concept}
    (known : p.Known roots c) : History.PlainPart c := by
  have named {x : Concept} (known : p.Known roots x) : x.Plain := by
    obtain ⟨y, reached, g, rfl⟩ := exists_reachable_of_known known
    exact plain y reached
  exact ⟨named known, fun x component => named ((p.closed_known roots).component known component)⟩

/-- Each address of a covered request is put out by one of the stacked nodes. -/
theorem exists_of_covered {stack : List Node} {request : List Concept} {acceptPartial : Bool}
    (covers : covered stack request acceptPartial = .ok true) {c : Concept} (asked : c ∈ request) :
    ∃ node ∈ stack, c.address ∈ node.outputAddresses := by
  unfold covered at covers
  split at covers
  · cases covers
  · obtain ⟨queries, resolved, checked⟩ := bind_eq_ok.mp covers
    have checks := pure_eq_ok.mp checked
    rw [Bool.and_eq_true, provideAll, List.all_eq_true] at checks
    obtain ⟨q, member, provides⟩ := List.any_eq_true.mp (checks.1 c asked)
    obtain ⟨node, stacked, made⟩ := Node.exists_of_mem_resolveAll resolved member
    refine ⟨node, stacked, ?_⟩
    have listed : c.address ∈ Concept.addresses q.outputs := by
      split at provides
      · simpa [Query.provides, Concept.addresses] using provides
      · exact (List.mem_filter.mp (List.contains_iff_mem.mp provides)).1
    rw [Node.outputs_resolve made] at listed
    exact Concept.mem_addresses_unique.mp listed

theorem mem_outputAddresses_joinStack {stack : List Node} {request : List Concept} {depth : Nat}
    {acceptPartial : Bool} (covers : covered stack request acceptPartial = .ok true) {c : Concept}
    (asked : c ∈ request) : c.address ∈ (joinStack stack request depth).outputAddresses := by
  unfold joinStack
  split
  · next node =>
    obtain ⟨other, stacked, listed⟩ := exists_of_covered covers asked
    rwa [List.mem_singleton.mp stacked] at listed
  · exact Node.mem_outputAddresses_of asked

/-- What a node has to put out for a goal. -/
def Provided : Goal → Node → Prop
  | .request cs, node => ∀ c ∈ cs, c.address ∈ node.outputAddresses
  | _, _ => True

/-- A plan puts out all that is asked for. -/
theorem provided_of_makes (plain : ∀ c ∈ p.reachable roots, c.Plain) {goal : Goal} {node : Node}
    (made : p.Makes {} roots goal node) (known : goal.Known p roots) : Provided goal node := by
  induction made with
  | stacked parts covers _ => exact fun c asked => mem_outputAddresses_joinStack covers asked
  | extended _ _ _ => exact fun c asked => Node.mem_outputAddresses_withOutputs asked
  | @recalled request other _ _ node otherKnown same made ih =>
    -- the node was made for another request of the same key, which tells the addresses
    have uniqueKnown : ∀ c ∈ Concept.unique request, p.Known roots c := fun c member =>
      known c (Concept.mem_of_mem_unique member)
    intro c asked
    obtain ⟨d, listed, equal⟩ : ∃ d ∈ Concept.unique request, d.address = c.address :=
      List.mem_map.mp (Concept.mem_addresses_unique.mpr (List.mem_map_of_mem asked))
    obtain ⟨e, member, address⟩ := History.exists_address_of_key_eq
      (fun x member => plainPart_of_known plain (uniqueKnown x member))
      (fun x member => plainPart_of_known plain (otherKnown x member)) same listed
    rw [← equal, ← address]
    exact ih otherKnown e member
  | remembered held => cases held
  | _ => trivial

end Planner

end SemanticQuery
