import Mathlib.Data.Finset.Card
import Mathlib.Data.List.Sublists
import SemanticQuery.Proofs.NameMaps
import SemanticQuery.Proofs.Variants

/-!
The concepts and keys that a search can come across. Both are determined by the catalog, the request
and the row filter, and there are finitely many of them.
-/

namespace SemanticQuery

namespace History

/-- The key of a set of concepts with their grains. -/
def keyOfParts (parts : List String) (acceptPartial : Bool) : String :=
  "-".intercalate (Names.ofList parts) ++ "-" ++ (if acceptPartial then "true" else "false")

theorem key_eq (request : List Concept) (acceptPartial : Bool) :
    key request acceptPartial = keyOfParts (request.map keyPart) acceptPartial := rfl

theorem keyOfParts_congr {a b : List String} (same : ∀ part, part ∈ a ↔ part ∈ b)
    (acceptPartial : Bool) : keyOfParts a acceptPartial = keyOfParts b acceptPartial := by
  rw [keyOfParts, Names.ofList_congr same, keyOfParts]

end History

namespace Planner

/-- The concepts that a search for a request starts from, with all concepts inside them. -/
def reachable (p : Planner) (request : List Concept) : List Concept :=
  (p.seeds request).flatMap (·.within)

/-- The forms in which a search for a request can meet concepts. -/
def variants (p : Planner) (request : List Concept) : List Concept :=
  (p.seeds request).flatMap (·.variants)

/-- Whether a search for a request can meet a concept in this form. -/
def Known (p : Planner) (request : List Concept) (c : Concept) : Prop := c ∈ p.variants request

theorem closed_known (p : Planner) (request : List Concept) :
    Concept.Closed (p.Known request) where
  reads known read := by
    obtain ⟨seed, start, held⟩ := List.mem_flatMap.mp known
    exact List.mem_flatMap.mpr ⟨seed, start, (Concept.closed_variants seed).reads held read⟩
  component known listed := by
    obtain ⟨seed, start, held⟩ := List.mem_flatMap.mp known
    exact List.mem_flatMap.mpr ⟨seed, start, (Concept.closed_variants seed).component held listed⟩
  atDefault known := by
    obtain ⟨seed, start, held⟩ := List.mem_flatMap.mp known
    exact List.mem_flatMap.mpr ⟨seed, start, (Concept.closed_variants seed).atDefault held⟩
  output known derived branch output := by
    obtain ⟨seed, start, held⟩ := List.mem_flatMap.mp known
    exact List.mem_flatMap.mpr
      ⟨seed, start, (Concept.closed_variants seed).output held derived branch output⟩

theorem known_of_mem_seeds {p : Planner} {request : List Concept} {c : Concept}
    (start : c ∈ p.seeds request) : p.Known request c :=
  List.mem_flatMap.mpr ⟨c, start, Concept.mem_variants_self c⟩

theorem known_of_mem_request {p : Planner} {request : List Concept} {c : Concept}
    (member : c ∈ request) : p.Known request c :=
  known_of_mem_seeds (by simp [seeds, member])

theorem known_of_mem_filter {p : Planner} {request : List Concept} {c : Concept} {f : RowFilter}
    (filtering : p.rowFilter = some f) (member : c ∈ f.condition.reads) : p.Known request c :=
  known_of_mem_seeds (by simp [seeds, filtering, member])

theorem known_of_catalog {p : Planner} {request : List Concept} {reference : String} {c : Concept}
    (declared : p.catalog.concept reference = .ok c) : p.Known request c := by
  refine known_of_mem_seeds ?_
  have held : c ∈ p.catalog.concepts.values := by
    unfold Catalog.concept NameMap.resolve at declared
    dsimp only at declared
    split at declared
    · next found =>
      cases declared
      obtain ⟨entry, listed, rfl⟩ := Option.map_eq_some_iff.mp found
      exact List.mem_map_of_mem (List.mem_of_find?_eq_some listed)
    · cases declared
  simp [seeds, held]

/-- A known concept differs from a reachable one by its grain at most. -/
theorem exists_reachable_of_known {p : Planner} {request : List Concept} {c : Concept}
    (known : p.Known request c) : ∃ x ∈ p.reachable request, ∃ g, c = x.withGrain g := by
  obtain ⟨seed, start, held⟩ := List.mem_flatMap.mp known
  obtain ⟨x, inside, g, rfl⟩ := Concept.exists_within_of_mem_variants seed c held
  exact ⟨x, List.mem_flatMap.mpr ⟨seed, start, inside⟩, g, rfl⟩

/-- The keys of all requests for known concepts. -/
def keys (p : Planner) (request : List Concept) : Finset String :=
  (((p.variants request).map History.keyPart).sublists.flatMap fun parts =>
    [History.keyOfParts parts true, History.keyOfParts parts false]).toFinset

theorem key_mem_keys {p : Planner} {request nested : List Concept}
    (known : ∀ c ∈ nested, p.Known request c) (acceptPartial : Bool) :
    History.key nested acceptPartial ∈ p.keys request := by
  let parts := (p.variants request).map History.keyPart
  let chosen := parts.filter (· ∈ nested.map History.keyPart)
  have same : ∀ part, part ∈ nested.map History.keyPart ↔ part ∈ chosen := by
    intro part
    simp only [chosen, List.mem_filter, decide_eq_true_eq, iff_and_self]
    intro member
    obtain ⟨c, asked, rfl⟩ := List.mem_map.mp member
    exact List.mem_map_of_mem (known c asked)
  refine List.mem_toFinset.mpr (List.mem_flatMap.mpr ⟨chosen, ?_, ?_⟩)
  · exact List.mem_sublists.mpr List.filter_sublist
  · rw [History.key_eq, History.keyOfParts_congr same]
    cases acceptPartial <;> simp

/-- What knows more concepts has more keys. -/
theorem keys_subset {p other : Planner} {roots others : List Concept}
    (known : ∀ c, p.Known roots c → other.Known others c) : p.keys roots ⊆ other.keys others := by
  intro key member
  obtain ⟨parts, chosen, listed⟩ := List.mem_flatMap.mp (List.mem_toFinset.mp member)
  obtain ⟨nested, kept, rfl⟩ := List.sublist_map_iff.mp (List.mem_sublists.mp chosen)
  have inside : ∀ c ∈ nested, other.Known others c := fun c asked => known c (kept.subset asked)
  simp only [List.mem_cons, List.not_mem_nil, or_false, ← History.key_eq] at listed
  rcases listed with rfl | rfl
  · exact key_mem_keys inside true
  · exact key_mem_keys inside false

theorem length_variants_le (p : Planner) (request : List Concept) :
    (p.variants request).length ≤ 4 * total ((p.seeds request).map Concept.weight) := by
  rw [variants]
  induction p.seeds request with
  | nil => simp
  | cons c cs ih =>
    have := Concept.length_variants_lt c
    simp only [List.flatMap_cons, List.length_append, List.map_cons, total]
    omega

/-- There are fewer keys than the bound on the nesting of searches. -/
theorem card_keys_lt (p : Planner) (request : List Concept) :
    (p.keys request).card < p.searchBound request := by
  have twice (sets : List (List String)) : (sets.flatMap fun parts =>
      [History.keyOfParts parts true, History.keyOfParts parts false]).length =
        sets.length * 2 := by
    simp [List.length_flatMap]
  calc (p.keys request).card
      ≤ 2 ^ (p.variants request).length * 2 := by
        refine le_trans (List.toFinset_card_le _) ?_
        rw [twice, List.length_sublists, List.length_map]
    _ ≤ 2 ^ (4 * total ((p.seeds request).map Concept.weight)) * 2 :=
        Nat.mul_le_mul_right 2 (Nat.pow_le_pow_right (by decide) (length_variants_le p request))
    _ < 2 ^ (4 * total ((p.seeds request).map Concept.weight)) * 2 ^ 2 :=
        Nat.mul_lt_mul_of_pos_left (by decide) (Nat.two_pow_pos _)
    _ = p.searchBound request := by
        rw [searchBound, ← Nat.pow_add]
        rfl

end Planner

end SemanticQuery
