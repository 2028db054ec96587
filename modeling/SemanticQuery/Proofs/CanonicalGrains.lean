import SemanticQuery.Proofs.MovedGrains

/-!
Canonical grains and default grains, which are defined by each other: a canonical grain lists
concepts at their default grains, and the default grain of a concept is the canonical grain of what
owns it. Taking the default grain again changes nothing, whatever a concept is derived from, so a
canonical grain is settled: the canonical grain of its own components is itself.
-/

namespace SemanticQuery

namespace Concept

variable {c x : Concept}

/-- What a concept brings into other grains stands at its default grain. Aligned selects evaluate
aggregates at other grains, so this is stated for a concept at any grain. -/
theorem withDefaultGrain_of_mem_settled {g : Grain}
    (member : x ∈ (c.withGrain g).graded.settled) : x.withDefaultGrain = x := by
  induction c using Concept.induction generalizing g with
  | step c ih =>
    have regraded {ds : List Concept} (listed : x ∈ ds.map withDefaultGrain) :
        x.withDefaultGrain = x := by
      obtain ⟨d, _, rfl⟩ := List.mem_map.mp listed
      exact withDefaultGrain_withDefaultGrain d
    have given (purpose : c.purpose = .constant ∨ c.purpose = .auto) : x.withDefaultGrain = x := by
      rw [graded_of_grain (c := c.withGrain g) purpose] at member
      exact regraded member
    cases purpose : c.purpose with
    | key =>
      have own : (c.withGrain g).graded.settled = [(c.withGrain g).withDefaultGrain] := by
        rw [withDefaultGrain, defaultGrain, graded_of_key (c := c.withGrain g) purpose]
      rw [own] at member
      rw [List.mem_singleton.mp member, withDefaultGrain_withDefaultGrain]
    | property =>
      by_cases free : c.keys = []
      · rw [graded_of_reads (c := c.withGrain g) purpose free] at member
        obtain ⟨r, read, brought⟩ := List.mem_flatMap.mp (Graded.mem_of_mem_settle member)
        obtain ⟨y, inside, h, rfl⟩ := exists_of_mem_reads (c := c) read
        exact ih y inside brought
      · rw [graded_of_keys (c := c.withGrain g) purpose free] at member
        exact regraded (Graded.mem_of_mem_settle member)
    | metric =>
      rw [graded_of_groups (c := c.withGrain g) purpose] at member
      exact regraded (Graded.mem_of_mem_settle member)
    | constant => exact given (.inl purpose)
    | auto => exact given (.inr purpose)

/-- A concept brings into other grains the components of its default grain, each at its own. -/
theorem settled_graded (c : Concept) :
    c.graded.settled = c.defaultGrain.components.map withDefaultGrain := by
  have fixed : ∀ x ∈ c.graded.settled, x.withDefaultGrain = x := by
    rw [← c.withGrain_grain]
    exact fun x member => withDefaultGrain_of_mem_settled member
  have settled {cs : List Concept} (same : c.graded = Graded.settle cs) :
      c.graded.settled = c.defaultGrain.components.map withDefaultGrain := by
    rw [defaultGrain, same]
    exact (map_withDefaultGrain fun x member => fixed x (same ▸ member)).symm
  cases purpose : c.purpose with
  | key =>
    have bare : (c.withGrain ∅).defaultGrain = c.defaultGrain :=
      congrArg Graded.grain (graded_withGrain ∅ (by simp [purpose]))
    rw [defaultGrain] at bare
    simp only [defaultGrain, graded_of_key purpose] at bare ⊢
    rw [List.map_singleton, withDefaultGrain, defaultGrain, bare]
    rfl
  | property =>
    by_cases free : c.keys = []
    · exact settled (graded_of_reads purpose free)
    · exact settled (graded_of_keys purpose free)
  | metric => exact settled (graded_of_groups purpose)
  | constant =>
    rw [defaultGrain, graded_of_grain (.inl purpose)]
  | auto =>
    rw [defaultGrain, graded_of_grain (.inr purpose)]

/-- The grain at which a concept lives by nature. -/
def naturalGrain (c : Concept) : Grain :=
  match c.purpose with
  | .key => .nest [c.withGrain ∅]
  | .property =>
    .of (if c.keys.isEmpty then c.reads.flatMap (·.defaultGrain.components) else c.keys)
  | .metric => .of c.groups
  | .constant | .auto => c.grain

theorem defaultGrain_eq (c : Concept) : c.defaultGrain = c.naturalGrain := by
  rw [naturalGrain]
  cases purpose : c.purpose with
  | key =>
    rw [defaultGrain, graded_of_key purpose]
    rfl
  | property =>
    dsimp only
    by_cases free : c.keys = []
    · have brought : c.reads.flatMap (·.graded.settled) =
          (c.reads.flatMap (·.defaultGrain.components)).map withDefaultGrain := by
        rw [List.map_flatMap]
        simp only [settled_graded]
      rw [defaultGrain, graded_of_reads purpose free, brought, Graded.settle_map_withDefaultGrain,
        free, if_pos List.isEmpty_nil]
    · have owned : ¬ c.keys.isEmpty = true := by simpa using free
      rw [defaultGrain, graded_of_keys purpose free, Graded.settle_map_withDefaultGrain,
        if_neg owned]
  | metric => rw [defaultGrain, graded_of_groups purpose, Graded.settle_map_withDefaultGrain]
  | constant => rw [defaultGrain, graded_of_grain (.inl purpose)]
  | auto => rw [defaultGrain, graded_of_grain (.inr purpose)]

end Concept

namespace Grain

open SemanticQuery.Concept

variable {cs : List Concept} {g h : Grain}

/-- The canonical form of concepts. Each address is judged by the concept that has it first: a
constant is left out, and so is a property that the keys of the grain own. -/
structure IsCanonical (cs : List Concept) (g : Grain) : Prop where
  distinct : (Concept.addresses g.components).Nodup
  ordered : g.components.Pairwise fun c d =>
    (Concept.addresses cs).idxOf c.address < (Concept.addresses cs).idxOf d.address
  kept : ∀ c, c ∈ g.components ↔ ∃ d, cs.find? (·.address == c.address) = some d ∧
    c = d.withDefaultGrain ∧ d.Stays (keyAddresses g.components)

/-- A canonical grain has all keys that come first at their address. -/
theorem mem_keyAddresses_of {address : String} :
    address ∈ keyAddresses (of cs).components ↔ address ∈ keyAddresses (unique cs) := by
  rw [mem_keyAddresses, mem_keyAddresses]
  constructor
  · rintro ⟨c, member, key, rfl⟩
    obtain ⟨d, first, rfl, _⟩ := mem_of.mp member
    exact ⟨d, first, key, rfl⟩
  · rintro ⟨d, first, key, rfl⟩
    exact ⟨d.withDefaultGrain, mem_of.mpr ⟨d, first, rfl, stays_key key⟩, key, rfl⟩

theorem stays_of_iff {c : Concept} :
    c.Stays (keyAddresses (of cs).components) ↔ c.Stays (keyAddresses (unique cs)) :=
  ⟨fun stays => stays.mono fun _ => mem_keyAddresses_of.mpr,
    fun stays => stays.mono fun _ => mem_keyAddresses_of.mp⟩

theorem pairwise_components_of (cs : List Concept) :
    (of cs).components.Pairwise fun c d =>
      (Concept.addresses cs).idxOf c.address < (Concept.addresses cs).idxOf d.address := by
  have first : ((unique cs).map withDefaultGrain).Pairwise fun c d =>
      (Concept.addresses cs).idxOf c.address < (Concept.addresses cs).idxOf d.address :=
    List.pairwise_map.mpr (Names.pairwise_uniqueFrom address [] cs)
  exact first.filter _

theorem nodup_of_ordered (ordered : g.components.Pairwise fun c d =>
    (Concept.addresses cs).idxOf c.address < (Concept.addresses cs).idxOf d.address) :
    (Concept.addresses g.components).Nodup :=
  List.pairwise_map.mpr (ordered.imp fun before same => absurd (same ▸ before) (Nat.lt_irrefl _))

theorem isCanonical_of (cs : List Concept) : IsCanonical cs (of cs) where
  distinct := nodup_of_ordered (pairwise_components_of cs)
  ordered := pairwise_components_of cs
  kept c := by
    rw [mem_of]
    simp only [stays_of_iff]
    constructor
    · rintro ⟨d, first, rfl, stays⟩
      exact ⟨d, Names.mem_uniqueOn_iff.mp first, rfl, stays⟩
    · rintro ⟨d, first, rfl, stays⟩
      exact ⟨d, Names.mem_uniqueOn_iff.mpr first, rfl, stays⟩

/-- The keys of a canonical form do not depend on what else it keeps. -/
theorem IsCanonical.mem_keyAddresses (canonical : IsCanonical cs g) {address : String} :
    address ∈ keyAddresses g.components ↔
      ∃ d, cs.find? (·.address == address) = some d ∧ d.purpose = .key := by
  rw [Concept.mem_keyAddresses]
  constructor
  · rintro ⟨c, member, key, rfl⟩
    obtain ⟨d, first, rfl, _⟩ := (canonical.kept c).mp member
    exact ⟨d, first, key⟩
  · rintro ⟨d, first, key⟩
    have named : d.address = address := by simpa using List.find?_some first
    subst named
    exact ⟨d.withDefaultGrain, (canonical.kept _).mpr ⟨d, first, rfl, stays_key key⟩, key, rfl⟩

/-- There is one canonical form. -/
theorem IsCanonical.components_eq (left : IsCanonical cs g) (right : IsCanonical cs h) :
    g.components = h.components := by
  have stays (d : Concept) :
      d.Stays (keyAddresses g.components) ↔ d.Stays (keyAddresses h.components) := by
    constructor
    · intro stays
      exact stays.mono fun key held => left.mem_keyAddresses.mpr (right.mem_keyAddresses.mp held)
    · intro stays
      exact stays.mono fun key held => right.mem_keyAddresses.mpr (left.mem_keyAddresses.mp held)
  have members (c : Concept) : c ∈ g.components ↔ c ∈ h.components := by
    rw [left.kept, right.kept]
    simp only [stays]
  have permuted : g.components.Perm h.components :=
    (List.perm_ext_iff_of_nodup (left.distinct.of_map _) (right.distinct.of_map _)).mpr members
  exact permuted.eq_of_pairwise
    (fun c d _ _ before after => absurd before (Nat.lt_asymm after)) left.ordered right.ordered

/-- A canonical grain is settled. -/
theorem components_of_components (cs : List Concept) :
    (of (of cs).components).components = (of cs).components := by
  have distinct : unique (of cs).components = (of cs).components :=
    unique_eq_self (isCanonical_of cs).distinct
  have regraded : (of cs).components.map withDefaultGrain = (of cs).components :=
    map_withDefaultGrain fun c member => withDefaultGrain_of_mem_of member
  have stays : ∀ c ∈ (of cs).components, c ∈ canonical (of cs).components := by
    intro c member
    obtain ⟨d, _, rfl, stays⟩ := mem_of.mp member
    exact mem_canonical.mpr ⟨member, stays_of_iff.mpr stays⟩
  rw [of, distinct, regraded]
  exact List.filter_eq_self.mpr fun c member => (List.mem_filter.mp (stays c member)).2

/-- The canonical grain of concepts is their one canonical form, and it is settled. The default
grains at which it has its components are again canonical grains, of what owns a concept. -/
theorem of_isCanonical (cs : List Concept) :
    (∀ g, IsCanonical cs g ↔ g.components = (of cs).components) ∧
      (of (of cs).components).components = (of cs).components ∧
      ∀ c : Concept, c.defaultGrain = c.naturalGrain := by
  refine ⟨fun g => ⟨fun canonical => ?_, fun same => ?_⟩, ?_, ?_⟩
  · exact canonical.components_eq (isCanonical_of cs)
  · obtain ⟨distinct, ordered, kept⟩ := isCanonical_of cs
    rw [← same] at distinct ordered kept
    exact ⟨distinct, ordered, kept⟩
  · exact components_of_components cs
  · exact Concept.defaultGrain_eq

end Grain

end SemanticQuery
