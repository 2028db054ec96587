import SemanticQuery.Proofs.ForwardReferences
import SemanticQuery.Proofs.GrainSums
import SemanticQuery.Proofs.Namespaces

/-!
Canonical grains of concepts that move to another namespace. Within one namespace a concept is told
by its name, so a move commutes with whatever only compares addresses. It does not commute with
default grains, since the keys of a property do not move along: what is tied to such keys is no
longer owned by the keys that moved.
-/

namespace SemanticQuery

namespace Names

variable {f : String → String}

theorem uniqueFrom_congr {name other : α → String} {items : List α}
    (same : ∀ a ∈ items, name a = other a) (seen : List String) :
    uniqueFrom name seen items = uniqueFrom other seen items := by
  induction items generalizing seen with
  | nil => rfl
  | cons first rest ih =>
    obtain ⟨here, later⟩ := List.forall_mem_cons.mp same
    rw [uniqueFrom, uniqueFrom, here, ih later, ih later]

theorem contains_map (injective : Function.Injective f) (names : List String) (name : String) :
    (names.map f).contains (f name) = names.contains name := by
  rw [Bool.eq_iff_iff, List.contains_iff_mem, List.contains_iff_mem]
  exact List.mem_map_of_injective injective

/-- Which items are kept depends on which names are equal. -/
theorem uniqueFrom_comp (injective : Function.Injective f) (name : α → String)
    (seen : List String) (items : List α) :
    uniqueFrom (fun a => f (name a)) (seen.map f) items = uniqueFrom name seen items := by
  induction items generalizing seen with
  | nil => rfl
  | cons first rest ih =>
    rw [uniqueFrom, uniqueFrom, contains_map injective, ih, ← List.map_cons, ih]

theorem subset_map (injective : Function.Injective f) (a b : List String) :
    subset (a.map f) (b.map f) = subset a b := by
  simp only [subset, List.all_map, Function.comp_def, contains_map injective]

end Names

/-- The address of a name in a namespace. -/
def addressIn (space name : String) : String := space ++ "." ++ name

theorem addressIn_injective (space : String) : Function.Injective (addressIn space) := by
  intro a b same
  exact String.append_right_inj _ |>.mp same

namespace Concept

variable {home space : String} {cs : List Concept}

theorem addresses_eq (here : ∀ c ∈ cs, c.ns = home) :
    addresses cs = (cs.map (·.name)).map (addressIn home) := by
  rw [addresses, List.map_map]
  refine List.map_congr_left fun c member => ?_
  rw [address, here c member]
  rfl

theorem addresses_withNamespace (cs : List Concept) :
    addresses (cs.map (·.withNamespace space)) = (cs.map (·.name)).map (addressIn space) := by
  have moved : ∀ c ∈ cs.map (·.withNamespace space), c.ns = space := by simp
  rw [addresses_eq moved]
  refine congrArg (List.map (addressIn space)) ?_
  rw [List.map_map]
  exact List.map_congr_left fun c _ => name_withNamespace space c

theorem unique_withNamespace (space : String) (here : ∀ c ∈ cs, c.ns = home) :
    unique (cs.map (·.withNamespace space)) = (unique cs).map (·.withNamespace space) := by
  have before : unique cs = Names.uniqueOn (·.name) cs := by
    refine Eq.trans (Names.uniqueFrom_congr (fun c member => ?_) [])
      (Names.uniqueFrom_comp (addressIn_injective home) (·.name) [] cs)
    rw [address, here c member]
    rfl
  rw [unique, Names.uniqueOn_map, before]
  refine congrArg (List.map _) (Eq.trans (Names.uniqueFrom_congr (fun c _ => ?_) [])
    (Names.uniqueFrom_comp (addressIn_injective space) (·.name) [] cs))
  exact address_withNamespace space c

end Concept

section Canonical

variable {home space : String} {cs : List Concept}

/-- A concept of a namespace, at a grain of that namespace. -/
structure Concept.AtHome (home : String) (c : Concept) : Prop where
  ns : c.ns = home
  grain : ∀ x ∈ c.grain.components, x.ns = home

theorem Concept.keyAddresses_withNamespace (space : String) (cs : List Concept) :
    keyAddresses (cs.map (·.withNamespace space)) =
      ((cs.filter (·.purpose == .key)).map (·.name)).map (addressIn space) := by
  rw [keyAddresses, List.filter_map, addresses_withNamespace]
  simp [Function.comp_def]

theorem Concept.keyAddresses_eq (here : ∀ c ∈ cs, c.ns = home) :
    keyAddresses cs = ((cs.filter (·.purpose == .key)).map (·.name)).map (addressIn home) :=
  addresses_eq fun c member => here c (List.mem_filter.mp member).1

/-- Within a namespace, what a canonical grain keeps depends on names. -/
theorem Grain.canonical_withNamespace (space : String) (here : ∀ c ∈ cs, c.AtHome home) :
    canonical (cs.map (·.withNamespace space)) = (canonical cs).map (·.withNamespace space) := by
  have keys := Concept.keyAddresses_eq fun c member => (here c member).ns
  have moved := Concept.keyAddresses_withNamespace space cs
  unfold Concept.keyAddresses at keys moved
  unfold canonical
  dsimp only
  rw [List.filter_map, moved, keys]
  refine congrArg (List.map _) (List.filter_congr fun c member => ?_)
  dsimp only [Function.comp_apply]
  rw [Concept.purpose_withNamespace, Concept.grain_withNamespace, Concept.components_withNamespace,
    Concept.addresses_withNamespace, Concept.addresses_eq (here c member).grain,
    Names.subset_map (addressIn_injective space), Names.subset_map (addressIn_injective home)]
  simp only [List.isEmpty_map]

def Graded.withNamespace (space : String) (g : Graded) : Graded :=
  ⟨g.grain.withNamespace space, g.settled.map (·.withNamespace space)⟩

theorem Grain.withNamespace_eq (components : List Concept) (nested : Bool) :
    Grain.withNamespace space ⟨components, nested⟩ =
      ⟨components.map (·.withNamespace space), nested⟩ := by
  rw [Grain.withNamespace, Concept.withNamespaceAll_eq]

theorem Graded.settle_withNamespace (here : ∀ c ∈ cs, c.AtHome home) :
    settle (cs.map (·.withNamespace space)) = (settle cs).withNamespace space := by
  have kept : ∀ c ∈ Concept.unique cs, c.AtHome home :=
    fun c member => here c (Concept.mem_of_mem_unique member)
  have unique := Concept.unique_withNamespace space fun c member => (here c member).ns
  have canonical := Grain.canonical_withNamespace space kept
  unfold settle Graded.withNamespace
  dsimp only
  rw [unique, canonical, Grain.withNamespace_eq]

theorem Concept.withGrain_withNamespace (c : Concept) (g : Grain) :
    (c.withGrain g).withNamespace space =
      (c.withNamespace space).withGrain (g.withNamespace space) := by
  cases c
  rw [withNamespace]
  unfold withGrain
  rw [withNamespace]

end Canonical

namespace Concept

variable {home space : String} {c : Concept}

/-- Everything that a concept is written with. -/
def contents (c : Concept) : List Concept :=
  c.keys ++ (c.lineage.map Lineage.operands).getD [] ++ c.grain.components

/-- Whether everything in a concept is of one namespace, and nothing is aligned from selects. -/
def LivesIn (home : String) (c : Concept) : Prop :=
  ∀ x, Relation.ReflTransGen (fun c x => x ∈ c.contents) c x →
    x.ns = home ∧ x.derivation ≠ .multiSelect

namespace LivesIn

theorem here (lives : c.LivesIn home) : c.ns = home ∧ c.derivation ≠ .multiSelect := lives c .refl

theorem of_mem {x : Concept} (lives : c.LivesIn home) (member : x ∈ c.contents) :
    x.LivesIn home :=
  fun y reaches => lives y (.head member reaches)

theorem key {k : Concept} (lives : c.LivesIn home) (key : k ∈ c.keys) : k.LivesIn home :=
  lives.of_mem (List.mem_append_left _ (List.mem_append_left _ key))

theorem component {x : Concept} (lives : c.LivesIn home) (component : x ∈ c.grain.components) :
    x.LivesIn home :=
  lives.of_mem (List.mem_append_right _ component)

theorem read {x : Concept} (lives : c.LivesIn home) (read : x ∈ c.reads) : x.LivesIn home := by
  have present : c.isPlaceholder = false := by
    cases derived : c.lineage with
    | none => simp [reads, derived] at read
    | some lineage => simp [isPlaceholder, derived]
  have written := mem_mentions_of_mem_reads present lives.here.2 read
  rw [mentions_eq present] at written
  exact lives.of_mem (List.mem_append_left _ written)

end LivesIn

theorem groups_subset_reads (c : Concept) : c.groups ⊆ c.reads := by
  intro x member
  have folded : x.paired (fun _ _ => ()) ∈ ((c.folded fun _ _ => ()).lineage ()).groupBy := by
    rw [groupBy_folded]
    exact List.mem_map_of_mem member
  exact mem_reads_of_mem_groupBy folded

/-!
The default grain by purpose, with the concepts that it is settled from.
-/

theorem graded_of_key (key : c.purpose = .key) :
    c.graded = ⟨⟨[c.withGrain ∅], true⟩, [c.withGrain ⟨[c.withGrain ∅], true⟩]⟩ := by
  rw [graded_eq, Graded.ofParts, key]
  rfl

theorem graded_of_keys (property : c.purpose = .property) (owned : c.keys ≠ []) :
    c.graded = Graded.settle (c.keys.map withDefaultGrain) := by
  have nonempty : ¬ c.keys.isEmpty = true := by simpa using owned
  rw [graded_eq, Graded.ofParts, property]
  dsimp only
  rw [if_neg nonempty, folded, List.map_map]
  rfl

theorem graded_of_reads (property : c.purpose = .property) (free : c.keys = []) :
    c.graded = Graded.settle (c.reads.flatMap (·.graded.settled)) := by
  rw [graded_eq, Graded.ofParts, property]
  dsimp only
  rw [free, if_pos List.isEmpty_nil, gradedReads_folded, List.flatMap_map]

theorem graded_of_groups (metric : c.purpose = .metric) :
    c.graded = Graded.settle (c.groups.map withDefaultGrain) := by
  rw [graded_eq, Graded.ofParts, metric]
  dsimp only
  rw [hasGroupBy_eq, groupBy_folded, List.map_map]
  cases c.groups <;> rfl

/-- The default grain of a concept of a namespace lies in that namespace. -/
theorem LivesIn.graded (lives : c.LivesIn home) :
    (∀ x ∈ c.graded.grain.components, x.ns = home) ∧ ∀ x ∈ c.graded.settled, x.AtHome home := by
  induction c using Concept.induction with
  | step c ih =>
    obtain ⟨own, plain⟩ := lives.here
    have settle {cs : List Concept} (here : ∀ x ∈ cs, x.AtHome home) :
        (∀ x ∈ (Graded.settle cs).grain.components, x.ns = home) ∧
          ∀ x ∈ (Graded.settle cs).settled, x.AtHome home :=
      ⟨fun x member => (here x (Graded.mem_of_mem_settle member)).ns,
        fun x member => here x (Graded.mem_of_mem_settle member)⟩
    have regrade {cs : List Concept} (inner : ∀ x ∈ cs, x ∈ c.inner)
        (live : ∀ x ∈ cs, x.LivesIn home) : ∀ x ∈ cs.map withDefaultGrain, x.AtHome home := by
      intro x member
      obtain ⟨y, listed, rfl⟩ := List.mem_map.mp member
      exact ⟨(live y listed).here.1, (ih y (inner y listed) (live y listed)).1⟩
    have given (purpose : c.purpose = .constant ∨ c.purpose = .auto) :
        (∀ x ∈ c.graded.grain.components, x.ns = home) ∧
          ∀ x ∈ c.graded.settled, x.AtHome home := by
      rw [graded_of_grain purpose]
      exact ⟨fun x component => (lives.component component).here.1,
        regrade (fun x component => List.mem_append_right _ component)
          fun x component => lives.component component⟩
    cases purpose : c.purpose with
    | key =>
      rw [graded_of_key purpose]
      exact ⟨List.forall_mem_singleton.mpr own,
        List.forall_mem_singleton.mpr ⟨own, List.forall_mem_singleton.mpr own⟩⟩
    | property =>
      by_cases free : c.keys = []
      · rw [graded_of_reads purpose free]
        refine settle fun x member => ?_
        obtain ⟨r, read, brought⟩ := List.mem_flatMap.mp member
        exact (ih r (mem_inner_of_mem_reads plain read) (lives.read read)).2 x brought
      · rw [graded_of_keys purpose free]
        exact settle (regrade (fun k key => mem_inner_of_mem_keys key) fun k key => lives.key key)
    | metric =>
      rw [graded_of_groups purpose]
      refine settle (regrade (fun g group => ?_) fun g group => ?_)
      · exact mem_inner_of_mem_reads plain (c.groups_subset_reads group)
      · exact lives.read (c.groups_subset_reads group)
    | constant => exact given (.inl purpose)
    | auto => exact given (.inr purpose)

/-- What the default grain is computed from, the keys of a property apart. -/
def follows (c : Concept) : List Concept :=
  match c.purpose with
  | .key => []
  | .property => if c.keys.isEmpty then c.reads else []
  | .metric => c.groups
  | .constant | .auto => c.grain.components

/-- A property that belongs to its keys. -/
structure Anchored (c : Concept) : Prop where
  purpose : c.purpose = .property
  keys : c.keys ≠ []
  owners : c.owners ≠ []

/-- Whether the default grain is computed from that of an anchored property. -/
def Tied (c : Concept) : Prop :=
  ∃ x, Relation.ReflTransGen (fun c x => x ∈ c.follows) c x ∧ x.Anchored

theorem Tied.of_mem {x : Concept} (tied : x.Tied) (member : x ∈ c.follows) : c.Tied := by
  obtain ⟨y, reaches, anchored⟩ := tied
  exact ⟨y, .head member reaches, anchored⟩

theorem reads_withNamespace (lives : c.LivesIn home) :
    (c.withNamespace space).reads = c.reads.map (·.withNamespace space) := by
  unfold reads
  rw [lineage_withNamespace]
  cases derived : c.lineage with
  | none => rfl
  | some lineage =>
    rw [Option.map_some]
    cases lineage with
    | call f => rw [Lineage.withNamespace]; exact Call.reads_withNamespace space f
    | window w => rw [Lineage.withNamespace]; exact Window.reads_withNamespace space w
    | filter content condition =>
      have here : ∀ x ∈ condition.reads, x.ns = home := by
        intro x member
        refine (lives.of_mem (List.mem_append_left _ (List.mem_append_right _ ?_))).here.1
        rw [derived]
        exact List.mem_cons_of_mem _ member
      rw [Lineage.withNamespace]
      change _ :: unique _ = _
      rw [Condition.reads_withNamespace, unique_withNamespace space here]
      rfl
    | aggregate a => rw [Lineage.withNamespace]; exact Aggregate.reads_withNamespace space a
    | multiSelect multi =>
      exact absurd (derivation_eq_multiSelect.mpr ⟨multi, derived⟩) lives.here.2

theorem groups_withNamespace (c : Concept) :
    (c.withNamespace space).groups = c.groups.map (·.withNamespace space) := by
  unfold groups
  rw [lineage_withNamespace]
  cases c.lineage with
  | none => rfl
  | some lineage =>
    cases lineage with
    | aggregate a =>
      cases a
      rw [Option.map_some, Lineage.withNamespace, Aggregate.withNamespace, withNamespaceAll_eq]
      rfl
    | call _ | window _ | filter _ _ | multiSelect _ =>
      rw [Option.map_some, Lineage.withNamespace]
      rfl

/-- The default grain of a property with keys does not move. -/
theorem graded_withNamespace_of_keys (property : c.purpose = .property) (owned : c.keys ≠ []) :
    (c.withNamespace space).graded = c.graded := by
  rw [graded_of_keys property owned]
  have same := keys_withNamespace space c
  rw [graded_of_keys (by simpa using property) (by simpa using owned), same]

/-- The default grain of a property that its keys do not own is empty, here and elsewhere. -/
theorem graded_withNamespace_of_bare (property : c.purpose = .property) (owned : c.keys ≠ [])
    (bare : c.owners = []) : (c.withNamespace space).graded = c.graded.withNamespace space := by
  have none : c.graded.grain.components = [] := List.map_eq_nil_iff.mp bare
  rw [graded_withNamespace_of_keys property owned]
  rw [graded_of_keys property owned] at none ⊢
  unfold Graded.settle Graded.withNamespace at *
  dsimp only at none ⊢
  rw [none, Grain.withNamespace_eq]
  rfl

/-- Concepts whose default grains move with them are moved at these grains as well. -/
theorem map_withDefaultGrain_withNamespace {cs : List Concept}
    (moves : ∀ x ∈ cs, (x.withNamespace space).graded = x.graded.withNamespace space) :
    (cs.map (·.withNamespace space)).map withDefaultGrain =
      (cs.map withDefaultGrain).map (·.withNamespace space) := by
  rw [List.map_map, List.map_map]
  refine List.map_congr_left fun x member => ?_
  have grain : (x.withNamespace space).defaultGrain = x.defaultGrain.withNamespace space :=
    congrArg Graded.grain (moves x member)
  change (x.withNamespace space).withDefaultGrain = x.withDefaultGrain.withNamespace space
  rw [withDefaultGrain, grain, withDefaultGrain, withGrain_withNamespace]

/-- Default grains move with concepts that are not tied. -/
theorem graded_withNamespace (lives : c.LivesIn home) (loose : ¬ c.Tied) :
    (c.withNamespace space).graded = c.graded.withNamespace space := by
  induction c using Concept.induction with
  | step c ih =>
    obtain ⟨own, plain⟩ := lives.here
    have purposes := purpose_withNamespace space c
    have inside {x : Concept} (inner : x ∈ c.inner) (lives : x.LivesIn home)
        (followed : x ∈ c.follows) :
        (x.withNamespace space).graded = x.graded.withNamespace space :=
      ih x inner lives fun tied => loose (tied.of_mem followed)
    have given (purpose : c.purpose = .constant ∨ c.purpose = .auto) :
        (c.withNamespace space).graded = c.graded.withNamespace space := by
      have followed : c.follows = c.grain.components := by
        rcases purpose with purpose | purpose <;> rw [follows, purpose]
      have moves : ∀ x ∈ c.grain.components,
          (x.withNamespace space).graded = x.graded.withNamespace space := fun x component =>
        inside (List.mem_append_right _ component) (lives.component component)
          (followed ▸ component)
      rw [graded_of_grain purpose, graded_of_grain (purposes ▸ purpose), grain_withNamespace,
        components_withNamespace, map_withDefaultGrain_withNamespace moves]
      rfl
    cases purpose : c.purpose with
    | key =>
      have empty : Grain.withNamespace space ∅ = ∅ := Grain.withNamespace_eq [] false
      rw [graded_of_key purpose, graded_of_key (purposes.trans purpose)]
      simp only [Graded.withNamespace, Grain.withNamespace_eq, List.map_cons, List.map_nil,
        withGrain_withNamespace, empty]
    | property =>
      by_cases free : c.keys = []
      · have followed : c.follows = c.reads := by simp [follows, purpose, free]
        have brought : (c.reads.map (·.withNamespace space)).flatMap (·.graded.settled) =
            (c.reads.flatMap (·.graded.settled)).map (·.withNamespace space) := by
          rw [List.flatMap_map, List.map_flatMap]
          refine List.flatMap_congr fun r read => ?_
          rw [inside (mem_inner_of_mem_reads plain read) (lives.read read) (followed ▸ read)]
          rfl
        rw [graded_of_reads purpose free, graded_of_reads (purposes.trans purpose)
          (by simpa using free), reads_withNamespace lives, brought]
        have here : ∀ x ∈ c.reads.flatMap (·.graded.settled), x.AtHome home := by
          intro x member
          obtain ⟨r, read, settled⟩ := List.mem_flatMap.mp member
          exact (lives.read read).graded.2 x settled
        exact Graded.settle_withNamespace here
      · have bare : c.owners = [] := by
          by_contra owners
          exact loose ⟨c, .refl, purpose, free, owners⟩
        exact graded_withNamespace_of_bare purpose free bare
    | metric =>
      have followed : c.follows = c.groups := by rw [follows, purpose]
      have live : ∀ g ∈ c.groups, g.LivesIn home :=
        fun g group => lives.read (c.groups_subset_reads group)
      have moves : ∀ g ∈ c.groups,
          (g.withNamespace space).graded = g.graded.withNamespace space := fun g group =>
        inside (mem_inner_of_mem_reads plain (c.groups_subset_reads group)) (live g group)
          (followed ▸ group)
      rw [graded_of_groups purpose, graded_of_groups (purposes.trans purpose),
        groups_withNamespace, map_withDefaultGrain_withNamespace moves]
      have here : ∀ x ∈ c.groups.map withDefaultGrain, x.AtHome home := by
        intro x member
        obtain ⟨g, group, rfl⟩ := List.mem_map.mp member
        exact ⟨(live g group).here.1, (live g group).graded.1⟩
      exact Graded.settle_withNamespace here
    | constant => exact given (.inl purpose)
    | auto => exact given (.inr purpose)

/-- Whether keys own a concept, so that a grain with these keys does without it. -/
def OwnedBy (keys : List String) (c : Concept) : Prop :=
  c.owners ≠ [] ∧ ∀ owner ∈ c.owners, owner ∈ keys

theorem stays_iff {keys : List String} :
    c.Stays keys ↔ c.purpose ≠ .constant ∧ (c.purpose = .property → ¬ c.OwnedBy keys) := by
  simp only [Stays, OwnedBy, ne_eq, not_and_or, not_not, not_forall, exists_prop]

/-- A concept that is not tied is owned after a move by the keys that owned it before. -/
theorem ownedBy_withNamespace {ds : List Concept} (lives : c.LivesIn home) (loose : ¬ c.Tied)
    (here : ∀ d ∈ ds, d.ns = home) :
    (c.withNamespace space).OwnedBy (keyAddresses (ds.map (·.withNamespace space))) ↔
      c.OwnedBy (keyAddresses ds) := by
  have moved : (c.withNamespace space).owners =
      (c.defaultGrain.components.map (·.name)).map (addressIn space) := by
    rw [owners, defaultGrain, graded_withNamespace lives loose]
    change addresses (c.graded.grain.withNamespace space).components = _
    rw [components_withNamespace, addresses_withNamespace]
    rfl
  have before : c.owners = (c.defaultGrain.components.map (·.name)).map (addressIn home) :=
    addresses_eq lives.graded.1
  rw [OwnedBy, OwnedBy, moved, before, keyAddresses_withNamespace, keyAddresses_eq here]
  simp only [ne_eq, List.map_eq_nil_iff, List.forall_mem_map,
    List.mem_map_of_injective (addressIn_injective _)]

end Concept

namespace Grain

open SemanticQuery.Concept

variable {home space : String} {cs : List Concept}

theorem mem_addresses_of_withNamespace (here : ∀ c ∈ cs, c.ns = home) {address : String} :
    address ∈ (of (cs.map (·.withNamespace space))).addresses ↔
      ∃ c ∈ unique cs, addressIn space c.name = address ∧
        (c.withNamespace space).Stays (keyAddresses ((unique cs).map (·.withNamespace space))) := by
  rw [addresses, Names.mem_ofList, Concept.addresses, List.mem_map]
  simp only [mem_of, unique_withNamespace space here, List.mem_map]
  constructor
  · rintro ⟨_, ⟨_, ⟨c, kept, rfl⟩, rfl, stays⟩, named⟩
    exact ⟨c, kept, (address_withNamespace space c).symm.trans named, stays⟩
  · rintro ⟨c, kept, named, stays⟩
    exact ⟨_, ⟨_, ⟨c, kept, rfl⟩, rfl, stays⟩, (address_withNamespace space c).trans named⟩

theorem mem_addresses_withNamespace_of {address : String} :
    address ∈ ((of cs).withNamespace space).addresses ↔
      ∃ c ∈ unique cs, addressIn space c.name = address ∧ c.Stays (keyAddresses (unique cs)) := by
  rw [addresses, Names.mem_ofList, components_withNamespace, addresses_withNamespace]
  simp only [List.mem_map, mem_of]
  constructor
  · rintro ⟨_, ⟨_, ⟨c, kept, rfl, stays⟩, rfl⟩, named⟩
    exact ⟨c, kept, named, stays⟩
  · rintro ⟨c, kept, named, stays⟩
    exact ⟨_, ⟨_, ⟨c, kept, rfl, stays⟩, rfl⟩, named⟩

theorem eq_of_mem_unique {c d : Concept} (here : ∀ c ∈ cs, c.ns = home) (left : c ∈ unique cs)
    (right : d ∈ unique cs) (named : c.name = d.name) : c = d := by
  have same : c.address = d.address := by
    rw [Concept.address, Concept.address, here c (mem_of_mem_unique left),
      here d (mem_of_mem_unique right), named]
  exact List.inj_on_of_nodup_map (Names.nodup_uniqueFrom Concept.address [] cs) left right same

/-- A grain moves if each of the concepts stays in it after the move just if it does before. -/
theorem addresses_withNamespace_iff (here : ∀ c ∈ cs, c.ns = home) :
    (of (cs.map (·.withNamespace space))).addresses = ((of cs).withNamespace space).addresses ↔
      ∀ c ∈ unique cs,
        ((c.withNamespace space).Stays (keyAddresses ((unique cs).map (·.withNamespace space))) ↔
          c.Stays (keyAddresses (unique cs))) := by
  have alone {holds : Concept → Prop} {c : Concept} (member : c ∈ unique cs) :
      (∃ d ∈ unique cs, addressIn space d.name = addressIn space c.name ∧ holds d) ↔ holds c := by
    constructor
    · rintro ⟨d, listed, named, held⟩
      exact eq_of_mem_unique here listed member (addressIn_injective space named) ▸ held
    · exact fun held => ⟨c, member, rfl, held⟩
  constructor
  · intro same c member
    have listed : addressIn space c.name ∈ (of (cs.map (·.withNamespace space))).addresses ↔
        addressIn space c.name ∈ ((of cs).withNamespace space).addresses := by
      rw [same]
    rwa [mem_addresses_of_withNamespace here, mem_addresses_withNamespace_of, alone member,
      alone member] at listed
  · intro stays
    refine Names.eq_of_increasing (Names.pairwise_ofList _) (Names.pairwise_ofList _) fun name => ?_
    refine (mem_addresses_of_withNamespace here).trans
      (Iff.trans ?_ mem_addresses_withNamespace_of.symm)
    exact exists_congr fun c => and_congr_right fun member => and_congr_right fun _ =>
      stays c member

/-- A move to another namespace commutes with the canonical grain exactly if the properties that are
tied to keys are owned by the keys of the grain after the move as they were before it. A property
with keys of its own has the owners that it had, which do not move. -/
theorem addresses_of_withNamespace_iff (lives : ∀ c ∈ cs, c.LivesIn home) :
    ((of (cs.map (·.withNamespace space))).addresses = ((of cs).withNamespace space).addresses ↔
      ∀ c ∈ unique cs, c.purpose = .property → c.Tied →
        ((c.withNamespace space).OwnedBy (keyAddresses ((unique cs).map (·.withNamespace space))) ↔
          c.OwnedBy (keyAddresses (unique cs)))) ∧
      ∀ c ∈ cs, c.purpose = .property → c.keys ≠ [] →
        (c.withNamespace space).owners = c.owners := by
  have here : ∀ c ∈ cs, c.ns = home := fun c member => (lives c member).here.1
  have kept : ∀ c ∈ unique cs, c.ns = home := fun c member => here c (mem_of_mem_unique member)
  refine ⟨(addresses_withNamespace_iff here).trans (forall₂_congr fun c member => ?_),
    fun c _ property owned => ?_⟩
  · rw [stays_iff, stays_iff, purpose_withNamespace]
    by_cases property : c.purpose = .property
    · by_cases tied : c.Tied
      · simp [property, tied, not_iff_not]
      · simp [property, tied, ownedBy_withNamespace (lives c (mem_of_mem_unique member)) tied kept]
    · simp [property]
  · rw [owners, owners, defaultGrain, defaultGrain, graded_withNamespace_of_keys property owned]

end Grain

/-- Whether everything in a concept is of one namespace and lies within so many steps. -/
def Concept.livesWithin (home : String) : (steps : Nat) → Concept → Bool
  | 0, _ => false
  | steps + 1, c =>
    c.ns == home && c.derivation != .multiSelect && c.contents.all (livesWithin home steps)

theorem Concept.livesIn_of_livesWithin {home : String} {steps : Nat} {c : Concept}
    (checked : c.livesWithin home steps = true) : c.LivesIn home := by
  intro x reaches
  induction reaches using Relation.ReflTransGen.head_induction_on generalizing steps with
  | refl =>
    cases steps with
    | zero => cases checked
    | succ steps => simpa using (Bool.and_eq_true_iff.mp checked).1
  | head member _ ih =>
    cases steps with
    | zero => cases checked
    | succ steps =>
      exact ih (List.all_eq_true.mp (Bool.and_eq_true_iff.mp checked).2 _ member)

namespace Sales

def order : Concept := .key "order" .integer

/-- A property of orders that is derived from them. -/
def number : Concept :=
  .derive "number" .property (.call ⟨.coalesce, [.concept order], .integer, .property⟩)

/-- A property of orders that is declared with its key. -/
def total : Concept := .property "total" .float [order]

theorem number_loose : ¬ number.Tied := by
  rintro ⟨x, reaches, anchored⟩
  rcases Relation.ReflTransGen.cases_head reaches with rfl | ⟨y, member, reaches⟩
  · exact anchored.keys rfl
  · obtain rfl : y = order := List.mem_singleton.mp member
    rcases Relation.ReflTransGen.cases_head reaches with rfl | ⟨_, member, _⟩
    · cases anchored.purpose
    · cases member

end Sales

/-- The number of an order is left out of the grain of orders, before a move and after it. -/
theorem Grain.addresses_of_withNamespace_iff_number :
    (∀ c ∈ [Sales.order, Sales.number], c.LivesIn "local") ∧ ¬ Sales.number.Tied ∧
      (of ([Sales.order, Sales.number].map (·.withNamespace "sales"))).addresses =
        ((of [Sales.order, Sales.number]).withNamespace "sales").addresses ∧
      (of [Sales.order, Sales.number]).addresses = ["local.order"] := by
  have lives : ∀ c ∈ [Sales.order, Sales.number], c.LivesIn "local" := by
    have checked : [Sales.order, Sales.number].all (·.livesWithin "local" 4) = true := by
      decide +kernel
    exact fun c member => Concept.livesIn_of_livesWithin (List.all_eq_true.mp checked c member)
  refine ⟨lives, Sales.number_loose, ?_, by decide +kernel⟩
  refine (Grain.addresses_of_withNamespace_iff lives).1.mpr fun c member property tied => ?_
  rcases List.mem_pair.mp (Concept.mem_of_mem_unique member) with rfl | rfl
  · cases property
  · exact absurd tied Sales.number_loose

/-- The total of an order is left out of the grain of orders before a move, and not after it. -/
theorem Grain.withNamespace_leaves_keys :
    (∀ c ∈ [Sales.order, Sales.total], c.LivesIn "local") ∧
      ((of [Sales.order, Sales.total]).withNamespace "sales").addresses = ["sales.order"] ∧
      (of ([Sales.order, Sales.total].map (·.withNamespace "sales"))).addresses =
        ["sales.order", "sales.total"] := by
  have checked : [Sales.order, Sales.total].all (·.livesWithin "local" 4) = true := by
    decide +kernel
  refine ⟨fun c member => ?_, by decide +kernel, by decide +kernel⟩
  exact Concept.livesIn_of_livesWithin (List.all_eq_true.mp checked c member)

end SemanticQuery
