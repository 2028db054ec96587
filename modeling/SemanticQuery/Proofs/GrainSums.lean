import SemanticQuery.Concept.Declare
import SemanticQuery.Proofs.Variants

/-!
Sums of grains. A canonical grain drops a property once the keys that own it are there, and a sum
may bring these keys later, so that what a grain drops depends on all that is added to it. The
addresses of a combination of grains are therefore described from the grains that it is made of: a
combination has the keys of all of them, and of the other components those that stay beside these
keys. Combinations of the same grains, in whatever order and however often, are then the same.
-/

namespace SemanticQuery

namespace Concept

/-- The addresses of the default grain. -/
def owners (c : Concept) : List String := addresses c.defaultGrain.components

/-- Concepts that are interchangeable in a grain. -/
structure StandsFor (c d : Concept) : Prop where
  address : c.address = d.address
  purpose : c.purpose = d.purpose
  owners : ∀ owner, owner ∈ c.owners ↔ owner ∈ d.owners

/-- Concepts of one address have one purpose and one default grain. -/
def Coherent (cs : List Concept) : Prop :=
  ∀ c ∈ cs, ∀ d ∈ cs, c.address = d.address →
    c.purpose = d.purpose ∧ c.defaultGrain.same d.defaultGrain = true

instance (cs : List Concept) : Decidable (Coherent cs) :=
  List.decidableBAll (fun c : Concept => ∀ d ∈ cs, c.address = d.address →
    c.purpose = d.purpose ∧ c.defaultGrain.same d.defaultGrain = true) cs

/-- Whether a grain that has the keys keeps a concept. -/
def Stays (keys : List String) (c : Concept) : Prop :=
  c.purpose ≠ .constant ∧
    (c.purpose = .property → c.owners = [] ∨ ∃ owner ∈ c.owners, owner ∉ keys)

/-- The addresses of the keys among concepts. -/
def keyAddresses (cs : List Concept) : List String := addresses (cs.filter (·.purpose == .key))

theorem mem_keyAddresses {cs : List Concept} {address : String} :
    address ∈ keyAddresses cs ↔ ∃ c ∈ cs, c.purpose = .key ∧ c.address = address := by
  simp [keyAddresses, addresses, and_assoc]

theorem StandsFor.refl (c : Concept) : c.StandsFor c := ⟨rfl, rfl, fun _ => Iff.rfl⟩

theorem StandsFor.symm {c d : Concept} (same : c.StandsFor d) : d.StandsFor c :=
  ⟨same.address.symm, same.purpose.symm, fun owner => (same.owners owner).symm⟩

theorem StandsFor.trans {c d e : Concept} (first : c.StandsFor d) (second : d.StandsFor e) :
    c.StandsFor e :=
  ⟨first.address.trans second.address, first.purpose.trans second.purpose,
    fun owner => (first.owners owner).trans (second.owners owner)⟩

theorem Coherent.standsFor {cs : List Concept} (coherent : Coherent cs) {c d : Concept}
    (left : c ∈ cs) (right : d ∈ cs) (same : c.address = d.address) : c.StandsFor d := by
  obtain ⟨purpose, grain⟩ := coherent c left d right same
  exact ⟨same, purpose, Names.same_iff.mp grain⟩

/-- Each of coherent concepts is represented by one that is kept. -/
theorem Coherent.exists_kept {cs : List Concept} (coherent : Coherent cs) {c : Concept}
    (member : c ∈ cs) : ∃ d ∈ unique cs, d.address = c.address ∧ d.StandsFor c := by
  obtain ⟨d, kept, same⟩ : ∃ d ∈ unique cs, d.address = c.address :=
    Names.exists_mem_uniqueOn member
  exact ⟨d, kept, same, coherent.standsFor (mem_of_mem_unique kept) member same⟩

/-- Concepts that stand for coherent ones are coherent. -/
theorem Coherent.of_standsFor {cs ds : List Concept} (coherent : Coherent ds)
    (drawn : ∀ c ∈ cs, ∃ d ∈ ds, c.StandsFor d) : Coherent cs := by
  intro c left d right same
  obtain ⟨x, first, forX⟩ := drawn c left
  obtain ⟨y, second, forY⟩ := drawn d right
  have between : x.address = y.address := by rw [← forX.address, ← forY.address, same]
  have whole := forX.trans ((coherent.standsFor first second between).trans forY.symm)
  exact ⟨whole.purpose, Names.same_iff.mpr whole.owners⟩

/-- A concept at its default grain keeps it. -/
theorem withDefaultGrain_standsFor (c : Concept) : c.withDefaultGrain.StandsFor c := by
  refine ⟨rfl, rfl, fun owner => ?_⟩
  rw [owners, defaultGrain_withDefaultGrain, owners]

theorem StandsFor.stays {keys : List String} {c d : Concept} (same : c.StandsFor d)
    (stays : d.Stays keys) : c.Stays keys := by
  refine ⟨same.purpose ▸ stays.1, fun property => ?_⟩
  rcases stays.2 (same.purpose ▸ property) with none | ⟨owner, owns, absent⟩
  · left
    apply List.eq_nil_iff_forall_not_mem.mpr
    intro owner owns
    simpa [none] using (same.owners owner).mp owns
  · exact .inr ⟨owner, (same.owners owner).mpr owns, absent⟩

/-- What stays beside keys stays beside fewer. -/
theorem Stays.mono {keys more : List String} {c : Concept} (stays : c.Stays more)
    (subset : ∀ key ∈ keys, key ∈ more) : c.Stays keys := by
  refine ⟨stays.1, fun property => ?_⟩
  rcases stays.2 property with none | ⟨owner, owns, absent⟩
  · exact .inl none
  · exact .inr ⟨owner, owns, fun held => absent (subset owner held)⟩

theorem stays_key {keys : List String} {c : Concept} (key : c.purpose = .key) : c.Stays keys := by
  constructor <;> simp [key]

end Concept

namespace Grain

open SemanticQuery.Concept

theorem mem_canonical {cs : List Concept} {c : Concept} :
    c ∈ canonical cs ↔ c ∈ cs ∧ c.purpose ≠ .constant ∧
      (c.purpose = .property → Concept.addresses c.grain.components = [] ∨
        ∃ owner ∈ Concept.addresses c.grain.components, owner ∉ keyAddresses cs) := by
  rw [canonical, List.mem_filter, ← keyAddresses]
  cases c.purpose <;> simp [Names.subset]

/-- The components of a canonical grain are the concepts that stay beside its keys, each at its
default grain. -/
theorem mem_of {cs : List Concept} {c : Concept} :
    c ∈ (of cs).components ↔
      ∃ d ∈ unique cs, d.withDefaultGrain = c ∧ d.Stays (keyAddresses (unique cs)) := by
  have keys (address : String) :
      address ∈ keyAddresses ((unique cs).map (·.withDefaultGrain)) ↔
        address ∈ keyAddresses (unique cs) := by
    simp only [keyAddresses, Concept.addresses, List.filter_map, List.map_map]
    rfl
  rw [of, mem_canonical, List.mem_map]
  simp only [keys]
  constructor
  · rintro ⟨⟨d, kept, rfl⟩, stays⟩
    exact ⟨d, kept, rfl, stays⟩
  · rintro ⟨d, kept, rfl, stays⟩
    exact ⟨⟨d, kept, rfl⟩, stays⟩

theorem mem_keyAddresses_unique {cs : List Concept} (coherent : Concept.Coherent cs)
    {address : String} :
    address ∈ keyAddresses (unique cs) ↔ address ∈ keyAddresses cs := by
  simp only [mem_keyAddresses]
  constructor
  · rintro ⟨c, kept, key, named⟩
    exact ⟨c, mem_of_mem_unique kept, key, named⟩
  · rintro ⟨c, member, key, rfl⟩
    obtain ⟨d, kept, same, stands⟩ := coherent.exists_kept member
    exact ⟨d, kept, stands.purpose.trans key, same⟩

/-- Of coherent concepts a canonical grain keeps those that stay beside their keys. -/
theorem mem_addresses_of {cs : List Concept} (coherent : Concept.Coherent cs) {address : String} :
    address ∈ Concept.addresses (of cs).components ↔
      ∃ c ∈ cs, c.address = address ∧ c.Stays (keyAddresses cs) := by
  have fewer : ∀ key ∈ keyAddresses cs, key ∈ keyAddresses (unique cs) :=
    fun key => (mem_keyAddresses_unique coherent).mpr
  have more : ∀ key ∈ keyAddresses (unique cs), key ∈ keyAddresses cs :=
    fun key => (mem_keyAddresses_unique coherent).mp
  simp only [Concept.addresses, List.mem_map, mem_of]
  constructor
  · rintro ⟨_, ⟨d, kept, rfl, stays⟩, rfl⟩
    exact ⟨d, mem_of_mem_unique kept, rfl, stays.mono fewer⟩
  · rintro ⟨c, member, rfl, stays⟩
    obtain ⟨d, kept, same, stands⟩ := coherent.exists_kept member
    exact ⟨d.withDefaultGrain, ⟨d, kept, rfl, stands.stays (stays.mono more)⟩, same⟩

/-- A grain that is made of grains: it has of their components those that stay beside all their
keys. -/
structure Combines (gs : List Grain) (g : Grain) : Prop where
  drawn : ∀ c ∈ g.components, ∃ d ∈ gs.flatMap (·.components), c.StandsFor d
  kept : ∀ address, address ∈ Concept.addresses g.components ↔
    ∃ d ∈ gs.flatMap (·.components), d.address = address ∧
      d.Stays (keyAddresses (gs.flatMap (·.components)))

/-- What a canonical grain has stays beside its own keys. -/
theorem combines_of (cs : List Concept) : Combines [of cs] (of cs) := by
  have alone : [of cs].flatMap (·.components) = (of cs).components := by simp
  refine ⟨fun c listed => ⟨c, alone ▸ listed, .refl c⟩, fun address => ?_⟩
  rw [alone]
  constructor
  · intro listed
    obtain ⟨c, member, rfl⟩ := List.mem_map.mp listed
    obtain ⟨d, kept, rfl, stays⟩ := mem_of.mp member
    refine ⟨d.withDefaultGrain, member, rfl, d.withDefaultGrain_standsFor.stays (stays.mono ?_)⟩
    intro key held
    obtain ⟨c, own, purpose, rfl⟩ := mem_keyAddresses.mp held
    obtain ⟨e, first, rfl, _⟩ := mem_of.mp own
    exact mem_keyAddresses.mpr ⟨e, first, purpose, rfl⟩
  · rintro ⟨c, member, rfl, _⟩
    exact List.mem_map_of_mem member

theorem combines_nil : Combines [] ∅ := by
  refine ⟨fun c listed => absurd listed List.not_mem_nil, fun address => ?_⟩
  exact iff_of_false List.not_mem_nil (by simp)

section Coherence

variable {gs hs : List Grain} {g h : Grain}

theorem Combines.mem_keyAddresses (combines : Combines gs g)
    (coherent : Concept.Coherent (gs.flatMap (·.components))) {address : String} :
    address ∈ keyAddresses g.components ↔ address ∈ keyAddresses (gs.flatMap (·.components)) := by
  rw [Concept.mem_keyAddresses, Concept.mem_keyAddresses]
  constructor
  · rintro ⟨c, own, key, rfl⟩
    obtain ⟨d, listed, stands⟩ := combines.drawn c own
    exact ⟨d, listed, stands.purpose ▸ key, stands.address.symm⟩
  · rintro ⟨d, listed, key, rfl⟩
    have held := (combines.kept d.address).mpr ⟨d, listed, rfl, stays_key key⟩
    obtain ⟨c, own, same⟩ := List.mem_map.mp held
    obtain ⟨e, origin, stands⟩ := combines.drawn c own
    have between := coherent.standsFor origin listed (stands.address ▸ same)
    exact ⟨c, own, stands.purpose.trans (between.purpose.trans key), same⟩

/-- A combination of grains keeps whatever stays beside their keys and further ones. -/
theorem Combines.exists_stays_iff (combines : Combines gs g)
    (coherent : Concept.Coherent (gs.flatMap (·.components))) {keys : List String}
    (further : ∀ key ∈ keyAddresses (gs.flatMap (·.components)), key ∈ keys) (address : String) :
    (∃ c ∈ g.components, c.address = address ∧ c.Stays keys) ↔
      ∃ d ∈ gs.flatMap (·.components), d.address = address ∧ d.Stays keys := by
  constructor
  · rintro ⟨c, own, rfl, stays⟩
    obtain ⟨d, listed, stands⟩ := combines.drawn c own
    exact ⟨d, listed, stands.address.symm, stands.symm.stays stays⟩
  · rintro ⟨d, listed, rfl, stays⟩
    have held := (combines.kept d.address).mpr ⟨d, listed, rfl, stays.mono further⟩
    obtain ⟨c, own, same⟩ := List.mem_map.mp held
    obtain ⟨e, origin, stands⟩ := combines.drawn c own
    have between := coherent.standsFor origin listed (stands.address ▸ same)
    exact ⟨c, own, same, stands.stays (between.stays stays)⟩

/-- The canonical grain of the components of grains is a combination of these. -/
theorem combines_of_flatMap (coherent : Concept.Coherent (gs.flatMap (·.components))) :
    Combines gs (of (gs.flatMap (·.components))) := by
  refine ⟨fun c listed => ?_, fun address => mem_addresses_of coherent⟩
  obtain ⟨d, member, rfl⟩ := exists_of_mem_of listed
  exact ⟨d, member, d.withDefaultGrain_standsFor⟩

/-- A sum of combinations combines all grains that these are made of. -/
theorem Combines.add (left : Combines gs g) (right : Combines hs h)
    (coherent : Concept.Coherent ((gs ++ hs).flatMap (·.components))) :
    Combines (gs ++ hs) (g + h) := by
  rw [List.flatMap_append] at coherent
  have drawn : ∀ c ∈ g.components ++ h.components,
      ∃ d ∈ gs.flatMap (·.components) ++ hs.flatMap (·.components), c.StandsFor d := by
    intro c listed
    rcases List.mem_append.mp listed with own | own
    · obtain ⟨d, member, stands⟩ := left.drawn c own
      exact ⟨d, List.mem_append_left _ member, stands⟩
    · obtain ⟨d, member, stands⟩ := right.drawn c own
      exact ⟨d, List.mem_append_right _ member, stands⟩
  have ofLeft : Concept.Coherent (gs.flatMap (·.components)) :=
    coherent.of_standsFor fun c own => ⟨c, List.mem_append_left _ own, .refl c⟩
  have ofRight : Concept.Coherent (hs.flatMap (·.components)) :=
    coherent.of_standsFor fun c own => ⟨c, List.mem_append_right _ own, .refl c⟩
  have append (cs ds : List Concept) (key : String) :
      key ∈ keyAddresses (cs ++ ds) ↔ key ∈ keyAddresses cs ∨ key ∈ keyAddresses ds := by
    simp [keyAddresses]
  have keys (key : String) : key ∈ keyAddresses (g.components ++ h.components) ↔
      key ∈ keyAddresses (gs.flatMap (·.components) ++ hs.flatMap (·.components)) := by
    rw [append, append, left.mem_keyAddresses ofLeft, right.mem_keyAddresses ofRight]
  refine ⟨fun c listed => ?_, fun address => ?_⟩
  · obtain ⟨d, member, rfl⟩ := exists_of_mem_of listed
    obtain ⟨e, origin, stands⟩ := drawn d member
    rw [List.flatMap_append]
    exact ⟨e, origin, d.withDefaultGrain_standsFor.trans stands⟩
  · have leftIff := left.exists_stays_iff ofLeft
      (fun key held => (keys key).mpr ((append _ _ key).mpr (.inl held))) address
    have rightIff := right.exists_stays_iff ofRight
      (fun key held => (keys key).mpr ((append _ _ key).mpr (.inr held))) address
    have split (cs ds : List Concept) (holds : Concept → Prop) :
        (∃ c ∈ cs ++ ds, holds c) ↔ (∃ c ∈ cs, holds c) ∨ ∃ c ∈ ds, holds c := by
      simp [or_and_right, exists_or]
    have stays (c : Concept) : c.Stays (keyAddresses (g.components ++ h.components)) ↔
        c.Stays (keyAddresses (gs.flatMap (·.components) ++ hs.flatMap (·.components))) :=
      ⟨fun held => held.mono fun key => (keys key).mpr,
        fun held => held.mono fun key => (keys key).mp⟩
    change address ∈ Concept.addresses (of (g.components ++ h.components)).components ↔ _
    rw [mem_addresses_of (coherent.of_standsFor drawn), split, leftIff, rightIff, ← split,
      List.flatMap_append]
    simp only [stays]

/-- Combinations of the same grains are the same. -/
theorem Combines.same (left : Combines gs g) (right : Combines hs h)
    (members : ∀ k, k ∈ gs ↔ k ∈ hs) : g.same h = true := by
  have listed (c : Concept) :
      c ∈ gs.flatMap (·.components) ↔ c ∈ hs.flatMap (·.components) := by
    simp [List.mem_flatMap, members]
  have keys (key : String) : key ∈ keyAddresses (gs.flatMap (·.components)) ↔
      key ∈ keyAddresses (hs.flatMap (·.components)) := by
    simp only [Concept.mem_keyAddresses, listed]
  refine Names.same_iff.mpr fun address => ?_
  rw [left.kept, right.kept]
  constructor
  · rintro ⟨d, member, named, stays⟩
    exact ⟨d, (listed d).mp member, named, stays.mono fun key => (keys key).mpr⟩
  · rintro ⟨d, member, named, stays⟩
    exact ⟨d, (listed d).mpr member, named, stays.mono fun key => (keys key).mp⟩

theorem Combines.foldl (combines : Combines gs g) (canonical : ∀ k ∈ hs, Combines [k] k)
    (coherent : Concept.Coherent ((gs ++ hs).flatMap (·.components))) :
    Combines (gs ++ hs) (hs.foldl (· + ·) g) := by
  induction hs generalizing gs g with
  | nil => simpa using combines
  | cons k rest ih =>
    have first : Concept.Coherent ((gs ++ [k]).flatMap (·.components)) := by
      refine coherent.of_standsFor fun c own => ⟨c, ?_, .refl c⟩
      simp only [List.flatMap_append, List.flatMap_cons, List.mem_append] at own ⊢
      simp only [List.flatMap_nil, List.not_mem_nil, or_false] at own
      exact own.imp_right .inl
    have next := combines.add (canonical k List.mem_cons_self) first
    have rest := ih next (fun other listed => canonical other (List.mem_cons_of_mem _ listed))
      (by simpa using coherent)
    simpa using rest

end Coherence

/-- Addition of canonical grains is commutative, associative and idempotent, and the empty grain is
its identity. So a sum depends on what grains are added, and neither on their order nor on how often
each is, and it is the canonical grain of all their components. -/
theorem add_semilattice {gs : List Grain} (canonical : ∀ g ∈ gs, ∃ cs, g = of cs)
    (coherent : Concept.Coherent (gs.flatMap (·.components))) :
    (∀ g ∈ gs, ∀ h ∈ gs, (g + h).same (h + g) = true) ∧
      (∀ g ∈ gs, ∀ h ∈ gs, ∀ k ∈ gs, (g + h + k).same (g + (h + k)) = true) ∧
      (∀ g ∈ gs, (g + g).same g = true) ∧
      (∀ g ∈ gs, (g + ∅).same g = true ∧ (∅ + g).same g = true) ∧
      (∀ hs, (∀ g, g ∈ hs ↔ g ∈ gs) → (sum hs).same (sum gs) = true) ∧
      (sum gs).same (of (gs.flatMap (·.components))) = true := by
  have single : ∀ g ∈ gs, Combines [g] g := by
    intro g listed
    obtain ⟨cs, rfl⟩ := canonical g listed
    exact combines_of cs
  have among (hs : List Grain) (inside : ∀ g ∈ hs, g ∈ gs) :
      Concept.Coherent (hs.flatMap (·.components)) := by
    refine coherent.of_standsFor fun c own => ⟨c, ?_, .refl c⟩
    obtain ⟨g, listed, held⟩ := List.mem_flatMap.mp own
    exact List.mem_flatMap.mpr ⟨g, inside g listed, held⟩
  have pair (g h : Grain) (left : g ∈ gs) (right : h ∈ gs) : Combines [g, h] (g + h) :=
    (single g left).add (single h right) (among _ (by simp [left, right]))
  have whole (hs : List Grain) (inside : ∀ g ∈ hs, g ∈ gs) : Combines hs (sum hs) :=
    combines_nil.foldl (fun g listed => single g (inside g listed)) (among hs inside)
  refine ⟨fun g left h right => ?_, fun g first h second k third => ?_, fun g own => ?_,
    fun g own => ⟨?_, ?_⟩, fun hs members => ?_, ?_⟩
  · exact (pair g h left right).same (pair h g right left) (by simp [or_comm])
  · have inside : ∀ x ∈ [g, h, k], x ∈ gs := by simp [first, second, third]
    have left := (pair g h first second).add (single k third) (among _ inside)
    have right := (single g first).add (pair h k second third) (among _ inside)
    exact left.same right fun _ => Iff.rfl
  · exact (pair g g own own).same (single g own) (by simp)
  · have right := (single g own).add combines_nil (among [g] (by simp [own]))
    exact right.same (single g own) fun _ => Iff.rfl
  · have left := combines_nil.add (single g own) (among [g] (by simp [own]))
    exact left.same (single g own) fun _ => Iff.rfl
  · exact (whole hs fun g listed => (members g).mp listed).same (whole gs fun g listed => listed)
      members
  · exact (whole gs fun g listed => listed).same (combines_of_flatMap coherent) fun _ => Iff.rfl

end Grain

namespace Invoices

def invoice : Concept := .key "invoice" .integer

def customer : Concept := .key "customer" .integer

/-- A property that is folded into the invoice as soon as a grain has both. -/
def total : Concept := .property "total" .float [invoice]

def grains : List Grain := [.of [total, customer], .of [invoice], .of [customer]]

end Invoices

theorem Grain.add_semilattice_invoices :
    Concept.Coherent (Invoices.grains.flatMap (·.components)) ∧
      ((∀ g ∈ Invoices.grains, ∀ h ∈ Invoices.grains, ∀ k ∈ Invoices.grains,
        (g + h + k).same (g + (h + k)) = true) ∧
      (Grain.sum Invoices.grains).same
        (.of (Invoices.grains.flatMap (·.components))) = true) := by
  have coherent : Concept.Coherent (Invoices.grains.flatMap (·.components)) := by decide +kernel
  have canonical : ∀ g ∈ Invoices.grains, ∃ cs, g = Grain.of cs := by
    simp only [Invoices.grains, List.mem_cons, List.not_mem_nil, or_false]
    rintro g (rfl | rfl | rfl)
    · exact ⟨_, rfl⟩
    · exact ⟨_, rfl⟩
    · exact ⟨_, rfl⟩
  obtain ⟨_, assoc, _, _, _, whole⟩ := Grain.add_semilattice canonical coherent
  exact ⟨coherent, assoc, whole⟩

end SemanticQuery
