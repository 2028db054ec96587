import SemanticQuery.Concept.Declare
import SemanticQuery.Proofs.Keys
import SemanticQuery.Proofs.NameMaps

/-!
How far the keys of searches tell requests apart. A key shows the addresses of a request, each with
the identifier of its grain, and nothing else: two requests have one key exactly if they agree in
these and in the flag. The identifier of a grain joins the names of its components by underscores,
so it shows the components if their names are free of underscores, and else it may be the identifier
of another grain as well.
-/

namespace SemanticQuery

/-- Texts without underscores can be told from the text that joins them by underscores. -/
theorem intercalate_inj {parts others : List String} (some : parts ≠ []) (otherSome : others ≠ [])
    (plain : ∀ part ∈ parts, '_' ∉ part.toList) (otherPlain : ∀ part ∈ others, '_' ∉ part.toList)
    (same : "_".intercalate parts = "_".intercalate others) : parts = others := by
  have split {names : List String} (some : names ≠ [])
      (plain : ∀ part ∈ names, '_' ∉ part.toList) :
      ("_".intercalate names).toList.splitOn '_' = names.map String.toList := by
    have chars : ("_".intercalate names).toList = ['_'].intercalate (names.map String.toList) := by
      simp
    rw [chars, List.splitOn_intercalate '_' (by simpa using plain) (by simpa using some)]
  have texts : parts.map String.toList = others.map String.toList := by
    rw [← split some plain, ← split otherSome otherPlain, same]
  exact List.map_injective_iff.mpr (fun _ _ => String.toList_inj.mp) texts

namespace Concept

/-- A concept of the default namespace whose name can be taken neither for several names nor for the
abstract grain. -/
structure IsAtomic (c : Concept) : Prop where
  ns : c.ns = defaultNamespace
  name : ∀ char ∈ c.name.toList, char ≠ '_' ∧ char ≠ '.'
  notAbstract : c.name ≠ "abstract"

instance : DecidablePred IsAtomic := fun c =>
  have : Decidable (∀ char ∈ c.name.toList, char ≠ '_' ∧ char ≠ '.') :=
    List.decidableBAll (fun char => char ≠ '_' ∧ char ≠ '.') c.name.toList
  decidable_of_iff
    (c.ns = defaultNamespace ∧ (∀ char ∈ c.name.toList, char ≠ '_' ∧ char ≠ '.') ∧
      c.name ≠ "abstract")
    ⟨fun ⟨ns, name, notAbstract⟩ => ⟨ns, name, notAbstract⟩,
      fun atomic => ⟨atomic.ns, atomic.name, atomic.notAbstract⟩⟩

namespace IsAtomic

variable {c d : Concept}

theorem safeAddress_eq (atomic : c.IsAtomic) : c.safeAddress = c.name := by
  have kept : ∀ char ∈ c.name.toList, (if char == '.' then '_' else char) = char := by
    intro char member
    simp [(atomic.name char member).2]
  have underscored : underscored c.name = c.name := by
    apply String.toList_inj.mp
    rw [Concept.underscored, String.toList_map, List.map_congr_left kept, List.map_id']
  simp [safeAddress, atomic.ns, underscored]

theorem safeAddress_plain (atomic : c.IsAtomic) : '_' ∉ c.safeAddress.toList := by
  intro member
  rw [atomic.safeAddress_eq] at member
  exact (atomic.name '_' member).1 rfl

theorem address_eq (atomic : c.IsAtomic) (other : d.IsAtomic)
    (same : c.safeAddress = d.safeAddress) : c.address = d.address := by
  rw [atomic.safeAddress_eq, other.safeAddress_eq] at same
  rw [address, address, atomic.ns, other.ns, same]

end IsAtomic

end Concept

namespace Grain

variable {g h : Grain}

/-- The texts that the identifier of a grain is made of. -/
def safeAddresses (g : Grain) : List String := sortBy (· ≤ ·) (g.components.map (·.safeAddress))

theorem mem_safeAddresses {text : String} :
    text ∈ g.safeAddresses ↔ ∃ c ∈ g.components, c.safeAddress = text := by
  rw [safeAddresses, perm_sortBy.mem_iff, List.mem_map]

theorem safeAddresses_eq_nil : g.safeAddresses = [] ↔ g.components = [] := by
  rw [safeAddresses, ← List.length_eq_zero_iff, perm_sortBy.length_eq, List.length_map,
    List.length_eq_zero_iff]

theorem identifier_eq (g : Grain) :
    g.identifier = if g.components = [] then "abstract" else "_".intercalate g.safeAddresses := by
  simp [identifier, isAbstract, safeAddresses]

theorem safeAddresses_plain (atomic : ∀ c ∈ g.components, c.IsAtomic) :
    ∀ text ∈ g.safeAddresses, '_' ∉ text.toList := by
  intro text member
  obtain ⟨c, listed, rfl⟩ := mem_safeAddresses.mp member
  exact (atomic c listed).safeAddress_plain

/-- A grain with atomic components is not taken for the abstract one. -/
theorem components_eq_nil (atomic : ∀ c ∈ g.components, c.IsAtomic)
    (same : g.identifier = "abstract") : g.components = [] := by
  by_contra some
  rw [identifier_eq, if_neg some] at same
  have texts : g.safeAddresses = ["abstract"] := by
    apply intercalate_inj (by simpa [safeAddresses_eq_nil] using some) (by simp)
      (safeAddresses_plain atomic) (by decide)
    rw [same]
    rfl
  obtain ⟨c, listed, named⟩ := mem_safeAddresses.mp (texts ▸ List.mem_singleton.mpr rfl)
  rw [(atomic c listed).safeAddress_eq] at named
  exact (atomic c listed).notAbstract named

theorem addresses_subset_of_safeAddresses (atomic : ∀ c ∈ g.components, c.IsAtomic)
    (otherAtomic : ∀ c ∈ h.components, c.IsAtomic) (texts : g.safeAddresses = h.safeAddresses)
    {address : String} (member : address ∈ Concept.addresses g.components) :
    address ∈ Concept.addresses h.components := by
  obtain ⟨c, listed, rfl⟩ := List.mem_map.mp member
  obtain ⟨d, other, named⟩ := mem_safeAddresses.mp (texts ▸ mem_safeAddresses.mpr ⟨c, listed, rfl⟩)
  rw [(atomic c listed).address_eq (otherAtomic d other) named.symm]
  exact List.mem_map_of_mem other

/-- The identifier of a grain with atomic components shows their addresses. -/
theorem addresses_eq_of_identifier (atomic : ∀ c ∈ g.components, c.IsAtomic)
    (otherAtomic : ∀ c ∈ h.components, c.IsAtomic) (same : g.identifier = h.identifier) :
    g.addresses = h.addresses := by
  by_cases none : g.components = []
  · have alsoNone : h.components = [] := by
      apply components_eq_nil otherAtomic
      rw [← same, identifier_eq, if_pos none]
    rw [addresses, addresses, none, alsoNone]
  by_cases otherNone : h.components = []
  · have alsoNone : g.components = [] := by
      apply components_eq_nil atomic
      rw [same, identifier_eq, if_pos otherNone]
    exact absurd alsoNone none
  rw [identifier_eq, identifier_eq, if_neg none, if_neg otherNone] at same
  have texts : g.safeAddresses = h.safeAddresses := by
    apply intercalate_inj _ _ (safeAddresses_plain atomic) (safeAddresses_plain otherAtomic) same
    · simpa [safeAddresses_eq_nil] using none
    · simpa [safeAddresses_eq_nil] using otherNone
  exact Names.ofList_congr fun address =>
    ⟨addresses_subset_of_safeAddresses atomic otherAtomic texts,
      addresses_subset_of_safeAddresses otherAtomic atomic texts.symm⟩

end Grain

namespace History

variable {request other : List Concept} {acceptPartial otherPartial : Bool}

instance : DecidablePred PlainPart := fun c =>
  inferInstanceAs (Decidable (c.Plain ∧ ∀ x ∈ c.grain.components, x.Plain))

/-- The addresses of a request, each with the identifier of its grain. -/
def parts (request : List Concept) : List (String × String) :=
  request.map fun c => (c.address, c.grain.identifier)

/-- The addresses of a request, each with the addresses of its grain. -/
def grains (request : List Concept) : List (String × List String) :=
  request.map fun c => (c.address, c.grain.addresses)

theorem keyPart_inj {c d : Concept} (plain : c.Plain) (otherPlain : d.Plain)
    (same : keyPart c = keyPart d) :
    c.address = d.address ∧ c.grain.identifier = d.grain.identifier := by
  have addresses : c.address.toList = d.address.toList := by
    rw [← takeWhile_keyPart plain, ← takeWhile_keyPart otherPlain, same]
  have chars := congrArg String.toList same
  rw [toList_keyPart, toList_keyPart, addresses, List.append_cancel_left_eq] at chars
  exact ⟨String.toList_inj.mp addresses, String.toList_inj.mp (List.cons.inj chars).2⟩

/-- A concept of a request is in all requests of the same key, as far as the key shows it. -/
theorem mem_parts_of_key_eq (plain : ∀ c ∈ request, PlainPart c)
    (otherPlain : ∀ c ∈ other, PlainPart c)
    (same : key request acceptPartial = key other otherPartial) {part : String × String}
    (member : part ∈ parts request) : part ∈ parts other := by
  obtain ⟨c, asked, rfl⟩ := List.mem_map.mp member
  have marked : '@' ∈ (keyPart c).toList := by simp [toList_keyPart]
  have shown : (keyPart c).toList ∈ (key other otherPartial).toList.splitOn '-' := by
    rw [← same]
    exact (mem_splitOn_key plain marked).mpr ⟨c, asked, rfl⟩
  obtain ⟨d, listed, equal⟩ := (mem_splitOn_key otherPlain marked).mp shown
  obtain ⟨address, grain⟩ :=
    keyPart_inj (plain c asked).1 (otherPlain d listed).1 (String.toList_inj.mp equal)
  rw [address, grain]
  exact List.mem_map_of_mem listed

theorem flag_of_key_eq (same : key request acceptPartial = key other otherPartial) :
    acceptPartial = otherPartial := by
  have last (request : List Concept) (acceptPartial : Bool) :
      ((key request acceptPartial).toList.splitOn '-').getLast? =
        some (flag acceptPartial).toList := by
    rw [splitOn_key, List.getLast?_concat]
  have flags : (flag acceptPartial).toList = (flag otherPartial).toList := by
    apply Option.some.inj
    rw [← last request, ← last other, same]
  revert flags
  cases acceptPartial <;> cases otherPartial <;> decide

theorem key_congr (same : ∀ part, part ∈ parts request ↔ part ∈ parts other) :
    key request acceptPartial = key other acceptPartial := by
  have texts (request : List Concept) :
      request.map keyPart = (parts request).map fun part => part.1 ++ "@" ++ part.2 := by
    rw [parts, List.map_map]
    rfl
  have members : Names.ofList (request.map keyPart) = Names.ofList (other.map keyPart) := by
    apply Names.ofList_congr
    intro text
    simp only [texts, List.mem_map, same]
  rw [key, key, members]

/-- Where the components of grains are atomic, a key also shows the grains. -/
theorem mem_grains_of_key_eq (plain : ∀ c ∈ request, PlainPart c)
    (otherPlain : ∀ c ∈ other, PlainPart c)
    (atomic : ∀ c ∈ request ++ other, ∀ x ∈ c.grain.components, x.IsAtomic)
    (same : key request acceptPartial = key other otherPartial) {part : String × List String}
    (member : part ∈ grains request) : part ∈ grains other := by
  obtain ⟨c, asked, rfl⟩ := List.mem_map.mp member
  have shown : (c.address, c.grain.identifier) ∈ parts other :=
    mem_parts_of_key_eq plain otherPlain same (List.mem_map_of_mem asked)
  obtain ⟨d, listed, equal⟩ := List.mem_map.mp shown
  obtain ⟨address, identifier⟩ := Prod.mk.inj equal
  have grain : d.grain.addresses = c.grain.addresses := by
    apply Grain.addresses_eq_of_identifier _ _ identifier
    · exact atomic d (List.mem_append_right _ listed)
    · exact atomic c (List.mem_append_left _ asked)
  rw [← address, ← grain]
  exact List.mem_map_of_mem listed

/-- Requests have one key exactly if they have one flag and ask for the same addresses, at grains of
the same identifiers. Where the grains have atomic components, these are the same grains. -/
theorem key_eq_iff (plain : ∀ c ∈ request, PlainPart c) (otherPlain : ∀ c ∈ other, PlainPart c) :
    (key request acceptPartial = key other otherPartial ↔
      acceptPartial = otherPartial ∧ ∀ part, part ∈ parts request ↔ part ∈ parts other) ∧
    ((∀ c ∈ request ++ other, ∀ x ∈ c.grain.components, x.IsAtomic) →
      key request acceptPartial = key other otherPartial →
        acceptPartial = otherPartial ∧ ∀ part, part ∈ grains request ↔ part ∈ grains other) := by
  refine ⟨⟨fun same => ⟨flag_of_key_eq same, fun part => ?_⟩, ?_⟩, fun atomic same => ?_⟩
  · exact ⟨mem_parts_of_key_eq plain otherPlain same,
      mem_parts_of_key_eq otherPlain plain same.symm⟩
  · rintro ⟨rfl, same⟩
    exact key_congr same
  · have swapped : ∀ c ∈ other ++ request, ∀ x ∈ c.grain.components, x.IsAtomic := by
      intro c member
      exact atomic c (List.mem_append.mpr (List.mem_append.mp member).symm)
    refine ⟨flag_of_key_eq same, fun part => ?_⟩
    exact ⟨mem_grains_of_key_eq plain otherPlain atomic same,
      mem_grains_of_key_eq otherPlain plain swapped same.symm⟩

end History

namespace Turnover

def region : Concept := .key "region" .string

def year : Concept := .key "year" .integer

/-- Another key, of which regions and years are no part. -/
def regionYear : Concept := .key "region_year" .integer

def turnover (grain : List Concept) : Concept :=
  (Concept.metric "turnover" .float).withGrain (.of grain)

end Turnover

open Turnover in
theorem History.key_eq_iff_reordered :
    (∀ c ∈ [turnover [region, year], region], PlainPart c) ∧
      (∀ c ∈ [region, turnover [year, region]], PlainPart c) ∧
      key [turnover [region, year], region] true = key [region, turnover [year, region]] true ∧
      ∀ part, part ∈ grains [turnover [region, year], region] ↔
        part ∈ grains [region, turnover [year, region]] := by
  have plain : ∀ c ∈ [turnover [region, year], region], PlainPart c := by decide +kernel
  have otherPlain : ∀ c ∈ [region, turnover [year, region]], PlainPart c := by decide +kernel
  have shown : parts [region, turnover [year, region]] =
      (parts [turnover [region, year], region]).reverse := by decide +kernel
  have same : key [turnover [region, year], region] true =
      key [region, turnover [year, region]] true := by
    apply (key_eq_iff plain otherPlain).1.mpr
    simp [shown]
  exact ⟨plain, otherPlain, same, ((key_eq_iff plain otherPlain).2 (by decide +kernel) same).2⟩

open Turnover in
/-- The turnover of a region in a year has the key of the turnover of a `region_year`. -/
theorem History.key_eq_of_other_grain :
    (∀ c ∈ [turnover [region, year], turnover [regionYear]], PlainPart c) ∧
      key [turnover [region, year]] false = key [turnover [regionYear]] false ∧
      ¬ ∀ part, part ∈ grains [turnover [region, year]] ↔
        part ∈ grains [turnover [regionYear]] := by
  have apart : ("local.turnover", ["local.region", "local.year"]) ∉
      grains [turnover [regionYear]] := by decide +kernel
  have first : key [turnover [region, year]] false = "local.turnover@region_year-false" := by
    decide +kernel
  have second : key [turnover [regionYear]] false = "local.turnover@region_year-false" := by
    decide +kernel
  refine ⟨by decide +kernel, first.trans second.symm, fun same => apart ((same _).mp ?_)⟩
  decide +kernel

end SemanticQuery
