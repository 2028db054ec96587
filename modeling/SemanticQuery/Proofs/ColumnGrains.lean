import Mathlib.Data.List.Forall2
import SemanticQuery.Proofs.Assembly
import SemanticQuery.Proofs.GrainSums
import SemanticQuery.Proofs.Placeholders

/-!
The grain of a datasource that is declared without one. It is taken from the key columns at the
declaration and stays as it is when the columns are bound, so a placeholder that turns out to be a
key is missing from it.
-/

namespace SemanticQuery

/-- The grain of key columns has the addresses of these columns. -/
theorem Datasource.mem_addresses_keyGrain {columns : List Column} {address : String} :
    address ∈ Concept.addresses (keyGrain columns).components ↔
      ∃ column ∈ columns, column.concept.purpose = .key ∧ column.concept.address = address := by
  let keys := (columns.filter (·.concept.purpose == .key)).map (·.concept)
  have isKey : ∀ c ∈ Concept.unique keys, c.purpose = .key := by
    intro c kept
    have member : c ∈ keys := Concept.mem_of_mem_unique kept
    obtain ⟨column, listed, rfl⟩ := List.mem_map.mp member
    simpa using (List.mem_filter.mp listed).2
  calc address ∈ Concept.addresses (Grain.of keys).components
      ↔ address ∈ Concept.addresses (Concept.unique keys) := by
        simp only [Concept.addresses, List.mem_map, Grain.mem_of]
        constructor
        · rintro ⟨_, ⟨c, kept, rfl, _⟩, named⟩
          exact ⟨c, kept, named⟩
        · rintro ⟨c, kept, named⟩
          exact ⟨_, ⟨c, kept, rfl, Concept.stays_key (isKey c kept)⟩, named⟩
    _ ↔ address ∈ Concept.addresses keys := Concept.mem_addresses_unique
    _ ↔ ∃ column ∈ columns, column.concept.purpose = .key ∧ column.concept.address = address := by
        simp [keys, Concept.addresses, and_assoc]

theorem Concept.purpose_rebind {resolve : Resolver} {c bound : Concept}
    (present : c.isPlaceholder = false) (done : c.rebind resolve = .ok bound) :
    bound.purpose = c.purpose := by
  obtain ⟨_, _, _, _, rfl⟩ := rebind_present present done
  rfl

theorem forall₂_of_mapM {f : α → Except ε β} {as : List α} {bs : List β}
    (done : as.mapM f = .ok bs) : List.Forall₂ (fun a b => f a = .ok b) as bs := by
  have same : List.Forall₂ Eq (as.map f) (bs.map .ok) := by
    rw [mapM_eq_ok.mp done]
    exact List.forall₂_refl _
  simpa using same

/-- What becomes of a column in a catalog. The declaration takes the place of a placeholder, and any
other concept keeps its address and purpose. -/
structure Column.BindsTo (catalog : Catalog) (column bound : Column) : Prop where
  name : bound.name = column.name
  modifiers : bound.modifiers = column.modifiers
  declared : column.concept.isPlaceholder = true →
    catalog.concept column.concept.address = .ok bound.concept
  kept : column.concept.isPlaceholder = false →
    bound.concept.address = column.concept.address ∧ bound.concept.purpose = column.concept.purpose

/-- Bound key columns were key columns before or placeholders for keys. -/
theorem Column.BindsTo.mem_keys {catalog : Catalog} {columns bound : List Column}
    (binds : List.Forall₂ (BindsTo catalog) columns bound) {address : String} :
    (∃ column ∈ bound, column.concept.purpose = .key ∧ column.concept.address = address) ↔
      (∃ column ∈ columns, column.concept.purpose = .key ∧ column.concept.address = address) ∨
        ∃ column ∈ columns, column.concept.isPlaceholder = true ∧
          ∃ c, catalog.concept column.concept.address = .ok c ∧ c.purpose = .key ∧
            c.address = address := by
  induction binds with
  | nil => simp
  | @cons column done columns bound first _ ih =>
    simp only [List.exists_mem_cons_iff, ih]
    cases missing : column.concept.isPlaceholder with
    | true =>
      have undecided : column.concept.purpose = .auto := by
        simp only [Concept.isPlaceholder, Bool.and_eq_true, beq_iff_eq] at missing
        exact missing.1.2
      simp [first.declared missing, undecided, or_left_comm]
    | false =>
      obtain ⟨sameAddress, samePurpose⟩ := first.kept missing
      simp [sameAddress, samePurpose, or_assoc]

theorem Catalog.Assembled.datasource?_eq {catalog : Catalog} (assembled : catalog.Assembled)
    {d : Datasource} (declared : d ∈ catalog.datasources) :
    catalog.datasource? d.identifier = some d := by
  cases found : catalog.datasource? d.identifier with
  | none => exact absurd (List.find?_eq_none.mp found d declared) (by simp)
  | some e =>
    have same : e.identifier = d.identifier := by simpa using List.find?_some found
    rw [assembled.alone declared (List.mem_of_find?_eq_some found) same]

namespace Builder

variable {b : Builder} {catalog : Catalog} {d : Datasource}

theorem bindsTo_bindColumn {column bound : Column}
    (done : bindColumn catalog.concepts column = .ok bound) : column.BindsTo catalog bound := by
  unfold bindColumn at done
  split at done
  · obtain ⟨c, rebound, made⟩ := bind_eq_ok.mp done
    cases made
    refine ⟨rfl, rfl, fun missing => ?_, fun present => ?_⟩
    · rwa [Concept.rebind_placeholder missing] at rebound
    · rcases Concept.rebind_cases rebound with ⟨missing, _⟩ | ⟨_, same⟩
      · rw [present] at missing
        cases missing
      · exact ⟨same, Concept.purpose_rebind present rebound⟩
  · next complete =>
    cases done
    refine ⟨rfl, rfl, fun missing => ?_, fun _ => ⟨rfl, rfl⟩⟩
    exact absurd (Concept.hasPlaceholders_of_isPlaceholder missing) complete

/-- A datasource stands in the catalog with its columns bound, and is otherwise as it was. -/
theorem datasource?_build (assembled : b.Assembled) (built : b.build = .ok catalog)
    (declared : d ∈ b.datasources) :
    ∃ columns, catalog.datasource? d.identifier = some { d with columns } ∧
      List.Forall₂ (Column.BindsTo catalog) d.columns columns := by
  have whole : catalog.Assembled := ⟨b, assembled, built⟩
  obtain ⟨bound, concepts, datasources, _, _, done, rfl⟩ := build_cases built
  have listed : bindColumns concepts d ∈ datasources.map .ok := by
    rw [← mapM_eq_ok.mp done]
    exact List.mem_map_of_mem declared
  obtain ⟨made, member, binds⟩ := List.mem_map.mp listed
  obtain ⟨columns, each, complete⟩ := bind_eq_ok.mp binds.symm
  cases complete
  exact ⟨columns, whole.datasource?_eq member,
    (forall₂_of_mapM each).imp fun column bound => bindsTo_bindColumn⟩

/-- A datasource whose grain is that of its key columns keeps that grain in the catalog. It is the
grain of the key columns there just if each placeholder among the columns that stands for a key
stands for one that was a column already. -/
theorem build_keeps_grain {b : Builder} {catalog : Catalog} (assembled : b.Assembled)
    (built : b.build = .ok catalog) {d : Datasource} (declared : d ∈ b.datasources)
    (implicit : d.grain = Datasource.keyGrain d.columns) :
    ∃ bound, catalog.datasource? d.identifier = some bound ∧ bound.grain = d.grain ∧
      List.Forall₂ (Column.BindsTo catalog) d.columns bound.columns ∧
      (bound.grain.same (Datasource.keyGrain bound.columns) = true ↔
        ∀ column ∈ d.columns, column.concept.isPlaceholder = true →
          ∀ c, catalog.concept column.concept.address = .ok c → c.purpose = .key →
            ∃ key ∈ d.columns, key.concept.purpose = .key ∧ key.concept.address = c.address) := by
  obtain ⟨columns, found, binds⟩ := datasource?_build assembled built declared
  refine ⟨_, found, rfl, binds, ?_⟩
  rw [Grain.same, Names.same_iff, implicit]
  simp only [Datasource.mem_addresses_keyGrain, Column.BindsTo.mem_keys binds, iff_self_or]
  constructor
  · intro same column member missing c found key
    exact same c.address ⟨column, member, missing, c, found, key, rfl⟩
  · rintro known _ ⟨column, member, missing, c, found, key, rfl⟩
    exact known column member missing c found key

end Builder

namespace Ledgers

def entry : Concept := .key "entry" .integer

def account : Concept := .property "account" .string [entry]

/-- A ledger whose accounts are referred to before they are declared. -/
def ledger : Datasource :=
  .table "ledger" [⟨"entry", entry, []⟩, ⟨"account", .placeholder "local" "account", []⟩]

def named : Builder :=
  { concepts := .ofList [(account.address, account), (entry.address, entry)]
    datasources := [ledger] }

theorem assembled_named : named.Assembled := by
  have fresh : ({} : Builder).Assembled := .fresh false true
  have referred := Builder.Assembled.lookup fresh (rfl : Builder.lookup {} "account" = _)
  have listed := Builder.Assembled.addDatasource referred (rfl : Builder.addDatasource _ ledger = _)
  exact .addConcept listed (rfl : Builder.addConcept _ account false = .ok named)

end Ledgers

/-- Accounts that are declared late are no keys, so the ledger has the grain of its key columns. -/
theorem Builder.build_keeps_grain_named :
    Ledgers.named.Assembled ∧ Ledgers.ledger ∈ Ledgers.named.datasources ∧
      (∃ column ∈ Ledgers.ledger.columns, column.concept.isPlaceholder = true) ∧
      ∃ catalog bound, Ledgers.named.build = .ok catalog ∧
        catalog.datasource? "ledger" = some bound ∧
        Concept.addresses bound.grain.components = ["local.entry"] ∧
        bound.grain.same (Datasource.keyGrain bound.columns) = true := by
  have declared : Ledgers.ledger ∈ Ledgers.named.datasources := List.mem_singleton.mpr rfl
  have builds : Settles Ledgers.named.build
      (fun catalog =>
        Settles (catalog.concept Ledgers.account.address) (·.purpose ≠ .key) fun _ => False)
      fun _ => False := by
    decide +kernel
  obtain ⟨catalog, built, property⟩ := builds.exists_ok
  obtain ⟨bound, found, grain, _, same⟩ :=
    Builder.build_keeps_grain Ledgers.assembled_named built declared rfl
  refine ⟨Ledgers.assembled_named, declared, ⟨_, List.mem_cons_of_mem _ List.mem_cons_self, rfl⟩,
    catalog, bound, built, found, grain ▸ rfl, same.mpr ?_⟩
  intro column member missing c resolved key
  rcases List.mem_cons.mp member with rfl | member
  · cases missing
  · rw [List.mem_singleton.mp member] at resolved
    exact absurd key (property.ok resolved)

namespace Ledgers

/-- A ledger whose entries are referred to before they are declared. -/
def blank : Datasource := .table "ledger" [⟨"entry", .placeholder "local" "entry", []⟩]

def numbered : Builder :=
  { concepts := .ofList [(entry.address, entry)], datasources := [blank] }

theorem assembled_numbered : numbered.Assembled := by
  have fresh : ({} : Builder).Assembled := .fresh false true
  have referred := Builder.Assembled.lookup fresh (rfl : Builder.lookup {} "entry" = _)
  have listed := Builder.Assembled.addDatasource referred (rfl : Builder.addDatasource _ blank = _)
  exact .addConcept listed (rfl : Builder.addConcept _ entry false = .ok numbered)

end Ledgers

/-- Entries that are declared late are missing from the grain of the ledger. -/
theorem Builder.build_misses_key :
    Ledgers.numbered.Assembled ∧ Ledgers.blank ∈ Ledgers.numbered.datasources ∧
      Ledgers.blank.grain = Datasource.keyGrain Ledgers.blank.columns ∧
      ∃ catalog bound, Ledgers.numbered.build = .ok catalog ∧
        catalog.datasource? "ledger" = some bound ∧ bound.grain.isAbstract = true ∧
        Concept.addresses (Datasource.keyGrain bound.columns).components = ["local.entry"] ∧
        bound.grain.same (Datasource.keyGrain bound.columns) = false := by
  have builds : Settles Ledgers.numbered.build
      (fun catalog => ∃ bound ∈ catalog.datasource? "ledger", bound.grain.isAbstract = true ∧
        Concept.addresses (Datasource.keyGrain bound.columns).components = ["local.entry"] ∧
        bound.grain.same (Datasource.keyGrain bound.columns) = false)
      fun _ => False := by
    decide +kernel
  obtain ⟨catalog, built, bound, found, fails⟩ := builds.exists_ok
  exact ⟨Ledgers.assembled_numbered, List.mem_singleton.mpr rfl, rfl, catalog, bound, built, found,
    fails⟩

end SemanticQuery
