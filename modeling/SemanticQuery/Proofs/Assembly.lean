import Mathlib.Data.List.Nodup
import SemanticQuery.Catalog.Builder
import SemanticQuery.Proofs.NameMaps
import SemanticQuery.Proofs.Outcome

/-!
Catalogs that are assembled declaration by declaration. A datasource takes the place of an earlier
one with its identifier, so no two datasources of a catalog share theirs. The concept of every column
is declared, so what a datasource provides is materialized.
-/

namespace SemanticQuery

namespace Builder

/-- The builders that a fresh one turns into by declarations and references. -/
inductive Assembled : Builder → Prop
  | fresh (failOnMissing deriveDateParts : Bool) : Assembled { failOnMissing, deriveDateParts }
  | addConcept {b next : Builder} {c : Concept} {allowDuplicate : Bool} :
      Assembled b → b.addConcept c allowDuplicate = .ok next → Assembled next
  | addDatasource {b next : Builder} {d : Datasource} :
      Assembled b → b.addDatasource d = .ok next → Assembled next
  | lookup {b next : Builder} {reference : String} {answer : Lookup} :
      Assembled b → b.lookup reference = .ok (answer, next) → Assembled next

theorem datasources_addConcept {b next : Builder} {c : Concept} {allowDuplicate : Bool}
    (added : b.addConcept c allowDuplicate = .ok next) : next.datasources = b.datasources := by
  unfold addConcept at added
  dsimp only at added
  split at added
  · cases added
  · cases added
    rfl

theorem datasources_addColumn {b next : Builder} {column : Column}
    (added : b.addColumn column = .ok next) : next.datasources = b.datasources := by
  unfold addColumn at added
  split at added
  · cases added
    rfl
  · exact datasources_addConcept added

theorem datasources_addDatasource {b next : Builder} {d : Datasource}
    (added : b.addDatasource d = .ok next) :
    next.datasources = placeDatasource d b.datasources := by
  obtain ⟨declared, columns, done⟩ := bind_eq_ok.mp added
  cases done
  have same : declared.datasources = b.datasources :=
    foldlM_keeps (fun builder => builder.datasources = b.datasources)
      (fun _ _ _ _ held step => (datasources_addColumn step).trans held) rfl columns
  rw [same]

theorem datasources_lookup {b next : Builder} {reference : String} {answer : Lookup}
    (looked : b.lookup reference = .ok (answer, next)) : next.datasources = b.datasources := by
  unfold lookup at looked
  dsimp only at looked
  repeat' split at looked
  all_goals cases looked
  all_goals rfl

theorem identifiers_placeDatasource (d : Datasource) (ds : List Datasource) :
    (placeDatasource d ds).map (·.identifier) =
      if d.identifier ∈ ds.map (·.identifier) then ds.map (·.identifier)
      else ds.map (·.identifier) ++ [d.identifier] := by
  induction ds with
  | nil => simp [placeDatasource]
  | cons e rest ih =>
    rw [placeDatasource]
    by_cases same : e.identifier = d.identifier
    · simp [same]
    · rw [if_neg (by simpa using same), List.map_cons, ih]
      simp only [List.map_cons, List.mem_cons, Ne.symm same, false_or]
      split <;> rfl

/-- No two datasources of a builder share their identifier. -/
theorem Assembled.nodup_identifiers {b : Builder} (assembled : b.Assembled) :
    (b.datasources.map (·.identifier)).Nodup := by
  induction assembled with
  | fresh => exact List.nodup_nil
  | addConcept _ added ih => rwa [datasources_addConcept added]
  | @addDatasource b next d _ added ih =>
    rw [datasources_addDatasource added, identifiers_placeDatasource]
    split
    · exact ih
    · next new =>
      refine List.nodup_append.mpr ⟨ih, by simp, ?_⟩
      intro identifier listed other member same
      rw [List.mem_singleton.mp member] at same
      exact new (same ▸ listed)
  | lookup _ looked ih => rwa [datasources_lookup looked]

/-- The stages of building a catalog. -/
theorem build_cases {b : Builder} {catalog : Catalog} (built : b.build = .ok catalog) :
    ∃ bound concepts datasources, bind b.concepts = .ok bound ∧
      (addDateParts bound = .ok concepts ∨ bound = concepts) ∧
      b.datasources.mapM (bindColumns concepts) = .ok datasources ∧
        Catalog.of concepts datasources = catalog := by
  obtain ⟨bound, binding, built⟩ := bind_eq_ok.mp built
  dsimp only at built
  split at built
  all_goals
    obtain ⟨concepts, dated, built⟩ := bind_eq_ok.mp built
    obtain ⟨datasources, columns, built⟩ := bind_eq_ok.mp built
  · exact ⟨bound, concepts, datasources, binding, .inl dated, columns, pure_eq_ok.mp built⟩
  · exact ⟨bound, concepts, datasources, binding, .inr (pure_eq_ok.mp dated), columns,
      pure_eq_ok.mp built⟩

/-- Binding keeps the datasources and their identifiers. -/
theorem identifiers_build {b : Builder} {catalog : Catalog} (built : b.build = .ok catalog) :
    catalog.datasources.map (·.identifier) = b.datasources.map (·.identifier) := by
  obtain ⟨bound, concepts, datasources, _, _, columns, rfl⟩ := build_cases built
  refine map_eq_of_mapM (fun d e bound => ?_) columns
  obtain ⟨columns, _, done⟩ := bind_eq_ok.mp bound
  cases done
  rfl

end Builder

/-- Whether a catalog was assembled by declarations. -/
def Catalog.Assembled (catalog : Catalog) : Prop :=
  ∃ b : Builder, b.Assembled ∧ b.build = .ok catalog

/-- A datasource of an assembled catalog is known by its identifier. -/
theorem Catalog.Assembled.alone {catalog : Catalog} (assembled : catalog.Assembled)
    {d e : Datasource} (declared : d ∈ catalog.datasources) (other : e ∈ catalog.datasources)
    (same : e.identifier = d.identifier) : e = d := by
  obtain ⟨b, made, built⟩ := assembled
  have distinct := made.nodup_identifiers
  rw [← Builder.identifiers_build built] at distinct
  exact List.inj_on_of_nodup_map distinct other declared same

/-- Whether every concept of a map stands at its own address. -/
def NameMap.Keyed (concepts : NameMap Concept) : Prop :=
  ∀ entry ∈ concepts.entries, entry.2.address = entry.1

theorem NameMap.Keyed.insert {concepts : NameMap Concept} (keyed : concepts.Keyed) {c : Concept}
    {address : String} (own : c.address = address) : (concepts.insert address c).Keyed := by
  intro entry member
  rcases mem_entries_insert member with rfl | old
  · exact own
  · exact keyed entry old

theorem NameMap.Keyed.insertIfNew {concepts : NameMap Concept} (keyed : concepts.Keyed)
    (c : Concept) : (concepts.insertIfNew c.address c).Keyed := by
  unfold NameMap.insertIfNew
  split
  · exact keyed
  · exact keyed.insert rfl

theorem NameMap.mem_keys_insertIfNew {concepts : NameMap Concept} {name address : String}
    {c : Concept} (held : name ∈ concepts.keys) :
    name ∈ (concepts.insertIfNew address c).keys := by
  unfold NameMap.insertIfNew
  split
  · exact held
  · exact mem_keys_insert.mpr (.inr held)

theorem NameMap.mem_entries_of_resolve {concepts : NameMap Concept} {reference : String}
    {c : Concept} (found : concepts.resolve reference = .ok c) :
    (SemanticQuery.qualify concepts.contains reference, c) ∈ concepts.entries := by
  unfold NameMap.resolve at found
  dsimp only at found
  split at found
  · next held =>
    cases found
    exact mem_entries_of_get? held
  · cases found

namespace Concept

theorem hasPlaceholders_of_isPlaceholder {c : Concept} (missing : c.isPlaceholder = true) :
    c.hasPlaceholders = true := by
  cases c
  rw [hasPlaceholders, hasPlaceholdersInside, fold]
  simp [missing]

/-- A placeholder is bound to what is found, and any other concept keeps its address. -/
theorem rebind_cases {resolve : Resolver} {c bound : Concept} (done : c.rebind resolve = .ok bound) :
    c.isPlaceholder = true ∧ resolve c.address = .ok bound ∨
      c.isPlaceholder = false ∧ bound.address = c.address := by
  cases c
  rw [rebind] at done
  split at done
  · next missing => exact .inl ⟨missing, done⟩
  · next present =>
    obtain ⟨lineage, _, done⟩ := bind_eq_ok.mp done
    obtain ⟨keys, _, done⟩ := bind_eq_ok.mp done
    cases done
    exact .inr ⟨Bool.eq_false_iff.mpr present, rfl⟩

variable {concepts : NameMap Concept} {c bound : Concept}

/-- What a placeholder is bound to is declared. -/
theorem mem_keys_of_rebind (keyed : concepts.Keyed) (done : c.rebind concepts.resolve = .ok bound)
    (missing : c.isPlaceholder = true) : bound.address ∈ concepts.keys := by
  rcases rebind_cases done with ⟨_, found⟩ | ⟨present, _⟩
  · have entry := NameMap.mem_entries_of_resolve found
    rw [keyed _ entry]
    exact List.mem_map_of_mem entry
  · rw [missing] at present
    cases present

/-- A declared concept keeps its address. -/
theorem address_rebind (keyed : concepts.Keyed) (done : c.rebind concepts.resolve = .ok bound)
    (declared : c.address ∈ concepts.keys) : bound.address = c.address := by
  rcases rebind_cases done with ⟨_, found⟩ | ⟨_, same⟩
  · have entry := NameMap.mem_entries_of_resolve found
    rw [SemanticQuery.qualify, if_pos (NameMap.contains_iff.mpr declared)] at entry
    exact keyed _ entry
  · exact same

end Concept

namespace Builder

variable {concepts bound : NameMap Concept}

theorem keyed_bindOnce (keyed : concepts.Keyed) (done : bindOnce concepts = .ok bound) :
    bound.Keyed ∧ ∀ address ∈ concepts.keys, address ∈ bound.keys := by
  refine foldlM_keeps
    (fun bound : NameMap Concept => bound.Keyed ∧ ∀ address ∈ concepts.keys, address ∈ bound.keys)
    (fun before entry listed after kept step => ?_) ⟨keyed, fun _ own => own⟩ done
  obtain ⟨c, rebound, inserted⟩ := bind_eq_ok.mp step
  cases inserted
  have member : entry ∈ concepts.entries := (List.mem_filter.mp listed).1
  have own := keyed entry member
  have declared : entry.2.address ∈ concepts.keys := by
    rw [own]
    exact List.mem_map_of_mem member
  refine ⟨kept.1.insert ((Concept.address_rebind keyed rebound declared).trans own), ?_⟩
  exact fun address held => NameMap.mem_keys_insert.mpr (.inr (kept.2 address held))

/-- What a pass keeps is kept by all passes. -/
theorem bindWithin_keeps (holds : NameMap Concept → Prop) {passes : Nat}
    (step : ∀ concepts next, holds concepts → bindOnce concepts = .ok next → holds next)
    (start : holds concepts) (done : bindWithin passes concepts = .ok bound) : holds bound := by
  induction passes generalizing concepts with
  | zero =>
    rw [bindWithin] at done
    split at done
    · cases done
      exact start
    · cases done
  | succ passes ih =>
    rw [bindWithin] at done
    split at done
    · cases done
      exact start
    · obtain ⟨next, once, rest⟩ := bind_eq_ok.mp done
      exact ih (step concepts next start once) rest

theorem keyed_bindWithin {passes : Nat} (keyed : concepts.Keyed)
    (done : bindWithin passes concepts = .ok bound) :
    bound.Keyed ∧ ∀ address ∈ concepts.keys, address ∈ bound.keys := by
  refine bindWithin_keeps
    (fun bound : NameMap Concept => bound.Keyed ∧ ∀ address ∈ concepts.keys, address ∈ bound.keys)
    (fun before next kept once => ?_) ⟨keyed, fun _ own => own⟩ done
  obtain ⟨nextKeyed, also⟩ := keyed_bindOnce kept.1 once
  exact ⟨nextKeyed, fun address held => also address (kept.2 address held)⟩

theorem keyed_foldl_insertIfNew (keyed : bound.Keyed) (cs : List Concept) :
    (cs.foldl (fun concepts c => concepts.insertIfNew c.address c) bound).Keyed ∧
      ∀ address ∈ bound.keys, address ∈
        (cs.foldl (fun concepts c => concepts.insertIfNew c.address c) bound).keys := by
  induction cs generalizing bound with
  | nil => exact ⟨keyed, fun _ own => own⟩
  | cons c cs ih =>
    obtain ⟨rest, kept⟩ := ih (keyed.insertIfNew c)
    exact ⟨rest, fun address held => kept address (NameMap.mem_keys_insertIfNew held)⟩

theorem keyed_addDateParts (keyed : bound.Keyed) (done : addDateParts bound = .ok concepts) :
    concepts.Keyed ∧ ∀ address ∈ bound.keys, address ∈ concepts.keys := by
  obtain ⟨parts, _, done⟩ := bind_eq_ok.mp done
  cases done
  exact keyed_foldl_insertIfNew keyed parts.flatten

/-- What holds of every builder: concepts stand at their addresses, and the concepts of columns are
declared or placeholders. -/
structure Orderly (b : Builder) : Prop where
  keyed : b.concepts.Keyed
  columns : ∀ d ∈ b.datasources, ∀ c ∈ d.concepts,
    c.isPlaceholder = true ∨ c.address ∈ b.concepts.keys

theorem concepts_addConcept {b next : Builder} {c : Concept} {allowDuplicate : Bool}
    (added : b.addConcept c allowDuplicate = .ok next) :
    next.concepts = b.concepts.insert c.address c := by
  unfold addConcept at added
  dsimp only at added
  split at added
  · cases added
  · cases added
    rfl

theorem Orderly.addConcept {b next : Builder} (orderly : b.Orderly) {c : Concept}
    {allowDuplicate : Bool} (added : b.addConcept c allowDuplicate = .ok next) : next.Orderly := by
  refine ⟨?_, fun d listed x bound => ?_⟩
  · rw [concepts_addConcept added]
    exact orderly.keyed.insert rfl
  · rw [datasources_addConcept added] at listed
    rw [concepts_addConcept added]
    exact (orderly.columns d listed x bound).imp_right fun held =>
      NameMap.mem_keys_insert.mpr (.inr held)

/-- The concepts that a column leaves declared. -/
theorem keys_addColumn {b next : Builder} {column : Column} (added : b.addColumn column = .ok next) :
    (column.concept.isPlaceholder = true ∨ column.concept.address ∈ next.concepts.keys) ∧
      ∀ address ∈ b.concepts.keys, address ∈ next.concepts.keys := by
  unfold addColumn at added
  split at added
  · next known =>
    cases added
    rw [Bool.or_eq_true] at known
    exact ⟨known.symm.imp_right NameMap.contains_iff.mp, fun _ own => own⟩
  · rw [concepts_addConcept added]
    refine ⟨.inr (NameMap.mem_keys_insert.mpr (.inl rfl)), fun address held => ?_⟩
    exact NameMap.mem_keys_insert.mpr (.inr held)

theorem Orderly.addColumn {b next : Builder} (orderly : b.Orderly) {column : Column}
    (added : b.addColumn column = .ok next) : next.Orderly := by
  unfold Builder.addColumn at added
  split at added
  · cases added
    exact orderly
  · exact orderly.addConcept added

theorem Orderly.addColumns {b next : Builder} (orderly : b.Orderly) {columns : List Column}
    (added : columns.foldlM Builder.addColumn b = .ok next) :
    next.Orderly ∧ (∀ address ∈ b.concepts.keys, address ∈ next.concepts.keys) ∧
      ∀ column ∈ columns, column.concept.isPlaceholder = true ∨
        column.concept.address ∈ next.concepts.keys := by
  induction columns generalizing b with
  | nil =>
    cases added
    exact ⟨orderly, fun _ own => own, by simp⟩
  | cons column columns ih =>
    rw [List.foldlM_cons] at added
    obtain ⟨middle, first, rest⟩ := bind_eq_ok.mp added
    obtain ⟨here, grown⟩ := keys_addColumn first
    obtain ⟨done, kept, others⟩ := ih (orderly.addColumn first) rest
    refine ⟨done, fun address held => kept address (grown address held), fun other listed => ?_⟩
    rcases List.mem_cons.mp listed with rfl | later
    · exact here.imp_right (kept _)
    · exact others other later

theorem mem_placeDatasource {d e : Datasource} {ds : List Datasource}
    (member : e ∈ placeDatasource d ds) : e = d ∨ e ∈ ds := by
  induction ds with
  | nil => exact .inl (List.mem_singleton.mp member)
  | cons first rest ih =>
    rw [placeDatasource] at member
    split at member
    · exact (List.mem_cons.mp member).imp_right (List.mem_cons_of_mem _)
    · rcases List.mem_cons.mp member with rfl | later
      · exact .inr List.mem_cons_self
      · exact (ih later).imp_right (List.mem_cons_of_mem _)

theorem Orderly.addDatasource {b next : Builder} (orderly : b.Orderly) {d : Datasource}
    (added : b.addDatasource d = .ok next) : next.Orderly := by
  obtain ⟨declared, columns, done⟩ := bind_eq_ok.mp added
  cases done
  obtain ⟨held, _, bound⟩ := orderly.addColumns columns
  refine ⟨held.keyed, fun e listed c own => ?_⟩
  rcases mem_placeDatasource listed with rfl | old
  · obtain ⟨column, member, rfl⟩ := List.mem_map.mp own
    exact bound column member
  · exact held.columns e old c own

theorem concepts_lookup {b next : Builder} {reference : String} {answer : Lookup}
    (looked : b.lookup reference = .ok (answer, next)) : next.concepts = b.concepts := by
  unfold lookup at looked
  dsimp only at looked
  repeat' split at looked
  all_goals cases looked
  all_goals rfl

theorem Assembled.orderly {b : Builder} (assembled : b.Assembled) : b.Orderly := by
  induction assembled with
  | fresh =>
    refine ⟨fun entry member => ?_, fun d listed => ?_⟩
    · cases member
    · cases listed
  | addConcept _ added ih => exact ih.addConcept added
  | addDatasource _ added ih => exact ih.addDatasource added
  | lookup _ looked ih =>
    refine ⟨?_, ?_⟩
    · rw [concepts_lookup looked]
      exact ih.keyed
    · rw [concepts_lookup looked, datasources_lookup looked]
      exact ih.columns

/-- A bound column is of a declared concept. -/
theorem mem_keys_of_bindColumn (keyed : concepts.Keyed) {column done : Column}
    (bound : bindColumn concepts column = .ok done)
    (own : column.concept.isPlaceholder = true ∨ column.concept.address ∈ concepts.keys) :
    done.concept.address ∈ concepts.keys := by
  unfold bindColumn at bound
  split at bound
  · obtain ⟨c, rebound, made⟩ := bind_eq_ok.mp bound
    cases made
    rcases own with missing | declared
    · exact Concept.mem_keys_of_rebind keyed rebound missing
    · change c.address ∈ concepts.keys
      rw [Concept.address_rebind keyed rebound declared]
      exact declared
  · next complete =>
    cases bound
    refine own.resolve_left fun missing => complete ?_
    exact Concept.hasPlaceholders_of_isPlaceholder missing

end Builder

/-- In an assembled catalog the concepts of columns are declared. -/
theorem Catalog.Assembled.mem_keys {catalog : Catalog} (assembled : catalog.Assembled)
    {d : Datasource} (declared : d ∈ catalog.datasources) {c : Concept} (listed : c ∈ d.concepts) :
    c.address ∈ catalog.concepts.keys := by
  obtain ⟨b, made, built⟩ := assembled
  obtain ⟨bound, concepts, datasources, binding, dated, columns, rfl⟩ := Builder.build_cases built
  have orderly := made.orderly
  obtain ⟨boundKeyed, kept⟩ := Builder.keyed_bindWithin orderly.keyed binding
  obtain ⟨keyed, all⟩ : concepts.Keyed ∧ ∀ address ∈ bound.keys, address ∈ concepts.keys := by
    rcases dated with dated | rfl
    · exact Builder.keyed_addDateParts boundKeyed dated
    · exact ⟨boundKeyed, fun _ own => own⟩
  obtain ⟨source, own, binds⟩ := exists_of_mem_mapM columns declared
  obtain ⟨done, each, complete⟩ := bind_eq_ok.mp binds
  cases complete
  obtain ⟨column, member, rfl⟩ := List.mem_map.mp listed
  obtain ⟨before, first, binds⟩ := exists_of_mem_mapM each member
  refine Builder.mem_keys_of_bindColumn keyed binds ?_
  exact (orderly.columns source own _ (List.mem_map_of_mem first)).imp_right fun held =>
    all _ (kept _ held)

theorem Catalog.Assembled.isMaterialized {catalog : Catalog} (assembled : catalog.Assembled)
    {d : Datasource} (declared : d ∈ catalog.datasources) {address : String}
    (provides : d.provides address = true) : catalog.isMaterialized address = true := by
  obtain ⟨column, found⟩ := Option.isSome_iff_exists.mp provides
  have bound : column ∈ d.columns := List.mem_of_find?_eq_some found
  have same : column.concept.address = address := by simpa using List.find?_some found
  have listed : column.concept ∈ d.concepts := List.mem_map_of_mem bound
  have held := assembled.mem_keys declared listed
  obtain ⟨b, _, built⟩ := assembled
  obtain ⟨_, concepts, datasources, _, _, _, rfl⟩ := Builder.build_cases built
  rw [same] at held
  rw [Catalog.isMaterialized, List.contains_iff_mem, Catalog.of, Names.mem_ofList, List.mem_filter]
  refine ⟨List.mem_flatMap.mpr ⟨d, declared, ?_⟩, NameMap.contains_iff.mpr held⟩
  rw [← same]
  exact List.mem_map_of_mem listed

end SemanticQuery
